/-
# `SisOp.Pgfault.Instrs` — the instructions of the upcall, one by one

What an instruction stores is below the trap-time stack pointer, in the frame or just
below the frame (`Target`, `GoodAt.target`), and each takes `GoodAt` to the next one
(`GoodAt.next`).
-/
import SisOp.Pgfault.Nested

namespace SisOp.Pgfault

open SisOp.Jos SisOp.Lib

section

variable {upcall handlerVar f : Word} {t : Regs} {c : Cpu} {i : Instr} {x : Word}

/-! ## What an instruction changes -/

theorem exec_mem_ne (h : (exec upcall handlerVar f i c).mem x ≠ c.mem x) :
    ∃ a, i.target c.regs = some a ∧ InSpan a 4 x := by
  cases i with
  | pushEsp => exact ⟨_, rfl, store_ne h⟩
  | callEax => exact ⟨_, rfl, store_ne h⟩
  | pushEip => exact ⟨_, rfl, store_ne h⟩
  | movEsp => exact ⟨_, rfl, store_ne h⟩
  | _ => exact absurd rfl h

/-- Arithmetic in user mode leaves the privileged flags. -/
theorem arith_eflags (r : Regs) (f : Word) :
    (r.arith f).eflags &&& ~~~popfMask = r.eflags &&& ~~~popfMask := by
  have hkept : ~~~arithMask &&& ~~~popfMask = ~~~popfMask := by decide
  have hgone : arithMask &&& ~~~popfMask = 0 := by decide
  change (r.eflags &&& ~~~arithMask ||| f &&& arithMask) &&& ~~~popfMask = _
  rw [BitVec.and_or_distrib_right, BitVec.and_assoc, BitVec.and_assoc, hkept, hgone]
  simp

theorem popf_eflags (w r : Word) :
    (w &&& popfMask ||| r &&& ~~~popfMask) &&& ~~~popfMask = r &&& ~~~popfMask := by
  have hgone : popfMask &&& ~~~popfMask = 0 := by decide
  rw [BitVec.and_or_distrib_right, BitVec.and_assoc, BitVec.and_assoc, hgone, BitVec.and_self]
  simp

theorem exec_eflags : (exec upcall handlerVar f i c).regs.eflags &&& ~~~popfMask =
    c.regs.eflags &&& ~~~popfMask := by
  cases i with
  | popArg | subEax | addEsp8 | addEsp4 => exact arith_eflags c.regs f
  | popfl => exact popf_eflags _ _
  | _ => rfl

/-- `popfl` has all flags from the frame, as the privileged ones have not changed. -/
theorem popf_flags {w r : Word} (h : r &&& ~~~popfMask = w &&& ~~~popfMask) :
    w &&& popfMask ||| r &&& ~~~popfMask = w := by
  rw [h, ← BitVec.and_or_distrib_left, BitVec.or_not_self, BitVec.and_allOnes]

/-! ## Where it stores -/

/-- What the upcall of a fault at `t` may store: its frame, the two words below it and the word
below the trap-time stack pointer. -/
def Target (t : Regs) (x : Word) : Prop :=
  InSpan (utf t.esp) 52 x ∨ InSpan (utf t.esp - 8) 8 x ∨ InSpan (t.esp - 4) 4 x

/-- The two words below the frame are on the exception stack if they can be written. -/
theorem below_frame {n : Nat} (hroom : Room t.esp) (hn : n ≤ 56)
    (h : MayWrite (utf t.esp - BitVec.ofNat 32 n)) :
    4005556224 ≤ (utf t.esp - BitVec.ofNat 32 n).toNat ∧
      (utf t.esp - BitVec.ofNat 32 n).toNat = (utf t.esp).toNat - n := by
  have hb := hroom.bounds
  have hsub : (utf t.esp - BitVec.ofNat 32 n).toNat = (utf t.esp).toNat - n := by
    rw [BitVec.toNat_sub, BitVec.toNat_ofNat]
    omega
  rw [mayWrite_iff] at h
  omega

theorem inSpan_self {a : Word} {n : Nat} (hn : 0 < n) : InSpan a n a := by
  rw [InSpan, BitVec.sub_self]
  exact hn

theorem GoodAt.target (h : GoodAt upcall t c.regs c.mem i) (hroom : Room t.esp)
    (hstore : ∀ a, i.target c.regs = some a → ∀ x, InSpan a 4 x → MayWrite x) {a : Word}
    (ha : i.target c.regs = some a) (hx : InSpan a 4 x) : Target t x ∧ ¬ Above t.esp x := by
  have hb := hroom.bounds
  have hbelow : ∀ n, 4 ≤ n → n ≤ 8 → a = utf t.esp - BitVec.ofNat 32 n →
      Target t x ∧ ¬ Above t.esp x := by
    rintro n h4 h8 rfl
    obtain ⟨hlow, hsub⟩ :=
      below_frame hroom (by omega) (hstore _ ha _ (inSpan_self (by decide)))
    have hx' := (hroom.inSpan_below h4 (by omega)).mp hx
    refine ⟨Or.inr (Or.inl ?_), hroom.not_above (by omega) (by omega)⟩
    exact (hroom.inSpan_below (p := 8) (n := 8) (by decide) (by decide)).mpr (by omega)
  cases i with
  | pushEsp =>
    refine hbelow 4 (by decide) (by decide) ?_
    rw [← Option.some.inj ha, h.esp]
    simp [espAt, Active.popped]
  | callEax =>
    refine hbelow 8 (by decide) (by decide) ?_
    rw [← Option.some.inj ha, h.esp]
    simp [espAt, BitVec.sub_sub]
  | pushEip =>
    obtain rfl : t.esp - 4 = a := h.regs.1.symm.trans (Option.some.inj ha)
    exact ⟨Or.inr (Or.inr hx), wordBelow_not_above (hstore _ ha) hroom hx⟩
  | movEsp =>
    obtain rfl : utf t.esp + BitVec.ofNat 32 48 = a := by
      rw [← Option.some.inj ha, h.esp]
      simp [espAt, Active.popped]
    have hx' := (hroom.inSpan (by decide)).mp hx
    refine ⟨Or.inl ?_, hroom.not_above (by omega) (by omega)⟩
    exact (hroom.inSpan_frame (by decide)).mpr (by omega)
  | _ => exact absurd ha (by simp [Instr.target])

/-! ## The next instruction -/

/-- All words of a frame but the last are what the fault left. -/
theorem frameWords_cases {e : Nat × Word} {esp : Word} (he : e ∈ frameWords t esp) :
    e = (48, esp) ∨ e.1 ≤ 44 ∧ ∀ esp', e ∈ frameWords t esp' := by
  simp only [frameWords, List.mem_cons, List.not_mem_nil, or_false] at he ⊢
  rcases he with rfl | rfl | rfl | rfl | rfl | rfl | rfl | rfl | rfl | rfl <;> simp

/-- A word of the frame. -/
theorem GoodAt.load (h : GoodAt upcall t c.regs c.mem i) {n : Nat} {w : Word}
    (he : (n, w) ∈ frameWords t (lastWord t i)) (hn : Active.popped i ≤ n) :
    Pgfault.load c.mem (utf t.esp + BitVec.ofNat 32 n) = w :=
  h.saved (n, w) he hn

theorem GoodAt.pushEsp (h : GoodAt upcall t c.regs c.mem .pushEsp) (hroom : Room t.esp)
    (hstore : ∀ x, InSpan (c.regs.esp - 4) 4 x → MayWrite x) :
    GoodAt upcall t (exec upcall handlerVar f .pushEsp c).regs
      (exec upcall handlerVar f .pushEsp c).mem .movHandler := by
  have hesp : c.regs.esp = utf t.esp := by simpa [espAt, Active.popped] using h.esp
  rw [hesp] at hstore
  obtain ⟨hlow, hsub⟩ := below_frame hroom (n := 4) (by decide) (hstore _ (inSpan_self (by decide)))
  refine ⟨rfl, congrArg (· - 4) hesp, fun _ => hlow, ?_, False.elim, trivial⟩
  refine h.saved.congr hroom fun x hx => store_of_not ?_
  have hx' := (hroom.inSpan (p := 0) (n := 52) (by decide)).mp hx
  rw [hesp]
  intro hin
  have hin' := (hroom.inSpan_below (p := 4) (n := 4) (by decide) (by decide)).mp hin
  omega

theorem GoodAt.movHandler (h : GoodAt upcall t c.regs c.mem .movHandler) :
    GoodAt upcall t (exec upcall handlerVar f .movHandler c).regs
      (exec upcall handlerVar f .movHandler c).mem .callEax :=
  ⟨rfl, h.esp, h.deep, h.saved, False.elim, trivial⟩

theorem GoodAt.callEax (h : GoodAt upcall t c.regs c.mem .callEax) (hroom : Room t.esp)
    (hstore : ∀ x, InSpan (c.regs.esp - 4) 4 x → MayWrite x) :
    GoodHandler upcall t (exec upcall handlerVar f .callEax c).regs
      (exec upcall handlerVar f .callEax c).mem := by
  have hesp : c.regs.esp - 4 = utf t.esp - 8 := by
    have hat : c.regs.esp = utf t.esp - 4 := h.esp
    rw [hat, BitVec.sub_sub]
    rfl
  rw [hesp] at hstore
  obtain ⟨hlow, hsub⟩ := below_frame hroom (n := 8) (by decide) (hstore _ (inSpan_self (by decide)))
  have hat : (exec upcall handlerVar f .callEax c).regs.esp = utf t.esp - 8 := hesp
  refine ⟨hat ▸ hlow, hat ▸ le_rfl, hlow, ?_, ?_⟩
  · refine h.saved.congr hroom fun x hx => store_of_not ?_
    have hx' := (hroom.inSpan (p := 0) (n := 52) (by decide)).mp hx
    rw [hesp]
    intro hin
    have hin' := (hroom.inSpan_below (p := 8) (n := 4) (by decide) (by decide)).mp hin
    omega
  · rw [← hesp]
    exact load_store

theorem GoodAt.popArg (h : GoodAt upcall t c.regs c.mem .popArg) :
    GoodAt upcall t (exec upcall handlerVar f .popArg c).regs
      (exec upcall handlerVar f .popArg c).mem .movUtfEsp := by
  refine ⟨rfl, ?_, False.elim, h.saved, False.elim, trivial⟩
  have hesp : c.regs.esp = utf t.esp - 4 := h.esp
  have hnext : (exec upcall handlerVar f .popArg c).regs.esp = c.regs.esp + 4 := rfl
  rw [hnext, hesp, BitVec.sub_add_cancel]
  simp [espAt, Active.popped]

theorem GoodAt.movUtfEsp (h : GoodAt upcall t c.regs c.mem .movUtfEsp) :
    GoodAt upcall t (exec upcall handlerVar f .movUtfEsp c).regs
      (exec upcall handlerVar f .movUtfEsp c).mem .movUtfEip := by
  refine ⟨rfl, h.esp, False.elim, h.saved, False.elim, ?_⟩
  have hesp : c.regs.esp = utf t.esp := by simpa [espAt, Active.popped] using h.esp
  have hload := h.load (n := 48) (w := t.esp) (by simp [frameWords, lastWord]) (by decide)
  rw [← hesp] at hload
  exact hload

theorem GoodAt.movUtfEip (h : GoodAt upcall t c.regs c.mem .movUtfEip) :
    GoodAt upcall t (exec upcall handlerVar f .movUtfEip c).regs
      (exec upcall handlerVar f .movUtfEip c).mem .subEax := by
  refine ⟨rfl, h.esp, False.elim, h.saved, False.elim, h.regs, ?_⟩
  have hesp : c.regs.esp = utf t.esp := by simpa [espAt, Active.popped] using h.esp
  have hload := h.load (n := 40) (w := t.eip) (by simp [frameWords, lastWord]) (by decide)
  rw [← hesp] at hload
  exact hload

theorem GoodAt.subEax (h : GoodAt upcall t c.regs c.mem .subEax) :
    GoodAt upcall t (exec upcall handlerVar f .subEax c).regs
      (exec upcall handlerVar f .subEax c).mem .pushEip :=
  ⟨rfl, h.esp, False.elim, h.saved, False.elim, congrArg (· - 4) h.regs.1, h.regs.2⟩

theorem GoodAt.pushEip (h : GoodAt upcall t c.regs c.mem .pushEip) (hroom : Room t.esp)
    (hstore : ∀ x, InSpan c.regs.gpr.eax 4 x → MayWrite x) :
    GoodAt upcall t (exec upcall handlerVar f .pushEip c).regs
      (exec upcall handlerVar f .pushEip c).mem .movEsp := by
  obtain ⟨heax, hebx⟩ := h.regs
  rw [heax] at hstore
  refine ⟨rfl, h.esp, False.elim, ?_, fun _ => ⟨?_, hstore⟩, heax⟩
  · refine h.saved.congr hroom fun x hx => store_of_not ?_
    rw [heax]
    intro hin
    refine wordBelow_not_frame hstore hroom hin ?_
    simpa [Active.popped] using hx
  · rw [← heax, ← hebx]
    exact load_store

theorem GoodAt.movEsp (h : GoodAt upcall t c.regs c.mem .movEsp) (hroom : Room t.esp) :
    GoodAt upcall t (exec upcall handlerVar f .movEsp c).regs
      (exec upcall handlerVar f .movEsp c).mem .addEsp8 := by
  have hesp : c.regs.esp = utf t.esp := by simpa [espAt, Active.popped] using h.esp
  have heax : c.regs.gpr.eax = t.esp - 4 := h.regs
  have hmem : (exec upcall handlerVar f .movEsp c).mem =
      store c.mem (utf t.esp + BitVec.ofNat 32 48) (t.esp - 4) := by
    rw [← hesp, ← heax]
    rfl
  have hret := h.pushed trivial
  refine ⟨rfl, h.esp, False.elim, ?_, fun _ => ?_, trivial⟩
  · intro e he hle
    rw [hmem]
    rcases frameWords_cases he with rfl | ⟨hlt, hold⟩
    · exact load_store
    · rw [load_store_of_ne, h.saved e (hold _) hle]
      intro x hx hin
      have hx' := (hroom.inSpan (by omega)).mp hx
      have hin' := (hroom.inSpan (by decide)).mp hin
      omega
  · rw [hmem]
    refine hret.congr fun x hx => store_of_not fun hin => ?_
    have hnot := wordBelow_not_frame hret.mayWrite hroom hx
    have hin' := (hroom.inSpan (by decide)).mp hin
    rw [hroom.inSpan_frame (by decide)] at hnot
    omega

theorem GoodAt.addEsp8 (h : GoodAt upcall t c.regs c.mem .addEsp8) :
    GoodAt upcall t (exec upcall handlerVar f .addEsp8 c).regs
      (exec upcall handlerVar f .addEsp8 c).mem .popal := by
  refine ⟨rfl, ?_, False.elim, h.saved.mono (by decide), h.pushed, trivial⟩
  have hesp : c.regs.esp = utf t.esp := by simpa [espAt, Active.popped] using h.esp
  exact congrArg (· + 8) hesp

theorem GoodAt.popal (h : GoodAt upcall t c.regs c.mem .popal) :
    GoodAt upcall t (exec upcall handlerVar f .popal c).regs
      (exec upcall handlerVar f .popal c).mem .addEsp4 := by
  have hesp : c.regs.esp = utf t.esp + 8 := h.esp
  have hword : ∀ n w, (8 + n, w) ∈ frameWords t (t.esp - 4) →
      Pgfault.load c.mem (c.regs.esp + BitVec.ofNat 32 n) = w := by
    intro n w he
    rw [← h.load he (by simp [Active.popped]), hesp, BitVec.ofNat_add, BitVec.add_assoc]
    rfl
  refine ⟨rfl, ?_, False.elim, h.saved.mono (by decide), h.pushed, ?_⟩
  · have hnext : (exec upcall handlerVar f .popal c).regs.esp = c.regs.esp + 32 := rfl
    rw [hnext, hesp, BitVec.add_assoc]
    rfl
  · have hedi : Pgfault.load c.mem c.regs.esp = t.gpr.edi := by
      simpa using hword 0 t.gpr.edi (by simp [frameWords])
    have hesi : Pgfault.load c.mem (c.regs.esp + 4) = t.gpr.esi := hword 4 _ (by simp [frameWords])
    have hebp : Pgfault.load c.mem (c.regs.esp + 8) = t.gpr.ebp := hword 8 _ (by simp [frameWords])
    have hebx : Pgfault.load c.mem (c.regs.esp + 16) = t.gpr.ebx := hword 16 _ (by simp [frameWords])
    have hedx : Pgfault.load c.mem (c.regs.esp + 20) = t.gpr.edx := hword 20 _ (by simp [frameWords])
    have hecx : Pgfault.load c.mem (c.regs.esp + 24) = t.gpr.ecx := hword 24 _ (by simp [frameWords])
    have heax : Pgfault.load c.mem (c.regs.esp + 28) = t.gpr.eax := hword 28 _ (by simp [frameWords])
    change Gpr.mk _ _ _ _ _ _ _ = t.gpr
    rw [hedi, hesi, hebp, hebx, hedx, hecx, heax]

theorem GoodAt.addEsp4 (h : GoodAt upcall t c.regs c.mem .addEsp4) :
    GoodAt upcall t (exec upcall handlerVar f .addEsp4 c).regs
      (exec upcall handlerVar f .addEsp4 c).mem .popfl := by
  refine ⟨rfl, ?_, False.elim, h.saved.mono (by decide), h.pushed, h.regs⟩
  have hesp : c.regs.esp = utf t.esp + 40 := h.esp
  have hnext : (exec upcall handlerVar f .addEsp4 c).regs.esp = c.regs.esp + 4 := rfl
  rw [hnext, hesp, BitVec.add_assoc]
  rfl

theorem GoodAt.popfl (h : GoodAt upcall t c.regs c.mem .popfl)
    (hflags : c.regs.eflags &&& ~~~popfMask = t.eflags &&& ~~~popfMask) :
    GoodAt upcall t (exec upcall handlerVar f .popfl c).regs
      (exec upcall handlerVar f .popfl c).mem .popEsp := by
  have hesp : c.regs.esp = utf t.esp + 44 := h.esp
  refine ⟨rfl, ?_, False.elim, h.saved.mono (by decide), h.pushed, h.regs, ?_⟩
  · have hnext : (exec upcall handlerVar f .popfl c).regs.esp = c.regs.esp + 4 := rfl
    rw [hnext, hesp, BitVec.add_assoc]
    rfl
  · have hload := h.load (n := 44) (w := t.eflags) (by simp [frameWords]) (by decide)
    have hword : Pgfault.load c.mem c.regs.esp = t.eflags := by
      rw [hesp]
      exact hload
    change Pgfault.load c.mem c.regs.esp &&& popfMask ||| c.regs.eflags &&& ~~~popfMask = _
    rw [hword]
    exact popf_flags hflags

theorem GoodAt.popEsp (h : GoodAt upcall t c.regs c.mem .popEsp) :
    GoodAt upcall t (exec upcall handlerVar f .popEsp c).regs
      (exec upcall handlerVar f .popEsp c).mem .ret := by
  refine ⟨rfl, ?_, False.elim, h.saved.mono (by decide), h.pushed, h.regs⟩
  have hesp : c.regs.esp = utf t.esp + 48 := h.esp
  have hload := h.load (n := 48) (w := t.esp - 4) (by simp [frameWords, lastWord]) (by decide)
  have hnext : (exec upcall handlerVar f .popEsp c).regs.esp = Pgfault.load c.mem c.regs.esp := rfl
  rw [hnext, hesp]
  exact hload

/-- The last instruction restores everything. -/
theorem GoodAt.ret (handlerVar f : Word) (h : GoodAt upcall t c.regs c.mem .ret) :
    (exec upcall handlerVar f .ret c).regs = t := by
  have hesp : c.regs.esp = t.esp - 4 := h.esp
  obtain ⟨hgpr, hflags⟩ := h.regs
  have hword := (h.pushed trivial).word
  rw [← hesp] at hword
  change (Regs.mk c.regs.gpr (Pgfault.load c.mem c.regs.esp) c.regs.eflags (c.regs.esp + 4)) = t
  rw [hword, hesp, hgpr, hflags, BitVec.sub_add_cancel]

end

end SisOp.Pgfault
