/-
# `SisOp.Pgfault.Nested` — every upcall returns to where its fault was

`Good` says how far the upcall of one fault is: which registers it has set, which words
of its frame it has still to read and that they are there.  `Nested` is the chain of
all unfinished upcalls, each `Good` for the registers at the fault after it.  What the
outer ones have still to read lies where an inner fault does not write (`Above`): on
the exception stack not below the stack pointer of the fault, or off that stack.
-/
import SisOp.Pgfault.Frames

namespace SisOp.Pgfault

open SisOp.Jos SisOp.Lib

/-! ## How far an upcall is -/

/-- The words of a frame that the upcall reads, by their offset; `esp` is the last one. -/
def frameWords (t : Regs) (esp : Word) : List (Nat × Word) :=
  [(8, t.gpr.edi), (12, t.gpr.esi), (16, t.gpr.ebp), (24, t.gpr.ebx), (28, t.gpr.edx),
    (32, t.gpr.ecx), (36, t.gpr.eax), (40, t.eip), (44, t.eflags), (48, esp)]

/-- Those from offset `p` on are in memory. -/
def Saved (mem : Word → Byte) (t : Regs) (esp : Word) (p : Nat) : Prop :=
  ∀ e ∈ frameWords t esp, p ≤ e.1 → load mem (utf t.esp + BitVec.ofNat 32 e.1) = e.2

/-- The last word of the frame: the trap-time `%esp`, until it is moved below the trap-time
`%eip`. -/
def lastWord (t : Regs) : Instr → Word
  | .addEsp8 | .popal | .addEsp4 | .popfl | .popEsp | .ret => t.esp - 4
  | _ => t.esp

/-- `%esp` before an instruction. -/
def espAt (t : Regs) : Instr → Word
  | .movHandler | .callEax | .popArg => utf t.esp - 4
  | .ret => t.esp - 4
  | i => utf t.esp + BitVec.ofNat 32 (Active.popped i)

/-- What is in the other registers. -/
def RegsAt (t r : Regs) : Instr → Prop
  | .movUtfEip => r.gpr.eax = t.esp
  | .subEax => r.gpr.eax = t.esp ∧ r.gpr.ebx = t.eip
  | .pushEip => r.gpr.eax = t.esp - 4 ∧ r.gpr.ebx = t.eip
  | .movEsp => r.gpr.eax = t.esp - 4
  | .addEsp4 | .popfl => r.gpr = t.gpr
  | .popEsp | .ret => r.gpr = t.gpr ∧ r.eflags = t.eflags
  | _ => True

/-- The argument of the handler is on the stack. -/
def Deep : Instr → Prop
  | .movHandler | .callEax | .popArg => True
  | _ => False

/-- The trap-time `%eip` is on the trap-time stack. -/
structure Returns (mem : Word → Byte) (t : Regs) : Prop where
  word : load mem (t.esp - 4) = t.eip
  mayWrite : ∀ x, InSpan (t.esp - 4) 4 x → MayWrite x

structure GoodAt (upcall : Word) (t r : Regs) (mem : Word → Byte) (i : Instr) : Prop where
  eip : r.eip = upcall + i.off
  esp : r.esp = espAt t i
  deep : Deep i → 4005556224 ≤ (utf t.esp - 4).toNat
  saved : Saved mem t (lastWord t i) (Active.popped i)
  pushed : Active.Pushed i → Returns mem t
  regs : RegsAt t r i

structure GoodHandler (upcall : Word) (t r : Regs) (mem : Word → Byte) : Prop where
  low : 4005556224 ≤ r.esp.toNat
  high : r.esp.toNat ≤ (utf t.esp - 8).toNat
  deep : 4005556224 ≤ (utf t.esp - 8).toNat
  saved : Saved mem t t.esp 0
  back : load mem (utf t.esp - 8) = upcall + Instr.popArg.off

/-- The upcall of `A` can go on from registers `r`. -/
structure Good (upcall : Word) (A : Active) (r : Regs) (mem : Word → Byte) : Prop where
  room : Room A.trap.esp
  eflags : r.eflags &&& ~~~popfMask = A.trap.eflags &&& ~~~popfMask
  pc : match A.pc with
    | .upcall i => GoodAt upcall A.trap r mem i
    | .handler => GoodHandler upcall A.trap r mem

/-- The unfinished upcalls, latest first, `r` being the registers now. -/
inductive Nested (upcall : Word) : Regs → (Word → Byte) → List Active → Prop
  | nil (r : Regs) (mem : Word → Byte) : Nested upcall r mem []
  | cons {A : Active} {r : Regs} {mem : Word → Byte} {st : List Active} :
      Good upcall A r mem → Nested upcall A.trap mem st →
        (∀ x, Needed st x → Above A.trap.esp x) → Nested upcall r mem (A :: st)

section

variable {upcall : Word} {A : Active} {t r : Regs} {mem mem' : Word → Byte} {st : List Active}
  {i : Instr} {x : Word}

/-- Only the words still to be read matter. -/
theorem Saved.congr {esp : Word} {p : Nat} (h : Saved mem t esp p) (hroom : Room t.esp)
    (heq : ∀ x, InSpan (utf t.esp + BitVec.ofNat 32 p) (52 - p) x → mem' x = mem x) :
    Saved mem' t esp p := by
  intro e he hp
  rw [← h e he hp]
  refine load_congr fun x hx => heq x ?_
  have hle : e.1 ≤ 48 := by
    have hall : ∀ e ∈ frameWords t esp, e.1 ≤ 48 := by simp [frameWords]
    exact hall e he
  rw [hroom.inSpan (by omega)] at hx ⊢
  omega

theorem Saved.mono {esp : Word} {p p' : Nat} (h : Saved mem t esp p) (hp : p ≤ p') :
    Saved mem t esp p' :=
  fun e he hle => h e he (hp.trans hle)

theorem Returns.congr (h : Returns mem t) (heq : ∀ x, InSpan (t.esp - 4) 4 x → mem' x = mem x) :
    Returns mem' t :=
  ⟨(load_congr heq).trans h.word, h.mayWrite⟩

theorem Good.congr (h : Good upcall A r mem) (heq : ∀ x, A.Needs x → mem' x = mem x) :
    Good upcall A r mem' := by
  obtain ⟨trap, pc⟩ := A
  refine ⟨h.room, h.eflags, ?_⟩
  have hpc := h.pc
  cases pc with
  | handler =>
    refine ⟨hpc.low, hpc.high, hpc.deep, hpc.saved.congr h.room ?_, ?_⟩
    · intro x hx
      exact heq x (Or.inr (by simpa [Active.utf] using hx))
    · exact (load_congr fun x hx => heq x (Or.inl hx)).trans hpc.back
  | upcall i =>
    refine ⟨hpc.eip, hpc.esp, hpc.deep, hpc.saved.congr h.room ?_, ?_, hpc.regs⟩
    · exact fun x hx => heq x (Or.inl hx)
    · exact fun hp => (hpc.pushed hp).congr fun x hx => heq x (Or.inr ⟨hp, hx⟩)

/-- What outer upcalls need is theirs to keep. -/
theorem Nested.congr (h : Nested upcall r mem st) (heq : ∀ x, Needed st x → mem' x = mem x) :
    Nested upcall r mem' st := by
  induction h with
  | nil r mem => exact .nil r mem'
  | @cons A r mem st hgood _ habove ih =>
    refine .cons (hgood.congr fun x hx => heq x ⟨A, List.mem_cons_self, hx⟩)
      (ih fun x ⟨B, hB, hx⟩ => heq x ⟨B, List.mem_cons_of_mem A hB, hx⟩) habove

/-! ## The stack pointer of an upcall -/

theorem popped_le (i : Instr) : Active.popped i ≤ 52 := by
  cases i <;> decide

/-- Before `ret` the stack pointer is on the exception stack, at what is left of the frame or
below the frame. -/
theorem espAt_bounds (hroom : Room t.esp) (hi : i ≠ .ret)
    (hdeep : Deep i → 4005556224 ≤ (utf t.esp - 4).toNat) :
    4005556224 ≤ (espAt t i).toNat ∧
      (espAt t i).toNat ≤ (utf t.esp).toNat + Active.popped i ∧ Active.popped i ≤ 48 := by
  have hb := hroom.bounds
  have hbelow : (utf t.esp - 4).toNat = (utf t.esp).toNat - 4 := by
    rw [BitVec.toNat_sub, show BitVec.toNat (4 : Word) = 4 from rfl]
    omega
  have hadd : ∀ p : Nat, p ≤ 48 →
      (utf t.esp + BitVec.ofNat 32 p).toNat = (utf t.esp).toNat + p := by
    intro p hp
    rw [BitVec.toNat_add, BitVec.toNat_ofNat]
    omega
  by_cases hd : Deep i
  · have hlow := hdeep hd
    have hesp : espAt t i = utf t.esp - 4 := by
      cases i <;> first | rfl | exact hd.elim
    have hpop : Active.popped i = 0 := by
      cases i <;> first | rfl | exact hd.elim
    rw [hesp, hpop]
    omega
  · have hesp : espAt t i = utf t.esp + BitVec.ofNat 32 (Active.popped i) := by
      cases i <;> first | rfl | exact absurd trivial hd | exact absurd rfl hi
    have hpop : Active.popped i ≤ 48 := by
      cases i <;> first | decide | exact absurd rfl hi
    rw [hesp, hadd _ hpop]
    omega

theorem sub_four (hroom : Room t.esp) (h : ∀ x, InSpan (t.esp - 4) 4 x → MayWrite x) :
    (t.esp - 4).toNat = t.esp.toNat - 4 := by
  obtain ⟨h4, -, -⟩ := wordBelow h
  have hlt := t.esp.isLt
  have hb := hroom.bounds
  rw [BitVec.toNat_sub, show BitVec.toNat (4 : Word) = 4 from rfl]
  omega

/-- What lies above the trap-time stack pointer lies above the one now. -/
theorem Good.above (h : Good upcall A r mem) (hx : Above A.trap.esp x) : Above r.esp x := by
  obtain ⟨t, pc⟩ := A
  have hroom : Room t.esp := h.room
  have hb := hroom.bounds
  have hx' : Above t.esp x := hx
  rw [above_iff] at hx' ⊢
  cases pc with
  | handler =>
    have hpc : GoodHandler upcall t r mem := h.pc
    have hlow := hpc.low
    have hhigh := hpc.high
    have hsub : (utf t.esp - 8).toNat ≤ (utf t.esp).toNat := by
      rw [BitVec.toNat_sub, show BitVec.toNat (8 : Word) = 8 from rfl]
      omega
    omega
  | upcall i =>
    have hpc : GoodAt upcall t r mem i := h.pc
    by_cases hi : i = .ret
    · subst hi
      have hret := (hpc.pushed trivial).mayWrite
      obtain ⟨h4, htop, -⟩ := wordBelow hret
      rw [hpc.esp, show espAt t .ret = t.esp - 4 from rfl, sub_four hroom hret]
      omega
    · obtain ⟨hlow, hhigh, hpop⟩ := espAt_bounds hroom hi hpc.deep
      rw [← hpc.esp] at hlow hhigh
      omega

/-- What the upcall itself has still to read lies above its stack pointer. -/
theorem Good.needs_above (h : Good upcall A r mem) (hx : A.Needs x) : Above r.esp x := by
  obtain ⟨t, pc⟩ := A
  have hroom : Room t.esp := h.room
  have hb := hroom.bounds
  rw [above_iff]
  cases pc with
  | handler =>
    have hpc : GoodHandler upcall t r mem := h.pc
    have hlow := hpc.low
    have hhigh := hpc.high
    have hsub : (utf t.esp - 8).toNat = (utf t.esp).toNat - 8 := by
      rw [BitVec.toNat_sub, show BitVec.toNat (8 : Word) = 8 from rfl]
      omega
    have hge : (utf t.esp - 8).toNat ≤ x.toNat := by
      rcases hx with hx | hx
      · have hdeep := hpc.deep
        have hx' : InSpan (utf t.esp - BitVec.ofNat 32 8) 4 x := hx
        rw [hroom.inSpan_below (by decide) (by decide)] at hx'
        omega
      · have hx' : InSpan (utf t.esp) 52 x := hx
        rw [hroom.inSpan_frame (by decide)] at hx'
        omega
    omega
  | upcall i =>
    have hpc : GoodAt upcall t r mem i := h.pc
    rcases hx with hx | ⟨hp, hx⟩
    · have hx' : InSpan (utf t.esp + BitVec.ofNat 32 (Active.popped i)) (52 - Active.popped i) x := hx
      have hle := popped_le i
      rw [hroom.inSpan (by omega)] at hx'
      have hi : i ≠ .ret := by
        rintro rfl
        simp only [Active.popped] at hx'
        omega
      obtain ⟨hlow, hhigh, hpop⟩ := espAt_bounds hroom hi hpc.deep
      rw [← hpc.esp] at hlow hhigh
      omega
    · have hret := (hpc.pushed hp).mayWrite
      obtain ⟨h4, htop, hspan⟩ := wordBelow hret
      have hx' : t.esp.toNat - 4 ≤ x.toNat ∧ x.toNat < t.esp.toNat := (hspan x).mp hx
      by_cases hi : i = .ret
      · subst hi
        rw [hpc.esp, show espAt t .ret = t.esp - 4 from rfl, sub_four hroom hret]
        omega
      · obtain ⟨hlow, hhigh, hpop⟩ := espAt_bounds hroom hi hpc.deep
        rw [← hpc.esp] at hlow hhigh
        omega

/-- A fault now leaves alone whatever some upcall has still to read. -/
theorem Nested.above (h : Nested upcall r mem st) (hx : Needed st x) : Above r.esp x := by
  cases h with
  | nil =>
    obtain ⟨A, hA, -⟩ := hx
    exact absurd hA List.not_mem_nil
  | cons hgood _ habove =>
    obtain ⟨B, hB, hneeds⟩ := hx
    rcases List.mem_cons.mp hB with rfl | hB
    · exact hgood.needs_above hneeds
    · exact hgood.above (habove x ⟨B, hB, hneeds⟩)

end

end SisOp.Pgfault
