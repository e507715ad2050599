/-
# `SisOp.Pgfault.Resume` — runs of nested faults

`Nested` holds in every configuration a program reaches from outside any upcall
(`nested_step`), so that when the last instruction of an upcall is executed the registers
are those at its fault, however many faults came in between (`Inner.resumes`).
-/
import SisOp.Lib.Run
import SisOp.Pgfault.Instrs

namespace SisOp.Pgfault

open SisOp.Jos SisOp.Lib

section

variable {upcall handlerVar f : Word} {t : Regs} {c c' : Cpu} {st st' : List Active} {e : Event}
  {i : Instr} {x : Word}

/-! ## A fault -/

theorem utrapframe_length (faultVa : Word) (tf : Trapframe) :
    ((utrapframe faultVa tf).flatMap wordBytes).length = 52 := rfl

/-- What a fault writes. -/
theorem pageFault_mem_ne {faultVa err oesp : Word}
    (h : (pageFault upcall faultVa err oesp c).mem x ≠ c.mem x) : InSpan (utf c.regs.esp) 52 x := by
  have hspan := writeAt_ne h
  rw [utrapframe_length] at hspan
  exact hspan

theorem Good.fault (faultVa err oesp : Word) (hroom : Room c.regs.esp) :
    Good upcall ⟨c.regs, .upcall .pushEsp⟩ (pageFault upcall faultVa err oesp c).regs
      (pageFault upcall faultVa err oesp c).mem := by
  refine ⟨hroom, rfl, ?_, ?_, False.elim, ?_, False.elim, trivial⟩
  · simp [pageFault, Instr.off]
  · simp [pageFault, espAt, Active.popped]
  · have hword : ∀ k w, (utrapframe faultVa (c.regs.trapframe err oesp))[k]? = some w →
        load (pageFault upcall faultVa err oesp c).mem
          (utf c.regs.esp + BitVec.ofNat 32 (4 * k)) = w := by
      intro k w hk
      obtain ⟨hlt, rfl⟩ := List.getElem?_eq_some_iff.mp hk
      exact load_writeAt hlt (show 4 * 13 ≤ 2 ^ 31 by decide)
    intro e he _
    simp only [frameWords, lastWord, List.mem_cons, List.not_mem_nil, or_false] at he
    rcases he with rfl | rfl | rfl | rfl | rfl | rfl | rfl | rfl | rfl | rfl
    · exact hword 2 _ rfl
    · exact hword 3 _ rfl
    · exact hword 4 _ rfl
    · exact hword 6 _ rfl
    · exact hword 7 _ rfl
    · exact hword 8 _ rfl
    · exact hword 9 _ rfl
    · exact hword 10 _ rfl
    · exact hword 11 _ rfl
    · exact hword 12 _ rfl

/-- The new frame spares whatever some upcall has still to read. -/
theorem Nested.fault_needed {faultVa err oesp : Word} (h : Nested upcall c.regs c.mem st)
    (hroom : Room c.regs.esp) (hx : Needed st x) :
    (pageFault upcall faultVa err oesp c).mem x = c.mem x := by
  by_contra hne
  have hin := (hroom.inSpan_frame (by decide)).mp (pageFault_mem_ne hne)
  have hb := hroom.bounds
  exact hroom.not_above (by omega) (by omega) (h.above hx)

theorem Nested.fault (faultVa err oesp : Word) (h : Nested upcall c.regs c.mem st)
    (hroom : Room c.regs.esp) :
    Nested upcall (pageFault upcall faultVa err oesp c).regs
      (pageFault upcall faultVa err oesp c).mem (⟨c.regs, .upcall .pushEsp⟩ :: st) :=
  .cons (Good.fault faultVa err oesp hroom) (h.congr fun _ => h.fault_needed hroom) fun _ => h.above

/-! ## An instruction -/

/-- The instructions keep an upcall going. -/
theorem Good.exec (handlerVar f : Word) (st : List Active) (h : Good upcall ⟨t, .upcall i⟩ c.regs c.mem) (hi : i ≠ .ret)
    (hstore : ∀ a, i.target c.regs = some a → ∀ x, InSpan a 4 x → MayWrite x) :
    ∃ pc, i.next t st = ⟨t, pc⟩ :: st ∧
      Good upcall ⟨t, pc⟩ (exec upcall handlerVar f i c).regs (exec upcall handlerVar f i c).mem := by
  have hroom : Room t.esp := h.room
  have hat : GoodAt upcall t c.regs c.mem i := h.pc
  have hflags : (Pgfault.exec upcall handlerVar f i c).regs.eflags &&& ~~~popfMask =
      t.eflags &&& ~~~popfMask := exec_eflags.trans h.eflags
  cases i with
  | pushEsp => exact ⟨_, rfl, hroom, hflags, hat.pushEsp hroom (hstore _ rfl)⟩
  | movHandler => exact ⟨_, rfl, hroom, hflags, hat.movHandler⟩
  | callEax => exact ⟨_, rfl, hroom, hflags, hat.callEax hroom (hstore _ rfl)⟩
  | popArg => exact ⟨_, rfl, hroom, hflags, hat.popArg⟩
  | movUtfEsp => exact ⟨_, rfl, hroom, hflags, hat.movUtfEsp⟩
  | movUtfEip => exact ⟨_, rfl, hroom, hflags, hat.movUtfEip⟩
  | subEax => exact ⟨_, rfl, hroom, hflags, hat.subEax⟩
  | pushEip => exact ⟨_, rfl, hroom, hflags, hat.pushEip hroom (hstore _ rfl)⟩
  | movEsp => exact ⟨_, rfl, hroom, hflags, hat.movEsp hroom⟩
  | addEsp8 => exact ⟨_, rfl, hroom, hflags, hat.addEsp8⟩
  | popal => exact ⟨_, rfl, hroom, hflags, hat.popal⟩
  | addEsp4 => exact ⟨_, rfl, hroom, hflags, hat.addEsp4⟩
  | popfl => exact ⟨_, rfl, hroom, hflags, hat.popfl h.eflags⟩
  | popEsp => exact ⟨_, rfl, hroom, hflags, hat.popEsp⟩
  | ret => exact absurd rfl hi

/-- What an instruction of the upcall writes. -/
theorem Nested.exec_ne (h : Nested upcall c.regs c.mem (⟨t, .upcall i⟩ :: st))
    (hstore : ∀ a, i.target c.regs = some a → ∀ x, InSpan a 4 x → MayWrite x)
    (hne : (exec upcall handlerVar f i c).mem x ≠ c.mem x) : Target t x ∧ ¬ Needed st x := by
  cases h with
  | cons hgood _ habove =>
    obtain ⟨a, ha, hx⟩ := exec_mem_ne hne
    have hat : GoodAt upcall t c.regs c.mem i := hgood.pc
    obtain ⟨htarget, hnot⟩ := hat.target hgood.room hstore ha hx
    exact ⟨htarget, fun hn => hnot (habove x hn)⟩

theorem Nested.exec (h : Nested upcall c.regs c.mem (⟨t, .upcall i⟩ :: st))
    (hstore : ∀ a, i.target c.regs = some a → ∀ x, InSpan a 4 x → MayWrite x) :
    Nested upcall (exec upcall handlerVar f i c).regs (exec upcall handlerVar f i c).mem
      (i.next t st) := by
  have hspare : ∀ x, Needed st x → (Pgfault.exec upcall handlerVar f i c).mem x = c.mem x := by
    intro x hx
    by_contra hne
    exact (h.exec_ne hstore hne).2 hx
  cases h with
  | cons hgood hrest habove =>
    have houter := hrest.congr hspare
    by_cases hi : i = .ret
    · subst hi
      have hat : GoodAt upcall t c.regs c.mem .ret := hgood.pc
      rw [hat.ret handlerVar f]
      exact houter
    · obtain ⟨pc, hnext, hgood'⟩ := hgood.exec handlerVar f st hi hstore
      rw [hnext]
      exact .cons hgood' houter habove

/-! ## Every step -/

theorem nested_step (h : Step upcall handlerVar (c, st) e (c', st'))
    (hn : Nested upcall c.regs c.mem st) : Nested upcall c'.regs c'.mem st' := by
  cases h with
  | user => exact .nil _ _
  | fault hassert => exact hn.fault _ _ _ hassert
  | exec _ hstore => exact hn.exec hstore
  | @handler _ _ t st hmem hflags hesp =>
    cases hn with
    | cons hgood hrest habove =>
      have hkeep := hgood.congr fun x hx => hmem x ⟨_, List.mem_cons_self, hx⟩
      have hpc : GoodHandler upcall t c.regs c'.mem := hkeep.pc
      refine .cons ⟨hkeep.room, hflags.trans hkeep.eflags, ?_⟩
        (hrest.congr fun x ⟨B, hB, hx⟩ => hmem x ⟨B, List.mem_cons_of_mem _ hB, hx⟩) habove
      exact ⟨hesp.1, hesp.2, hpc.deep, hpc.saved, hpc.back⟩
  | @ret _ t st hesp =>
    cases hn with
    | cons hgood hrest habove =>
      have hpc : GoodHandler upcall t c.regs c.mem := hgood.pc
      refine .cons ⟨hgood.room, hgood.eflags, ?_⟩ hrest habove
      refine ⟨?_, ?_, fun _ => ?_, hpc.saved, False.elim, trivial⟩
      · change load c.mem c.regs.esp = _
        rw [hesp]
        exact hpc.back
      · change c.regs.esp + 4 = utf t.esp - 4
        rw [hesp]
        bv_omega
      · have hroom : Room t.esp := hgood.room
        have hb := hroom.bounds
        have hdeep := hpc.deep
        change 4005556224 ≤ (utf t.esp - 4).toNat
        rw [BitVec.toNat_sub] at hdeep ⊢
        have h4 : BitVec.toNat (4 : Word) = 4 := rfl
        have h8 : BitVec.toNat (8 : Word) = 8 := rfl
        omega

/-- What a step does to the list of unfinished upcalls. -/
theorem step_stack (h : Step upcall handlerVar (c, st) e (c', st')) :
    (st = [] ∧ st' = []) ∨ (∃ pc, st' = ⟨c.regs, pc⟩ :: st) ∨
      (∃ t pc pc' outer, st = ⟨t, pc⟩ :: outer ∧ st' = ⟨t, pc'⟩ :: outer) ∨
      ∃ t f, st = ⟨t, .upcall .ret⟩ :: st' ∧ c' = exec upcall handlerVar f .ret c := by
  cases h with
  | user => exact Or.inl ⟨rfl, rfl⟩
  | fault => exact Or.inr (Or.inl ⟨_, rfl⟩)
  | @exec _ t st i f =>
    refine Or.inr (Or.inr ?_)
    cases i with
    | ret => exact Or.inr ⟨t, f, rfl, rfl⟩
    | _ => exact Or.inl ⟨t, _, _, st, rfl, rfl⟩
  | handler => exact Or.inr (Or.inr (Or.inl ⟨_, _, _, _, rfl, rfl⟩))
  | ret => exact Or.inr (Or.inr (Or.inl ⟨_, _, _, _, rfl, rfl⟩))

/-! ## The run of an upcall -/

/-- Steps with more than `n` unfinished upcalls. -/
def Inner (upcall handlerVar : Word) (n : Nat) :
    Cpu × List Active → Event → Cpu × List Active → Prop :=
  Guarded (fun s _ => n < s.2.length) (Step upcall handlerVar)

/-- The upcall of the fault at `t` is unfinished, or has just returned. -/
def Since (t : Regs) (outer : List Active) (s : Cpu × List Active) : Prop :=
  (∃ pre pc, s.2 = pre ++ ⟨t, pc⟩ :: outer) ∨ s.2 = outer ∧ s.1.regs = t

theorem since_step {outer : List Active} (hn : Nested upcall c.regs c.mem st)
    (h : Inner upcall handlerVar outer.length (c, st) e (c', st')) (hs : Since t outer (c, st)) :
    Since t outer (c', st') := by
  obtain ⟨hlen, hstep⟩ := h
  rcases hs with ⟨pre, pc, hst⟩ | ⟨hst, -⟩
  · obtain rfl : st = pre ++ ⟨t, pc⟩ :: outer := hst
    rcases step_stack hstep with ⟨hnil, -⟩ | ⟨pc', rfl⟩ | ⟨t', p, p', o, hst, rfl⟩ | ⟨t', f, hst, rfl⟩
    · exact absurd hnil (by simp)
    · exact Or.inl ⟨⟨c.regs, pc'⟩ :: pre, pc, rfl⟩
    · cases pre with
      | nil =>
        obtain ⟨hA, rfl⟩ := List.cons.inj hst
        obtain rfl : t = t' := congrArg Active.trap hA
        exact Or.inl ⟨[], p', rfl⟩
      | cons A pre =>
        obtain ⟨-, rfl⟩ := List.cons.inj hst
        exact Or.inl ⟨⟨t', p'⟩ :: pre, pc, rfl⟩
    · cases pre with
      | nil =>
        obtain ⟨hA, rfl⟩ := List.cons.inj hst
        obtain rfl : t = t' := congrArg Active.trap hA
        obtain rfl : pc = .upcall .ret := congrArg Active.pc hA
        cases hn with
        | cons hgood _ _ =>
          have hat : GoodAt upcall t c.regs c.mem .ret := hgood.pc
          exact Or.inr ⟨rfl, hat.ret handlerVar f⟩
      | cons A pre =>
        obtain ⟨-, rfl⟩ := List.cons.inj hst
        exact Or.inl ⟨pre, pc, rfl⟩
  · obtain rfl : st = outer := hst
    exact absurd hlen (Nat.lt_irrefl _)

/-- When no more upcalls are unfinished than before the fault, the registers are those at the
fault. -/
theorem inner_resumes {pc : Pc} {outer : List Active} {tr : List Event}
    (hn : Nested upcall c.regs c.mem (⟨t, pc⟩ :: outer))
    (hrun : Run (Inner upcall handlerVar outer.length) (c, ⟨t, pc⟩ :: outer) tr (c', st'))
    (hlen : st'.length ≤ outer.length) : st' = outer ∧ c'.regs = t := by
  have hinv := hrun.preserves
    (I := fun s => Nested upcall s.1.regs s.1.mem s.2 ∧ Since t outer s)
    (fun s a s' hI hs => ⟨nested_step hs.2 hI.1, since_step hI.1 hs hI.2⟩)
    ⟨hn, Or.inl ⟨[], pc, rfl⟩⟩
  rcases hinv.2 with ⟨pre, pc', hst⟩ | hdone
  · obtain rfl : st' = pre ++ ⟨t, pc'⟩ :: outer := hst
    rw [List.length_append, List.length_cons] at hlen
    omega
  · exact hdone

/-! ## After the handler -/

/-- The rest of the upcall from `i` on, `n` instructions, if no fault comes in between. -/
def Resumes (upcall handlerVar : Word) (t : Regs) (outer : List Active) (n : Nat) (i : Instr) :
    Prop :=
  ∀ c, Nested upcall c.regs c.mem (⟨t, .upcall i⟩ :: outer) → ∀ fs : List Word, fs.length = n →
    ∃ c', Run (Step upcall handlerVar) (c, ⟨t, .upcall i⟩ :: outer) (fs.map .exec) (c', outer) ∧
      c'.regs = t ∧ ∀ x, c'.mem x ≠ c.mem x → Target t x ∧ ¬ Needed outer x

variable {outer : List Active} {n : Nat} {i' : Instr}

theorem resumes_ret : Resumes upcall handlerVar t outer 1 .ret := by
  intro c hn fs hfs
  obtain ⟨f, rfl⟩ := List.length_eq_one_iff.mp hfs
  cases hn with
  | cons hgood _ _ =>
    have hat : GoodAt upcall t c.regs c.mem .ret := hgood.pc
    have hstore : ∀ a, Instr.ret.target c.regs = some a → ∀ x, InSpan a 4 x → MayWrite x :=
      fun a ha => absurd ha (by simp [Instr.target])
    exact ⟨_, .single (.exec hat.eip hstore), hat.ret handlerVar f, fun x hne => absurd rfl hne⟩

/-- After the handler the upcall stores in its frame and in the word below the trap-time stack
pointer. -/
theorem Good.mayWrite (h : Good upcall ⟨t, .upcall i⟩ c.regs c.mem)
    (hword : ∀ x, InSpan (t.esp - 4) 4 x → MayWrite x) (hpush : i ≠ .pushEsp) (hcall : i ≠ .callEax)
    {a : Word} (ha : i.target c.regs = some a) (hx : InSpan a 4 x) : MayWrite x := by
  have hroom : Room t.esp := h.room
  have hat : GoodAt upcall t c.regs c.mem i := h.pc
  cases i with
  | pushEsp => exact absurd rfl hpush
  | callEax => exact absurd rfl hcall
  | pushEip =>
    obtain rfl : t.esp - 4 = a := hat.regs.1.symm.trans (Option.some.inj ha)
    exact hword x hx
  | movEsp =>
    obtain rfl : utf t.esp + BitVec.ofNat 32 48 = a := by
      rw [← Option.some.inj ha, hat.esp]
      simp [espAt, Active.popped]
    have hx' := (hroom.inSpan (by decide)).mp hx
    exact hroom x ((hroom.inSpan_frame (by decide)).mpr (by omega))
  | _ => exact absurd ha (by simp [Instr.target])

theorem Resumes.back (h : Resumes upcall handlerVar t outer n i')
    (hword : ∀ x, InSpan (t.esp - 4) 4 x → MayWrite x) (hpush : i ≠ .pushEsp) (hcall : i ≠ .callEax)
    (hnext : i.next t outer = ⟨t, .upcall i'⟩ :: outer) :
    Resumes upcall handlerVar t outer (n + 1) i := by
  intro c hn fs hfs
  obtain ⟨f, fs, rfl⟩ : ∃ f fs', fs = f :: fs' := by
    cases fs with
    | nil => exact absurd hfs.symm (Nat.succ_ne_zero n)
    | cons f fs => exact ⟨f, fs, rfl⟩
  have hstep : Step upcall handlerVar (c, ⟨t, .upcall i⟩ :: outer) (.exec f)
      (exec upcall handlerVar f i c, i.next t outer) ∧
      ∀ x, (exec upcall handlerVar f i c).mem x ≠ c.mem x → Target t x ∧ ¬ Needed outer x := by
    cases hn with
    | cons hgood hrest habove =>
      have hat : GoodAt upcall t c.regs c.mem i := hgood.pc
      have hstore : ∀ a, i.target c.regs = some a → ∀ x, InSpan a 4 x → MayWrite x :=
        fun a ha x => hgood.mayWrite hword hpush hcall ha
      exact ⟨.exec hat.eip hstore, fun x => (Nested.cons hgood hrest habove).exec_ne hstore⟩
  have hn' := nested_step hstep.1 hn
  rw [hnext] at hstep hn'
  obtain ⟨c', hrun, hregs, hmem⟩ := h _ hn' fs (Nat.succ.inj hfs)
  refine ⟨c', .cons hstep.1 hrun, hregs, fun x hne => ?_⟩
  by_cases hx : (exec upcall handlerVar f i c).mem x = c.mem x
  · exact hmem x (by rwa [hx])
  · exact hstep.2 x hx

/-- From the return of the handler on, twelve instructions. -/
theorem resumes_popArg (hword : ∀ x, InSpan (t.esp - 4) 4 x → MayWrite x) :
    Resumes upcall handlerVar t outer 12 .popArg := by
  have hpopEsp : Resumes upcall handlerVar t outer 2 .popEsp :=
    resumes_ret.back hword (by decide) (by decide) rfl
  have hpopfl := hpopEsp.back (i := .popfl) hword (by decide) (by decide) rfl
  have haddEsp4 := hpopfl.back (i := .addEsp4) hword (by decide) (by decide) rfl
  have hpopal := haddEsp4.back (i := .popal) hword (by decide) (by decide) rfl
  have haddEsp8 := hpopal.back (i := .addEsp8) hword (by decide) (by decide) rfl
  have hmovEsp := haddEsp8.back (i := .movEsp) hword (by decide) (by decide) rfl
  have hpushEip := hmovEsp.back (i := .pushEip) hword (by decide) (by decide) rfl
  have hsubEax := hpushEip.back (i := .subEax) hword (by decide) (by decide) rfl
  have hmovUtfEip := hsubEax.back (i := .movUtfEip) hword (by decide) (by decide) rfl
  have hmovUtfEsp := hmovUtfEip.back (i := .movUtfEsp) hword (by decide) (by decide) rfl
  exact hmovUtfEsp.back (i := .popArg) hword (by decide) (by decide) rfl

/-! ## Runs of a program -/

theorem nested_run {c₀ : Cpu} {tr : List Event}
    (hrun : Run (Step upcall handlerVar) (c₀, []) tr (c, st)) : Nested upcall c.regs c.mem st :=
  hrun.preserves (I := fun s => Nested upcall s.1.regs s.1.mem s.2)
    (fun _ _ _ hI hs => nested_step hs hI) (.nil _ _)

/-- In every run of a program with its page faults, nested as they may be: when the upcall of a
fault is over, the registers are those at the fault; if the word below the trap-time stack
pointer can be written, the upcall is over twelve instructions after the handler has returned; a
fault writes its frame, an instruction of the upcall its frame, the two words below it and the
word below the trap-time stack pointer, and neither writes what another unfinished upcall has
still to read. -/
theorem upcall_resumes {c₀ : Cpu} {tr : List Event}
    (hrun : Run (Step upcall handlerVar) (c₀, []) tr (c, st)) :
    (∀ faultVa err oesp tr' c' st', Room c.regs.esp →
      Run (Inner upcall handlerVar st.length)
        (pageFault upcall faultVa err oesp c, ⟨c.regs, .upcall .pushEsp⟩ :: st) tr' (c', st') →
      st'.length ≤ st.length → st' = st ∧ c'.regs = c.regs) ∧
    (∀ t outer, st = ⟨t, .upcall .popArg⟩ :: outer →
      (∀ x, InSpan (t.esp - 4) 4 x → MayWrite x) → ∀ fs : List Word, fs.length = 12 →
      ∃ c', Run (Step upcall handlerVar) (c, st) (fs.map .exec) (c', outer) ∧ c'.regs = t ∧
        ∀ x, c'.mem x ≠ c.mem x → Target t x ∧ ¬ Needed outer x) ∧
    (∀ faultVa err oesp c' st', Step upcall handlerVar (c, st) (.fault faultVa err oesp) (c', st') →
      ∀ x, c'.mem x ≠ c.mem x → InSpan (utf c.regs.esp) 52 x ∧ ¬ Needed st x) ∧
    ∀ f c' st', Step upcall handlerVar (c, st) (.exec f) (c', st') →
      ∃ t pc outer, st = ⟨t, pc⟩ :: outer ∧
        ∀ x, c'.mem x ≠ c.mem x → Target t x ∧ ¬ Needed outer x := by
  have hn := nested_run hrun
  refine ⟨?_, ?_, ?_, ?_⟩
  · intro faultVa err oesp tr' c' st' hroom hrun' hlen
    exact inner_resumes (hn.fault faultVa err oesp hroom) hrun' hlen
  · rintro t outer rfl hword fs hfs
    exact resumes_popArg hword c hn fs hfs
  · intro faultVa err oesp c' st' hstep x hne
    cases hstep with
    | fault hassert =>
      exact ⟨pageFault_mem_ne hne, fun hx => hne (hn.fault_needed hassert hx)⟩
  · intro f c' st' hstep
    cases hstep with
    | exec _ hstore => exact ⟨_, _, _, rfl, fun x => hn.exec_ne hstore⟩

end

/-! ## A fault on the user stack -/

/-- A program with its stack pointer on the user stack. -/
def program : Cpu :=
  ⟨⟨⟨1, 2, 3, 4, 5, 6, 7⟩, 0x800100, 0x202, 0xeebfdf00⟩, fun _ => 0⟩

/-- The addresses of `_pgfault_upcall` and `_pgfault_handler` in it. -/
def UPCALL : Word := 0x800200
def HANDLER_VAR : Word := 0x802000

/-- After the first instructions of the upcall. -/
def afterFault : List Instr → Cpu
  | [] => pageFault UPCALL 0 0 0 program
  | i :: is => exec UPCALL HANDLER_VAR 0 i (afterFault is)

/-- After the handler has returned. -/
def afterHandler : List Instr → Cpu
  | [] =>
      let c := afterFault [.callEax, .movHandler, .pushEsp]
      { c with regs := { c.regs with eip := load c.mem c.regs.esp, esp := c.regs.esp + 4 } }
  | i :: is => exec UPCALL HANDLER_VAR 0 i (afterHandler is)

theorem program_fault : Run (Step UPCALL HANDLER_VAR) (program, []) [.fault 0 0 0]
    (afterFault [], [⟨program.regs, .upcall .pushEsp⟩]) :=
  .single (.fault fun _ => mayWrite_span (Or.inr (by decide)))

theorem program_handled : Run (Step UPCALL HANDLER_VAR) (program, [])
    [.fault 0 0 0, .exec 0, .exec 0, .exec 0, .ret]
    (afterHandler [], [⟨program.regs, .upcall .popArg⟩]) := by
  have hcall : Run (Step UPCALL HANDLER_VAR) (afterFault [], [⟨program.regs, .upcall .pushEsp⟩])
      [.exec 0, .exec 0, .exec 0]
      (afterFault [.callEax, .movHandler, .pushEsp], [⟨program.regs, .handler⟩]) := by
    refine .cons (.exec (by decide) ?_) (.cons (.exec rfl ?_) (.single (.exec rfl ?_)))
    · rintro a ⟨⟩ x
      exact mayWrite_span (Or.inr (by decide))
    · rintro a ⟨⟩
    · rintro a ⟨⟩ x
      exact mayWrite_span (Or.inr (by decide))
  exact program_fault.append (hcall.snoc (.ret (by decide)))

/-- Once its handler has returned, the fault is over twelve instructions later. -/
theorem upcall_resumes_program : ∃ c', Run (Step UPCALL HANDLER_VAR)
    (afterHandler [], [⟨program.regs, .upcall .popArg⟩]) (List.replicate 12 (.exec 0)) (c', []) ∧
    c'.regs = program.regs := by
  obtain ⟨c', hrun, hregs, -⟩ := (upcall_resumes program_handled).2.1 program.regs [] rfl
    (fun _ => mayWrite_span (Or.inl (by decide))) (List.replicate 12 0) rfl
  exact ⟨c', hrun, hregs⟩

/-- The upcall writes below its frame, and a fault inside it, at `popal`, writes over the frame
of the unfinished fault. -/
theorem upcall_writes_elsewhere :
    (∃ c' st', Step UPCALL HANDLER_VAR (afterFault [], [⟨program.regs, .upcall .pushEsp⟩])
      (.exec 0) (c', st') ∧ ∃ x, c'.mem x ≠ (afterFault []).mem x ∧
        ¬ InSpan (utf program.regs.esp) 56 x ∧ ¬ InSpan (program.regs.esp - 4) 4 x) ∧
    ∃ tr c c' st', Run (Step UPCALL HANDLER_VAR) (program, []) tr
        (c, [⟨program.regs, .upcall .popal⟩]) ∧
      Step UPCALL HANDLER_VAR (c, [⟨program.regs, .upcall .popal⟩]) (.fault 0 0 0) (c', st') ∧
      c'.mem (utf program.regs.esp) ≠ c.mem (utf program.regs.esp) := by
  refine ⟨⟨_, _, .exec (by decide) ?_, 0xeebfffc5, ?_⟩, ?_⟩
  · rintro a ⟨⟩ x
    exact mayWrite_span (Or.inr (by decide))
  · decide +kernel
  · have hpop : Run (Step UPCALL HANDLER_VAR) (afterHandler [], [⟨program.regs, .upcall .popArg⟩])
        (List.replicate 7 (.exec 0))
        (afterHandler [.addEsp8, .movEsp, .pushEip, .subEax, .movUtfEip, .movUtfEsp, .popArg],
          [⟨program.regs, .upcall .popal⟩]) := by
      refine .cons (.exec (by decide) ?_) (.cons (.exec rfl ?_) (.cons (.exec rfl ?_)
        (.cons (.exec rfl ?_) (.cons (.exec rfl ?_) (.cons (.exec rfl ?_)
          (.single (.exec rfl ?_)))))))
      · rintro a ⟨⟩
      · rintro a ⟨⟩
      · rintro a ⟨⟩
      · rintro a ⟨⟩
      · rintro a ⟨⟩ x
        exact mayWrite_span (Or.inl (by decide +kernel))
      · rintro a ⟨⟩ x
        exact mayWrite_span (Or.inr (by decide +kernel))
      · rintro a ⟨⟩
    refine ⟨_, _, _, _, program_handled.append hpop, .fault fun _ => mayWrite_span (Or.inr ?_), ?_⟩
    · decide +kernel
    · decide +kernel

end SisOp.Pgfault
