/-
# `SisOp.Jos.Faults` — kernel code that does not fault

A page fault of the kernel's own is the panic `"Kernel Page Fault"`.  The functions
of `kern/pmap.c` do not take one: a page they reach through `KADDR` is a page of the
machine.  Those of `kern/env.c` take one only through a null `env_pgdir`.
-/
import SisOp.Jos.Effects

namespace SisOp.Jos

/-- `x` is not a page fault in the kernel. -/
def NoFault {α : Type} (x : Except String α) : Prop := x ≠ .error "Kernel Page Fault"

section

variable {α β : Type} {m : Phys} {p d : Ppn} {va len perm : Word} {k : Kernel} {c : Nat} {e : Slot}

theorem noFault_ok (a : α) : NoFault (.ok a : Except String α) := nofun

theorem NoFault.bind {x : Except String α} {f : α → Except String β} (hx : NoFault x)
    (hf : ∀ a, x = .ok a → NoFault (f a)) : NoFault (x >>= f) := by
  cases x with
  | error msg =>
      intro h
      exact hx (congrArg Except.error (Except.error.inj h))
  | ok a => exact hf a rfl

theorem noFault_foldlM {σ : Type} {f : σ → α → Except String σ} (hf : ∀ s a, NoFault (f s a)) :
    ∀ (as : List α) (s : σ), NoFault (as.foldlM f s)
  | [], s => noFault_ok s
  | a :: as, s => by
      rw [List.foldlM_cons]
      exact (hf s a).bind fun s' _ => noFault_foldlM hf as s'

/-! ## Pages and page tables -/

theorem noFault_KADDR (m : Phys) (p : Ppn) : NoFault (KADDR m p) := by
  unfold KADDR NoFault
  split <;> simp

theorem noFault_pa2page (m : Phys) (p : Ppn) : NoFault (pa2page m p) := by
  unfold pa2page NoFault
  split <;> simp

theorem noFault_pageFree (m : Phys) (p : Ppn) : NoFault (pageFree m p) := by
  unfold pageFree NoFault
  split
  · simp
  · split <;> simp

theorem noFault_pageDecref (m : Phys) (p : Ppn) : NoFault (pageDecref m p) := by
  unfold pageDecref
  dsimp only
  split
  · exact noFault_pageFree _ p
  · exact noFault_ok _

/-- A walk that does not create. -/
theorem noFault_pgdirWalk (m : Phys) (d : Ppn) (va : Word) : NoFault (pgdirWalk m d va false) := by
  unfold pgdirWalk
  dsimp only
  split
  · exact noFault_ok _
  · exact (noFault_KADDR _ _).bind fun _ _ => noFault_ok _

theorem noFault_pageLookup (m : Phys) (d : Ppn) (va : Word) : NoFault (pageLookup m d va) := by
  refine (noFault_pgdirWalk m d va).bind fun r _ => ?_
  obtain ⟨pte, m'⟩ := r
  cases pte with
  | none => exact noFault_ok _
  | some pte =>
      by_cases hv : PTE_VALID (m.load pte)
      · simp only [hv, not_true_eq_false, if_false]
        exact (noFault_pa2page _ _).bind fun _ _ => noFault_ok _
      · simp only [hv, not_false_eq_true, if_true]
        exact noFault_ok _

theorem noFault_pageRemove (m : Phys) (d : Ppn) (va : Word) : NoFault (pageRemove m d va) := by
  refine (noFault_pageLookup m d va).bind fun r _ => ?_
  cases r with
  | none => exact noFault_ok _
  | some r => exact noFault_pageDecref _ _

theorem noFault_userMemCheckLoop {endVa : Word} : ∀ (fuel : Nat) (m : Phys) (cur : Word),
    NoFault (userMemCheckLoop m d va endVa perm fuel cur)
  | 0, _, _ => by simp [NoFault, userMemCheckLoop]
  | fuel + 1, m, cur => by
      rw [userMemCheckLoop]
      split
      · refine (noFault_pgdirWalk m d cur).bind fun r _ => ?_
        have hturn (bad : Bool) : NoFault (if ULIM ≤ cur ∨ bad = true then
            pure (-E_FAULT, some (if cur < va then va else cur))
            else userMemCheckLoop r.2 d va endVa perm fuel (cur + PGSIZE)) := by
          split
          · exact noFault_ok _
          · exact noFault_userMemCheckLoop fuel r.2 _
        exact hturn _
      · exact noFault_ok _

theorem noFault_userMemCheck (m : Phys) (d : Ppn) (va len perm : Word) :
    NoFault (userMemCheck m d va len perm) :=
  noFault_userMemCheckLoop _ m _

/-! ## Environments -/

theorem noFault_envFreePde (m : Phys) (d : Ppn) (i : Idx) : NoFault (envFreePde m d i) := by
  unfold envFreePde
  dsimp only
  split
  · exact noFault_ok _
  · refine (noFault_KADDR _ _).bind fun pt _ => ?_
    refine (noFault_foldlM (fun m j => ?_) _ _).bind fun m' _ => ?_
    · split
      · exact noFault_pageRemove _ _ _
      · exact noFault_ok _
    · exact (noFault_pa2page _ _).bind fun _ _ => noFault_pageDecref _ _

theorem noFault_envFree (hd : (k.envs e).envPgdir = some d) : NoFault (envFree k c e) := by
  unfold envFree
  have hdir : ((if k.curenv c = some e then k.lcr3 c k.phys.kernPgdir else k).envs e).envPgdir =
      some d := by
    split <;> exact hd
  simp only [hdir]
  refine (noFault_foldlM (fun m i => noFault_envFreePde m d i) _ _).bind fun m _ => ?_
  refine (noFault_pa2page _ _).bind fun p _ => ?_
  exact (noFault_pageDecref _ _).bind fun _ _ => noFault_ok _

theorem noFault_envRun (k : Kernel) (c : Nat) (e : Slot) : NoFault (envRun k c e) := by
  rw [envRun_eq]
  split <;> simp [NoFault]

theorem noFault_schedHalt (k : Kernel) (c : Nat) : NoFault (schedHalt k c) := by
  unfold schedHalt NoFault
  split <;> simp

theorem noFault_schedYield (k : Kernel) (c : Nat) : NoFault (schedYield k c) := by
  unfold schedYield
  simp only
  split
  · exact noFault_envRun k c _
  · split
    · split
      · exact noFault_envRun k c _
      · exact noFault_schedHalt k c
    · exact noFault_schedHalt k c

theorem noFault_envDestroy (hd : (k.envs e).envPgdir = some d) : NoFault (envDestroy k c e) := by
  unfold envDestroy
  split
  · exact noFault_ok _
  · refine (noFault_envFree hd).bind fun k' _ => ?_
    split
    · exact (noFault_schedYield _ c).bind fun _ _ => noFault_ok _
    · exact noFault_ok _

theorem noFault_userMemAssert (hd : (k.envs e).envPgdir = some d) :
    NoFault (userMemAssert k c e va len perm) := by
  unfold userMemAssert
  simp only [hd]
  refine (noFault_userMemCheck _ _ _ _ _).bind fun r _ => ?_
  split
  · exact noFault_envDestroy hd
  · exact noFault_ok _

end

end SisOp.Jos
