/-
# `SisOp.Lib.Prog` — programs over an interface

A program is a tree of calls to an interface: commands `C`, each with a type of
answers.  A `Handler` carries the commands out on some state, and may fail;
`Prog.run` is what a program does under it.  `Sat` is the rule of pre- and
postconditions, with a postcondition of its own for a failure.

Two handlers are compared by `Abstracts`: the answers of a detailed one are those
of a simpler one on the state `φ` shows, unless the detailed one fails.  Then every
program does under the detailed handler what it does under the simple one, up to
that failure (`Abstracts.run_ok`, `Abstracts.run_error`).
-/
import Mathlib.Logic.Basic

namespace SisOp.Lib

/-- A program with answers in `α`. -/
inductive Prog (C : Type) (R : C → Type) (α : Type) : Type
  | ret (a : α)
  | call (c : C) (k : R c → Prog C R α)

/-- How a command is carried out. -/
abbrev Handler (C : Type) (R : C → Type) (σ : Type) := (c : C) → σ → Except String (R c) × σ

namespace Prog

variable {C : Type} {R : C → Type} {α β σ τ : Type}

def bind : Prog C R α → (α → Prog C R β) → Prog C R β
  | ret a, f => f a
  | call c k, f => call c fun r => (k r).bind f

instance : Monad (Prog C R) where
  pure := ret
  bind := bind

@[simp] theorem pure_bind (a : α) (f : α → Prog C R β) : (pure a >>= f) = f a := rfl

@[simp] theorem ret_bind (a : α) (f : α → Prog C R β) : (ret a >>= f) = f a := rfl

@[simp] theorem call_bind (c : C) (k : R c → Prog C R α) (f : α → Prog C R β) :
    (call c k >>= f) = call c fun r => k r >>= f := rfl

theorem bind_assoc {γ : Type} (p : Prog C R α) (f : α → Prog C R β) (g : β → Prog C R γ) :
    (p >>= f >>= g) = p >>= fun a => f a >>= g := by
  induction p with
  | ret a => rfl
  | call c k ih => exact congrArg (call c) (funext ih)

/-- A single command. -/
def cmd (c : C) : Prog C R (R c) := call c ret

/-- What a program does. -/
def run (h : Handler C R σ) : Prog C R α → σ → Except String α × σ
  | ret a, s => (.ok a, s)
  | call c k, s =>
      match h c s with
      | (.ok r, s') => (k r).run h s'
      | (.error e, s') => (.error e, s')

section

variable {h : Handler C R σ} {s s' : σ}

@[simp] theorem run_pure (a : α) : (pure a : Prog C R α).run h s = (.ok a, s) := rfl

theorem run_call (c : C) (k : R c → Prog C R α) : (call c k).run h s =
    match h c s with
    | (.ok r, s') => (k r).run h s'
    | (.error e, s') => (.error e, s') := by
  rw [run]

theorem run_single (c : C) : (cmd c : Prog C R (R c)).run h s = h c s := by
  unfold cmd
  rw [run_call]
  rcases h c s with ⟨e | r, s'⟩ <;> rfl

theorem run_bind (p : Prog C R α) (f : α → Prog C R β) : (p >>= f).run h s =
    match p.run h s with
    | (.ok a, s') => (f a).run h s'
    | (.error e, s') => (.error e, s') := by
  induction p generalizing s with
  | ret a => rfl
  | call c k ih =>
      rw [call_bind, run_call, run_call]
      rcases h c s with ⟨r | r, s'⟩
      · rfl
      · exact ih r

theorem run_bind_ok {p : Prog C R α} {f : α → Prog C R β} {a : α} (hp : p.run h s = (.ok a, s')) :
    (p >>= f).run h s = (f a).run h s' := by
  rw [run_bind, hp]

theorem run_bind_error {p : Prog C R α} {f : α → Prog C R β} {e : String}
    (hp : p.run h s = (.error e, s')) : (p >>= f).run h s = (.error e, s') := by
  rw [run_bind, hp]

theorem bind_ok {p : Prog C R α} {f : α → Prog C R β} {b : β}
    (hrun : (p >>= f).run h s = (.ok b, s')) :
    ∃ a s1, p.run h s = (.ok a, s1) ∧ (f a).run h s1 = (.ok b, s') := by
  rw [run_bind] at hrun
  rcases hp : p.run h s with ⟨e | a, s1⟩
  · rw [hp] at hrun
    cases hrun
  · rw [hp] at hrun
    exact ⟨a, s1, rfl, hrun⟩

/-! ## Pre- and postconditions -/

/-- From `s` the program ends with `Q`, or fails with `E`. -/
def Sat (h : Handler C R σ) (p : Prog C R α) (s : σ) (Q : α → σ → Prop) (E : σ → Prop) : Prop :=
  match p.run h s with
  | (.ok a, s') => Q a s'
  | (.error _, s') => E s'

variable {p : Prog C R α} {f : α → Prog C R β} {Q Q' : α → σ → Prop} {E E' : σ → Prop}
  {T : β → σ → Prop}

theorem sat_pure {a : α} : Sat h (pure a) s Q E ↔ Q a s := Iff.rfl

theorem sat_ok (hs : Sat h p s Q E) {a : α} (hrun : p.run h s = (.ok a, s')) : Q a s' := by
  rwa [Sat, hrun] at hs

theorem sat_error (hs : Sat h p s Q E) {e : String} (hrun : p.run h s = (.error e, s')) : E s' := by
  rwa [Sat, hrun] at hs

theorem sat_iff : Sat h p s Q E ↔ (∀ a s', p.run h s = (.ok a, s') → Q a s') ∧
    ∀ e s', p.run h s = (.error e, s') → E s' := by
  refine ⟨fun hs => ⟨fun _ _ => sat_ok hs, fun _ _ => sat_error hs⟩, ?_⟩
  rintro ⟨hok, herr⟩
  unfold Sat
  split
  · exact hok _ _ ‹_›
  · exact herr _ _ ‹_›

/-- The rule of composition. -/
theorem sat_bind : Sat h (p >>= f) s T E ↔ Sat h p s (fun a s' => Sat h (f a) s' T E) E := by
  unfold Sat
  rw [run_bind]
  rcases p.run h s with ⟨e | a, s1⟩ <;> rfl

/-- The rule of consequence. -/
theorem Sat.mono (hs : Sat h p s Q E) (hQ : ∀ a s', Q a s' → Q' a s') (hE : ∀ s', E s' → E' s') :
    Sat h p s Q' E' := by
  obtain ⟨hok, herr⟩ := sat_iff.mp hs
  exact sat_iff.mpr ⟨fun a s' hrun => hQ a s' (hok a s' hrun),
    fun e s' hrun => hE s' (herr e s' hrun)⟩

theorem Sat.bind (hs : Sat h p s Q E) (hf : ∀ a s', Q a s' → Sat h (f a) s' T E) :
    Sat h (p >>= f) s T E :=
  sat_bind.mpr (hs.mono hf fun _ => id)

theorem sat_call {c : C} {k : R c → Prog C R α} :
    Sat h (call c k) s Q E ↔
      match h c s with
      | (.ok r, s') => Sat h (k r) s' Q E
      | (.error _, s') => E s' := by
  unfold Sat
  rw [run_call]
  rcases h c s with ⟨e | r, s1⟩ <;> rfl

/-- What every command keeps, a program keeps. -/
theorem run_preserves {I : σ → Prop} (hcmd : ∀ c s, I s → I (h c s).2) (p : Prog C R α) (hs : I s) :
    I (p.run h s).2 := by
  induction p generalizing s with
  | ret a => exact hs
  | call c k ih =>
      have hI := hcmd c s hs
      rw [run_call]
      rcases hc : h c s with ⟨e | r, s1⟩
      · rw [hc] at hI
        exact hI
      · rw [hc] at hI
        exact ih r hI

/-! ## Commands that do not occur -/

/-- No command of `p` is one of `P`. -/
inductive Avoids (P : C → Prop) : Prog C R α → Prop
  | ret (a : α) : Avoids P (ret a)
  | call {c : C} {k : R c → Prog C R α} (hc : ¬ P c) (hk : ∀ r, Avoids P (k r)) :
      Avoids P (call c k)

theorem Avoids.pure {P : C → Prop} (a : α) : Avoids P (pure a : Prog C R α) := .ret a

theorem Avoids.cmd {P : C → Prop} {c : C} (hc : ¬ P c) : Avoids P (cmd c : Prog C R (R c)) :=
  .call hc fun r => .ret r

theorem Avoids.bind {P : C → Prop} (hp : Avoids P p) (hf : ∀ a, Avoids P (f a)) :
    Avoids P (p >>= f) := by
  induction hp with
  | ret a => exact hf a
  | call hc _ ih => exact .call hc ih

/-- What every other command keeps, such a program keeps. -/
theorem Avoids.run_preserves {P : C → Prop} {I : σ → Prop} (hcmd : ∀ c s, ¬ P c → I s → I (h c s).2)
    (hp : Avoids P p) (hs : I s) : I (p.run h s).2 := by
  induction hp generalizing s with
  | ret a => exact hs
  | @call c k hc _ ih =>
      have hI := hcmd c s hc hs
      rw [run_call]
      rcases hrun : h c s with ⟨e | r, s1⟩
      · rw [hrun] at hI
        exact hI
      · rw [hrun] at hI
        exact ih r hI

/-! ## Commands that occur -/

/-- Every command that `p` carries out from `s` on is one of `P`. -/
def Covered (h : Handler C R σ) (P : C → Prop) : Prog C R α → σ → Prop
  | ret _, _ => True
  | call c k, s => P c ∧ ∀ r s', h c s = (.ok r, s') → Covered h P (k r) s'

theorem covered_pure {P : C → Prop} (a : α) : Covered h P (pure a : Prog C R α) s := trivial

theorem covered_cmd {P : C → Prop} {c : C} : Covered h P (cmd c : Prog C R (R c)) s ↔ P c :=
  ⟨fun hc => hc.1, fun hc => ⟨hc, fun _ _ _ => trivial⟩⟩

theorem covered_bind {P : C → Prop} : Covered h P (p >>= f) s ↔
    Covered h P p s ∧ ∀ a s', p.run h s = (.ok a, s') → Covered h P (f a) s' := by
  induction p generalizing s with
  | ret a =>
      refine ⟨fun hf => ⟨trivial, fun a' s' hrun => ?_⟩, fun hf => hf.2 a s rfl⟩
      cases hrun
      exact hf
  | call c k ih =>
      constructor
      · rintro ⟨hc, hk⟩
        refine ⟨⟨hc, fun r s1 hcmd => (ih r).mp (hk r s1 hcmd) |>.1⟩, fun a s' hrun => ?_⟩
        rw [run_call] at hrun
        rcases hcmd : h c s with ⟨e | r, s1⟩
        · rw [hcmd] at hrun
          cases hrun
        · rw [hcmd] at hrun
          exact ((ih r).mp (hk r s1 hcmd)).2 a s' hrun
      · rintro ⟨⟨hc, hk⟩, hf⟩
        refine ⟨hc, fun r s1 hcmd => (ih r).mpr ⟨hk r s1 hcmd, fun a s' hrun => hf a s' ?_⟩⟩
        rw [run_call, hcmd]
        exact hrun

theorem covered_of_all {P : C → Prop} (hP : ∀ c, P c) (p : Prog C R α) (s : σ) : Covered h P p s := by
  induction p generalizing s with
  | ret a => trivial
  | call c k ih => exact ⟨hP c, fun r s' _ => ih r s'⟩

end

/-! ## Two handlers -/

/-- On the state that `φ` shows, `h'` answers what `h` answers.  Where `h` fails, what it has
done by then lies `below` what `h'` does, and `h'` never undoes anything. -/
structure Abstracts (h : Handler C R σ) (h' : Handler C R τ) (φ : σ → τ) (below : τ → τ → Prop) :
    Prop where
  ok : ∀ c s r s', h c s = (.ok r, s') → h' c (φ s) = (.ok r, φ s')
  error : ∀ c s e s', h c s = (.error e, s') → below (φ s') (h' c (φ s)).2
  refl : ∀ t, below t t
  trans : ∀ t t' t'', below t t' → below t' t'' → below t t''
  grows : ∀ c t, below t (h' c t).2

namespace Abstracts

variable {h : Handler C R σ} {h' : Handler C R τ} {φ : σ → τ} {below : τ → τ → Prop} {s s' : σ}

theorem run_grows (ha : Abstracts h h' φ below) (p : Prog C R α) (t : τ) :
    below t (p.run h' t).2 :=
  run_preserves (I := below t) (fun c _ ht => ha.trans _ _ _ ht (ha.grows c _)) p (ha.refl t)

theorem run_ok (ha : Abstracts h h' φ below) {p : Prog C R α} {a : α}
    (hrun : p.run h s = (.ok a, s')) : p.run h' (φ s) = (.ok a, φ s') := by
  induction p generalizing s with
  | ret b =>
      cases hrun
      rfl
  | call c k ih =>
      rw [run_call] at hrun ⊢
      rcases hc : h c s with ⟨e | r, s1⟩
      · rw [hc] at hrun
        cases hrun
      · rw [hc] at hrun
        rw [ha.ok c s r s1 hc]
        exact ih r hrun

theorem run_error (ha : Abstracts h h' φ below) {p : Prog C R α} {e : String}
    (hrun : p.run h s = (.error e, s')) : below (φ s') (p.run h' (φ s)).2 := by
  induction p generalizing s with
  | ret b => cases hrun
  | call c k ih =>
      rw [run_call] at hrun ⊢
      rcases hc : h c s with ⟨e' | r, s1⟩
      · rw [hc] at hrun
        cases hrun
        have hbelow := ha.error c s _ _ hc
        rcases hc' : h' c (φ s) with ⟨e2 | r2, t⟩
        · rw [hc'] at hbelow
          exact hbelow
        · rw [hc'] at hbelow
          exact ha.trans _ _ _ hbelow (ha.run_grows (k r2) t)
      · rw [hc] at hrun
        rw [ha.ok c s r s1 hc]
        exact ih r hrun

/-! What a command needs of the detailed state, and leaves there: after a run that did not fail,
everything the program needed is there, and it does not fail again where it needs no more. -/

theorem covered_of_run (ha : Abstracts h h' φ below) {P : σ → C → Prop}
    (hpost : ∀ c s r s1, h c s = (.ok r, s1) → P s1 c)
    (hkeep : ∀ c c' s, P s c → P (h c' s).2 c) {p : Prog C R α} {a : α}
    (hrun : p.run h s = (.ok a, s')) : Covered h' (P s') p (φ s) := by
  induction p generalizing s with
  | ret b => trivial
  | call c k ih =>
      rw [run_call] at hrun
      rcases hc : h c s with ⟨e | r, s1⟩
      · rw [hc] at hrun
        cases hrun
      · rw [hc] at hrun
        have hlater : P ((k r).run h s1).2 c :=
          run_preserves (I := fun s => P s c) (fun c' s => hkeep c c' s) _ (hpost c s r s1 hc)
        change (k r).run h s1 = (.ok a, s') at hrun
        rw [hrun] at hlater
        refine ⟨hlater, fun r' t hview => ?_⟩
        rw [ha.ok c s r s1 hc] at hview
        cases hview
        exact ih r hrun

theorem run_of_covered (ha : Abstracts h h' φ below) {P : σ → C → Prop}
    (hlive : ∀ c s r t, P s c → h' c (φ s) = (.ok r, t) → ∃ r' s1, h c s = (.ok r', s1))
    (hkeep : ∀ c c' s, P s c → P (h c' s).2 c) {Q : C → Prop} (hQ : ∀ c, Q c → P s c)
    {p : Prog C R α} {a : α} {t : τ} (hcov : Covered h' Q p (φ s)) (hrun : p.run h' (φ s) = (.ok a, t)) :
    ∃ s', p.run h s = (.ok a, s') ∧ φ s' = t := by
  induction p generalizing s with
  | ret b =>
      cases hrun
      exact ⟨s, rfl, rfl⟩
  | call c k ih =>
      rw [run_call] at hrun ⊢
      rcases hview : h' c (φ s) with ⟨e | r, t1⟩
      · rw [hview] at hrun
        cases hrun
      · rw [hview] at hrun
        obtain ⟨r', s1, hc⟩ := hlive c s r t1 (hQ c hcov.1) hview
        have hok := ha.ok c s r' s1 hc
        rw [hview] at hok
        cases hok
        have hQ1 : ∀ c', Q c' → P s1 c' := fun c' hc' => by
          have hk := hkeep c' c s (hQ c' hc')
          rwa [hc] at hk
        rw [hc]
        exact ih _ hQ1 (hcov.2 _ _ hview) hrun

end Abstracts

end Prog

end SisOp.Lib
