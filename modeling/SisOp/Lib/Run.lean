/-
# `SisOp.Lib.Run` — runs of a labelled transition system

`Run step s tr s'`: the labels `tr`, taken one after the other from `s`, end in
`s'`.  The induction that carries an invariant along a run is done once here
(`Run.preserves`); a system only proves what one step does.  `Guarded G step`
keeps the steps whose label and pre-state satisfy `G`, so that "in every run
whose steps all meet the condition" is `Run (Guarded G step)`.
-/
import Mathlib.Logic.Basic

namespace SisOp.Lib

variable {σ lab : Type*}

/-- A finite run and the labels of its steps. -/
inductive Run (step : σ → lab → σ → Prop) : σ → List lab → σ → Prop
  | nil (s : σ) : Run step s [] s
  | cons {s s' s'' : σ} {a : lab} {tr : List lab} :
      step s a s' → Run step s' tr s'' → Run step s (a :: tr) s''

/-- The steps of `step` taken from states where the label meets `G`. -/
def Guarded (G : σ → lab → Prop) (step : σ → lab → σ → Prop) : σ → lab → σ → Prop :=
  fun s a s' => G s a ∧ step s a s'

namespace Run

variable {step step' : σ → lab → σ → Prop}

theorem single {s s' : σ} {a : lab} (h : step s a s') : Run step s [a] s' :=
  .cons h (.nil s')

theorem append {s s' s'' : σ} {tr tr' : List lab} (h : Run step s tr s')
    (h' : Run step s' tr' s'') : Run step s (tr ++ tr') s'' := by
  induction h with
  | nil _ => exact h'
  | cons hs _ ih => exact .cons hs (ih h')

theorem snoc {s s' s'' : σ} {tr : List lab} {a : lab} (h : Run step s tr s')
    (hs : step s' a s'') : Run step s (tr ++ [a]) s'' :=
  h.append (.single hs)

/-- A run stops on the way. -/
theorem split {s s'' : σ} : ∀ {tr tr' : List lab}, Run step s (tr ++ tr') s'' →
    ∃ s', Run step s tr s' ∧ Run step s' tr' s''
  | [], _, h => ⟨s, .nil s, h⟩
  | _ :: _, _, .cons hs h =>
    let ⟨s', h1, h2⟩ := split h
    ⟨s', .cons hs h1, h2⟩

/-- A property every step keeps holds at the end of a run that starts with it. -/
theorem preserves {I : σ → Prop} (hstep : ∀ s a s', I s → step s a s' → I s')
    {s s' : σ} {tr : List lab} (h : Run step s tr s') (hI : I s) : I s' := by
  induction h with
  | nil _ => exact hI
  | cons hs _ ih => exact ih (hstep _ _ _ hI hs)

/-- Where every step lowers a measure, it bounds how long a run is. -/
theorem length_add_le {I : σ → Prop} {μ : σ → Nat}
    (hstep : ∀ s a s', I s → step s a s' → I s' ∧ μ s' < μ s)
    {s s' : σ} {tr : List lab} (h : Run step s tr s') (hI : I s) : tr.length + μ s' ≤ μ s := by
  induction h with
  | nil _ => simp
  | cons hs _ ih =>
    obtain ⟨hI', hlt⟩ := hstep _ _ _ hI hs
    have hle := ih hI'
    rw [List.length_cons]
    omega

/-- A reflexive and transitive relation that contains every step relates the ends of a run. -/
theorem relates {Q : σ → σ → Prop} (hrefl : ∀ s, Q s s)
    (htrans : ∀ s s' s'', Q s s' → Q s' s'' → Q s s'')
    (hstep : ∀ s a s', step s a s' → Q s s')
    {s s' : σ} {tr : List lab} (h : Run step s tr s') : Q s s' := by
  induction h with
  | nil s => exact hrefl s
  | cons hs _ ih => exact htrans _ _ _ (hstep _ _ _ hs) ih

/-- Runs of a smaller relation are runs of a larger one. -/
theorem mono (hsub : ∀ s a s', step s a s' → step' s a s') {s s' : σ} {tr : List lab}
    (h : Run step s tr s') : Run step' s tr s' := by
  induction h with
  | nil s => exact .nil s
  | cons hs _ ih => exact .cons (hsub _ _ _ hs) ih

end Run

theorem Run.unguard {G : σ → lab → Prop} {step : σ → lab → σ → Prop} {s s' : σ} {tr : List lab}
    (h : Run (Guarded G step) s tr s') : Run step s tr s' :=
  h.mono (fun _ _ _ hs => hs.2)

end SisOp.Lib
