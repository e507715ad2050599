/-
# `SisOp.Lib.RefCount` — counting the references to an object

A finite family of reference slots, each null or pointing at one object:
`tgt : R → Option P`.  `refs tgt p` is the number of slots that point at `p`.
A stored counter is right when it equals `refs`; every lemma about counters is
then an instance of `refs_update`, which says what rewriting one slot does.
-/
import Mathlib.Data.Fintype.Card
import Mathlib.Data.Fintype.Prod
import Mathlib.Logic.Function.Basic

namespace SisOp.Lib

variable {R P : Type*} [Fintype R] [DecidableEq P]

/-- How many slots of `tgt` point at `p`. -/
def refs (tgt : R → Option P) (p : P) : Nat :=
  (Finset.univ.filter (fun r => tgt r = some p)).card

theorem refs_congr {tgt tgt' : R → Option P} (h : ∀ r, tgt r = tgt' r) (p : P) :
    refs tgt p = refs tgt' p := by
  rw [show tgt = tgt' from funext h]

theorem refs_eq_zero {tgt : R → Option P} {p : P} : refs tgt p = 0 ↔ ∀ r, tgt r ≠ some p := by
  simp [refs, Finset.filter_eq_empty_iff]

theorem refs_pos {tgt : R → Option P} {p : P} {r : R} (h : tgt r = some p) : 0 < refs tgt p := by
  refine Nat.pos_of_ne_zero (fun h0 => ?_)
  exact refs_eq_zero.mp h0 r h

@[simp] theorem refs_none (p : P) : refs (fun _ : R => (none : Option P)) p = 0 := by
  simp [refs_eq_zero]

/-- A count of at most one makes the slot unique. -/
theorem refs_unique {tgt : R → Option P} {p : P} (h1 : refs tgt p ≤ 1) {r r' : R}
    (hr : tgt r = some p) (hr' : tgt r' = some p) : r = r' := by
  have hle := Finset.card_le_one.mp h1
  exact hle r (by simp [hr]) r' (by simp [hr'])

/-- Rewriting one slot moves at most one unit from the old target to the new one. -/
theorem refs_update [DecidableEq R] (tgt : R → Option P) (r : R) (x : Option P) (p : P) :
    refs (Function.update tgt r x) p + (if tgt r = some p then 1 else 0) =
      refs tgt p + (if x = some p then 1 else 0) := by
  -- away from `r` the two families agree, so both counts split off the same rest
  have split (f : R → Option P) : refs f p =
      ((Finset.univ.erase r).filter (fun s => f s = some p)).card +
        (if f r = some p then 1 else 0) := by
    unfold refs
    rw [← Finset.insert_erase (Finset.mem_univ r), Finset.filter_insert, Finset.erase_insert_eq_erase,
      Finset.erase_idem]
    split
    · rw [Finset.card_insert_of_notMem (by simp)]
    · rfl
  have same : (Finset.univ.erase r).filter (fun s => Function.update tgt r x s = some p) =
      (Finset.univ.erase r).filter (fun s => tgt s = some p) := by
    refine Finset.filter_congr (fun s hs => ?_)
    rw [Function.update_of_ne (Finset.ne_of_mem_erase hs)]
  rw [split (Function.update tgt r x), split tgt, same, Function.update_self]
  omega

/-- A count is bounded by any set of slots the references can be sent to injectively. -/
theorem refs_le_card {S : Type*} [Fintype S] {tgt : R → Option P} {p : P} (f : R → S)
    (hf : ∀ r r', tgt r = some p → tgt r' = some p → f r = f r' → r = r') :
    refs tgt p ≤ Fintype.card S := by
  unfold refs
  refine Finset.card_le_card_of_injOn f (fun _ _ => Finset.mem_univ _) ?_
  intro r hr r' hr' heq
  exact hf r r' (by simpa using hr) (by simpa using hr') heq

/-- If every slot that points at `p` or `q` has one of its own that points at `d`, there are at
least as many of these. -/
theorem refs_add_le {tgt : R → Option P} {p q d : P} (hpq : p ≠ q) (f : R → R)
    (hf : Function.Injective f)
    (hmaps : ∀ r, tgt r = some p ∨ tgt r = some q → tgt (f r) = some d) :
    refs tgt p + refs tgt q ≤ refs tgt d := by
  classical
  unfold refs
  have hdisj : Disjoint (Finset.univ.filter (fun r => tgt r = some p))
      (Finset.univ.filter (fun r => tgt r = some q)) := by
    refine Finset.disjoint_filter.mpr (fun r _ hp hq => hpq ?_)
    exact Option.some.inj (hp.symm.trans hq)
  rw [← Finset.card_union_of_disjoint hdisj]
  refine Finset.card_le_card_of_injOn f (fun r hr => ?_) hf.injOn
  have hr' : tgt r = some p ∨ tgt r = some q := by simpa using hr
  simpa using hmaps r hr'

/-- Over pairs, the slots of one row can be counted apart. -/
theorem refs_row {A B : Type*} [Fintype A] [Fintype B] [DecidableEq A] (tgt : A × B → Option P)
    (a : A) (p : P) :
    refs tgt p = refs (fun r => if r.1 = a then none else tgt r) p + refs (fun b => tgt (a, b)) p := by
  classical
  have hrow : (Finset.univ.filter (fun r : A × B => tgt r = some p)).filter (fun r => r.1 = a) =
      (Finset.univ.filter (fun b => tgt (a, b) = some p)).map ⟨(a, ·), Prod.mk_right_injective a⟩ := by
    ext ⟨a', b⟩
    simp only [Finset.mem_filter, Finset.mem_univ, true_and, Finset.mem_map, Prod.mk.injEq,
      Function.Embedding.coeFn_mk]
    constructor
    · rintro ⟨h, rfl⟩
      exact ⟨b, h, rfl, rfl⟩
    · rintro ⟨b', h, rfl, rfl⟩
      exact ⟨h, rfl⟩
  have hrest : (Finset.univ.filter (fun r : A × B => tgt r = some p)).filter (fun r => ¬ r.1 = a) =
      Finset.univ.filter (fun r => (if r.1 = a then none else tgt r) = some p) := by
    ext r
    by_cases h : r.1 = a <;> simp [h]
  have hsplit := Finset.card_filter_add_card_filter_not
    (s := Finset.univ.filter (fun r : A × B => tgt r = some p)) (p := fun r => r.1 = a)
  rw [hrow, hrest, Finset.card_map, Nat.add_comm] at hsplit
  exact hsplit.symm

end SisOp.Lib
