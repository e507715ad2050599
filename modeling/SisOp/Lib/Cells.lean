/-
# `SisOp.Lib.Cells` — consecutive cells of an array

`put` stores a list in an array from an index on; `HoldsAt` reads it back.  A store leaves
what it does not overlap (`HoldsAt.put`), and a part of what is held is held where it
stands (`holdsAt_append`).
-/
import Mathlib.Data.List.GetD

namespace SisOp.Lib

variable {α : Type*} {f g : Nat → α} {o p : Nat} {xs ys : List α}

/-- `f[o ..] = xs`. -/
def put (f : Nat → α) (o : Nat) (xs : List α) : Nat → α := fun i =>
  if o ≤ i then xs.getD (i - o) (f i) else f i

/-- The array has the list from index `o` on. -/
def HoldsAt (f : Nat → α) (o : Nat) (xs : List α) : Prop := ∀ k (hk : k < xs.length), f (o + k) = xs[k]

theorem put_of_not {i : Nat} (h : ¬ (o ≤ i ∧ i < o + xs.length)) : put f o xs i = f i := by
  unfold put
  split
  · exact List.getD_eq_default _ _ (by omega)
  · rfl

theorem holdsAt_put : HoldsAt (put f o xs) o xs := by
  intro k hk
  rw [put, if_pos (Nat.le_add_right o k), Nat.add_sub_cancel_left, List.getD_eq_getElem _ _ hk]

theorem HoldsAt.congr (h : HoldsAt f o xs) (heq : ∀ i, o ≤ i → i < o + xs.length → g i = f i) : HoldsAt g o xs :=
  fun k hk => (heq (o + k) (Nat.le_add_right o k) (Nat.add_lt_add_left hk o)).trans (h k hk)

/-- A store elsewhere. -/
theorem HoldsAt.put (h : HoldsAt f o xs) (hd : o + xs.length ≤ p ∨ p + ys.length ≤ o) : HoldsAt (Lib.put f p ys) o xs :=
  h.congr fun i hlo hhi => put_of_not (by omega)

theorem holdsAt_append : HoldsAt f o (xs ++ ys) ↔ HoldsAt f o xs ∧ HoldsAt f (o + xs.length) ys := by
  constructor
  · intro h
    refine ⟨fun k hk => ?_, fun k hk => ?_⟩
    · have hk' : k < (xs ++ ys).length := by
        rw [List.length_append]
        omega
      rw [h k hk', List.getElem_append_left hk]
    · have hk' : xs.length + k < (xs ++ ys).length := by
        rw [List.length_append]
        omega
      rw [Nat.add_assoc, h _ hk', List.getElem_append_right (Nat.le_add_right _ _)]
      simp only [Nat.add_sub_cancel_left]
  · rintro ⟨hx, hy⟩ k hk
    rw [List.length_append] at hk
    by_cases hlt : k < xs.length
    · rw [hx k hlt, List.getElem_append_left hlt]
    · have hk' : k - xs.length < ys.length := by omega
      have hsum : o + k = o + xs.length + (k - xs.length) := by omega
      rw [hsum, hy _ hk', List.getElem_append_right (Nat.not_lt.mp hlt)]

/-- An element of a list whose elements are stored one after the other. -/
theorem HoldsAt.flatMap {β : Type*} {l : List β} {g : β → List α} (h : HoldsAt f o (l.flatMap g)) {i : Nat}
    (hi : i < l.length) : HoldsAt f (o + ((l.take i).flatMap g).length) (g l[i]) := by
  have hsplit : l.flatMap g = (l.take i).flatMap g ++ (g l[i] ++ (l.drop (i + 1)).flatMap g) := by
    rw [← List.flatMap_cons, List.getElem_cons_drop, ← List.flatMap_append, List.take_append_drop]
  rw [hsplit] at h
  exact (holdsAt_append.mp (holdsAt_append.mp h).2).1

end SisOp.Lib
