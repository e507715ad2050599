/-
# `SisOp.Lib.Ring` — a bounded buffer with free-running positions

A ring of `cap` slots between a producer and a consumer that count what they have
put in and taken out, and never reset the counts.  `Holds slot sent r` says that
of the sequence `sent` the slots hold what comes after the first `r` items.  The
producer's move is `Holds.push`, the consumer's `Holds.front` and `Holds.pop`.
-/
import Mathlib.Data.List.TakeDrop
import Mathlib.Data.Nat.ModEq

namespace SisOp.Lib

variable {α : Type*} {cap : ℕ} [NeZero cap]

/-- Of `sent`, the slots hold all but the first `r` items. -/
structure Holds (slot : Fin cap → α) (sent : List α) (r : ℕ) : Prop where
  behind : r ≤ sent.length
  room : sent.length ≤ r + cap
  held : ∀ i, r ≤ i → ∀ h : i < sent.length, slot (Fin.ofNat cap i) = sent.get ⟨i, h⟩

namespace Holds

variable {slot : Fin cap → α} {sent : List α} {r : ℕ}

theorem empty (slot : Fin cap → α) : Holds slot [] 0 where
  behind := le_rfl
  room := Nat.zero_le _
  held := fun _ _ h => absurd h (Nat.not_lt_zero _)

/-- Two positions less than `cap` apart use different slots. -/
theorem slot_ne {i j : ℕ} (hij : i < j) (hj : j < i + cap) :
    Fin.ofNat cap i ≠ Fin.ofNat cap j := by
  intro heq
  have hmod : i % cap = j % cap := congrArg Fin.val heq
  have hdvd : cap ∣ j - i := (Nat.modEq_iff_dvd' hij.le).mp hmod
  have hle := Nat.le_of_dvd (by omega) hdvd
  omega

/-- The producer stores the next item in the slot of its position. -/
theorem push (h : Holds slot sent r) (hroom : sent.length < r + cap) (a : α) :
    Holds (Function.update slot (Fin.ofNat cap sent.length) a) (sent ++ [a]) r where
  behind := by
    rw [List.length_append]
    exact h.behind.trans (Nat.le_add_right _ _)
  room := by
    rw [List.length_append, List.length_singleton]
    omega
  held := fun i hr hi => by
    rw [List.length_append, List.length_singleton] at hi
    rcases Nat.lt_succ_iff_lt_or_eq.mp hi with hlt | rfl
    · have hne : Fin.ofNat cap i ≠ Fin.ofNat cap sent.length := slot_ne hlt (by omega)
      rw [Function.update_of_ne hne, h.held i hr hlt]
      simp [List.getElem_append_left hlt]
    · simp

/-- What the consumer finds in the slot of its position. -/
theorem front (h : Holds slot sent r) (hr : r < sent.length) :
    slot (Fin.ofNat cap r) = sent.get ⟨r, hr⟩ :=
  h.held r le_rfl hr

/-- The consumer moves on. -/
theorem pop (h : Holds slot sent r) (hr : r < sent.length) : Holds slot sent (r + 1) where
  behind := hr
  room := by
    have hroom := h.room
    omega
  held := fun i hi => h.held i (by omega)

/-- With the item taken, the prefix that was consumed grows by it. -/
theorem take_succ (h : Holds slot sent r) (hr : r < sent.length) :
    sent.take (r + 1) = sent.take r ++ [slot (Fin.ofNat cap r)] := by
  rw [h.front hr]
  exact (List.take_concat_get' sent r hr).symm

end Holds

end SisOp.Lib
