/-
# `SisOp.Lib.Slots` — a table of numbered slots

A slot holds a value or is free, and all slots past some number are free, so there is a
lowest free one.
-/
import Mathlib.Data.List.Basic

namespace SisOp.Lib

/-- The slots up to some number; the ones past the end are free. -/
abbrev Slots (α : Type) := List (Option α)

namespace Slots

variable {α : Type}

def get (t : Slots α) (n : Nat) : Option α := t.getD n none

/-- Slot `n` becomes `v`. -/
def put : Slots α → Nat → Option α → Slots α
  | [], 0, v => [v]
  | [], n + 1, v => none :: put [] n v
  | _ :: t, 0, v => v :: t
  | a :: t, n + 1, v => a :: put t n v

/-- The lowest free slot. -/
def lowest (t : Slots α) : Nat := t.findIdx (·.isNone)

@[simp] theorem get_put_self (t : Slots α) (n : Nat) (v : Option α) : (t.put n v).get n = v := by
  induction t, n, v using put.induct with
  | case1 v => rfl
  | case2 n v ih => exact ih
  | case3 a t v => rfl
  | case4 a t n v ih => exact ih

theorem get_put_ne (t : Slots α) {n m : Nat} (h : m ≠ n) (v : Option α) :
    (t.put n v).get m = t.get m := by
  induction t, n, v using put.induct generalizing m with
  | case1 v =>
    cases m with
    | zero => exact absurd rfl h
    | succ m => rfl
  | case2 n v ih =>
    cases m with
    | zero => rfl
    | succ m => exact ih (fun heq => h (congrArg _ heq))
  | case3 a t v =>
    cases m with
    | zero => exact absurd rfl h
    | succ m => rfl
  | case4 a t n v ih =>
    cases m with
    | zero => rfl
    | succ m => exact ih (fun heq => h (congrArg _ heq))

theorem get_put (t : Slots α) (n m : Nat) (v : Option α) :
    (t.put n v).get m = if m = n then v else t.get m := by
  by_cases h : m = n
  · subst h
    rw [get_put_self, if_pos rfl]
  · rw [get_put_ne t h, if_neg h]

theorem get_cons_zero (a : Option α) (t : Slots α) : get (a :: t) 0 = a := rfl

theorem get_cons_succ (a : Option α) (t : Slots α) (n : Nat) : get (a :: t) (n + 1) = t.get n := rfl

theorem lowest_cons_none (t : Slots α) : lowest (none :: t) = 0 := rfl

theorem lowest_cons_some (a : α) (t : Slots α) : lowest (some a :: t) = t.lowest + 1 := by
  simp [lowest, List.findIdx_cons]

/-- The lowest free slot is free. -/
@[simp] theorem get_lowest (t : Slots α) : t.get t.lowest = none := by
  induction t with
  | nil => rfl
  | cons a t ih =>
    cases a with
    | none => rfl
    | some a => rw [lowest_cons_some, get_cons_succ, ih]

/-- The slots below the lowest free one are taken. -/
theorem isSome_of_lt_lowest {t : Slots α} {n : Nat} (h : n < t.lowest) :
    (t.get n).isSome = true := by
  induction t generalizing n with
  | nil => exact absurd h (Nat.not_lt_zero _)
  | cons a t ih =>
    cases a with
    | none => exact absurd h (Nat.not_lt_zero _)
    | some a =>
      rw [lowest_cons_some] at h
      cases n with
      | zero => rfl
      | succ n => exact ih (Nat.lt_of_succ_lt_succ h)

theorem lt_lowest {t : Slots α} {n : Nat} (h : ∀ m, m ≤ n → (t.get m).isSome = true) :
    n < t.lowest := by
  by_contra hle
  have hsome := h t.lowest (Nat.le_of_not_lt hle)
  rw [get_lowest] at hsome
  cases hsome

/-! ## A table with other values -/

variable {β : Type}

/-- The same slots taken. -/
def mapVal (f : α → β) (t : Slots α) : Slots β := t.map (Option.map f)

@[simp] theorem get_mapVal (f : α → β) (t : Slots α) (n : Nat) :
    (t.mapVal f).get n = (t.get n).map f := by
  induction t generalizing n with
  | nil => rfl
  | cons a t ih =>
    cases n with
    | zero => rfl
    | succ n => exact ih n

@[simp] theorem lowest_mapVal (f : α → β) (t : Slots α) : (t.mapVal f).lowest = t.lowest := by
  induction t with
  | nil => rfl
  | cons a t ih =>
    cases a with
    | none => rfl
    | some a =>
      have hmap : mapVal f (some a :: t) = some (f a) :: mapVal f t := rfl
      rw [hmap, lowest_cons_some, lowest_cons_some, ih]

end Slots

end SisOp.Lib
