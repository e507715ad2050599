/-
# `SisOp.Lib.Span` — consecutive cells of a memory addressed by machine words

The addresses from `a` on wrap around at the end of the address space, so that a span
is told by the distance from its first address (`InSpan`).  `writeAt` stores a list of
cells; what it leaves is read back by position (`writeAt_add`) and is as before outside
the span (`writeAt_of_not`).
-/
import Mathlib.Data.List.GetD
import Mathlib.Tactic.Linarith

namespace SisOp.Lib

variable {w : Nat} {α : Type*}

/-- `x` is one of the `n` addresses from `a` on. -/
def InSpan (a : BitVec w) (n : Nat) (x : BitVec w) : Prop := (x - a).toNat < n

instance decidableInSpan (a : BitVec w) (n : Nat) : DecidablePred (InSpan a n) := fun x =>
  inferInstanceAs (Decidable ((x - a).toNat < n))

/-- A span that does not wrap. -/
theorem inSpan_iff {a x : BitVec w} {n : Nat} (h : a.toNat + n ≤ 2 ^ w) :
    InSpan a n x ↔ a.toNat ≤ x.toNat ∧ x.toNat < a.toNat + n := by
  have hx := x.isLt
  have ha := a.isLt
  rw [InSpan, BitVec.toNat_sub]
  rcases Nat.lt_or_ge x.toNat a.toNat with hlt | hge
  · rw [Nat.mod_eq_of_lt (by omega)]
    omega
  · have hsum : 2 ^ w - a.toNat + x.toNat = x.toNat - a.toNat + 2 ^ w := by omega
    rw [hsum, Nat.add_mod_right, Nat.mod_eq_of_lt (by omega)]
    omega

/-- `mem[a ..] = cells`. -/
def writeAt (mem : BitVec w → α) (a : BitVec w) (cells : List α) : BitVec w → α := fun x =>
  cells.getD (x - a).toNat (mem x)

variable {mem : BitVec w → α} {a x : BitVec w} {cells : List α}

theorem writeAt_of_not (h : ¬ InSpan a cells.length x) : writeAt mem a cells x = mem x :=
  List.getD_eq_default _ _ (Nat.le_of_not_lt h)

theorem writeAt_ne (h : writeAt mem a cells x ≠ mem x) : InSpan a cells.length x := by
  by_contra hn
  exact h (writeAt_of_not hn)

/-- The `k`-th cell of the span. -/
theorem writeAt_add {k : Nat} (hk : k < cells.length) (hw : k < 2 ^ w) :
    writeAt mem a cells (a + BitVec.ofNat w k) = cells[k] := by
  have hsub : (a + BitVec.ofNat w k - a).toNat = k := by
    rw [BitVec.add_comm, BitVec.add_sub_cancel, BitVec.toNat_ofNat, Nat.mod_eq_of_lt hw]
  rw [writeAt, hsub]
  exact List.getD_eq_getElem _ _ hk

end SisOp.Lib
