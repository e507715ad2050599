/-
# `SisOp.Lib.RefPool` — a pool of reference-counted objects

Objects with a counter of `w` bits and a link field; those nobody uses are
chained on a free list.  The references are a finite family of slots
`tgt : R → Option P`, plus the list `held` of those a procedure holds while it
moves them from one slot to another.  `Pool` says that counters, free list and
references agree:

* the free list is a chain of objects nobody refers to, and no other object has a
  link;
* a counter is the number of references, modulo `2 ^ w`;
* the objects of `Fixed` are never counted, referred to or free;
* the slots in `Sole` do not share their object with anything.

One lemma per move: `Pool.alloc`, `push`, `hold`, `drop`, `link`, `unlink`.  The
width of the counter matters to `drop` alone.
-/
import SisOp.Lib.Chain
import SisOp.Lib.RefCount
import Mathlib.Algebra.Group.Nat.Defs
import Mathlib.Data.List.Count

namespace SisOp.Lib

variable {R P : Type*} [Fintype R] [DecidableEq P] {w : Nat}

/-- The references to `p`, in slots and held. -/
def total (tgt : R → Option P) (held : List P) (p : P) : Nat := refs tgt p + held.count p

structure Pool (Fixed : P → Prop) (Sole : R → Prop) (tgt : R → Option P) (held : List P)
    (cnt : P → BitVec w) (next : P → Option P) (head : Option P) (l : List P) : Prop where
  chain : Chain next head l
  off : ∀ p, p ∉ l → next p = none
  fixed : ∀ p, Fixed p → p ∉ l ∧ total tgt held p = 0
  free : ∀ p, p ∈ l → total tgt held p = 0
  count : ∀ p, ¬ Fixed p → cnt p = BitVec.ofNat w (total tgt held p)
  sole : ∀ r p, Sole r → tgt r = some p → total tgt held p = 1

/-! ## Totals -/

section Total

variable {tgt : R → Option P} {held : List P} {p a : P} {r : R}

theorem total_eq_zero : total tgt held p = 0 ↔ (∀ r, tgt r ≠ some p) ∧ p ∉ held := by
  rw [total, Nat.add_eq_zero_iff, refs_eq_zero, List.count_eq_zero]

theorem total_pos (h : tgt r = some p) : 0 < total tgt held p :=
  Nat.lt_of_lt_of_le (refs_pos h) (Nat.le_add_right _ _)

theorem total_cons (a : P) :
    total tgt (a :: held) p = total tgt held p + if a = p then 1 else 0 := by
  simp only [total, List.count_cons, beq_iff_eq]
  omega

theorem total_cons_self (a : P) : total tgt (a :: held) a = total tgt held a + 1 := by
  rw [total_cons, if_pos rfl]

theorem total_cons_of_ne (h : a ≠ p) : total tgt (a :: held) p = total tgt held p := by
  rw [total_cons, if_neg h, Nat.add_zero]

variable [DecidableEq R]

/-- Putting a held reference into an empty slot. -/
theorem total_link (hr : tgt r = none) :
    total (Function.update tgt r (some a)) held p = total tgt (a :: held) p := by
  have h := refs_update tgt r (some a) p
  rw [hr] at h
  simp only [reduceCtorEq, if_false, Option.some.injEq] at h
  rw [total_cons, total, total]
  omega

/-- Taking the reference out of a slot. -/
theorem total_unlink (hr : tgt r = some a) :
    total (Function.update tgt r none) (a :: held) p = total tgt held p := by
  have h := refs_update tgt r none p
  rw [hr] at h
  simp only [reduceCtorEq, if_false, Option.some.injEq] at h
  rw [total_cons, total, total]
  omega

end Total

namespace Pool

variable {Fixed : P → Prop} {Sole : R → Prop} {tgt : R → Option P} {held : List P}
  {cnt : P → BitVec w} {next : P → Option P} {head : Option P} {l : List P} {a : P} {r : R}

theorem nodup (h : Pool Fixed Sole tgt held cnt next head l) : l.Nodup := h.chain.nodup

theorem not_free (h : Pool Fixed Sole tgt held cnt next head l) (ha : 0 < total tgt held a) :
    a ∉ l := fun hl => by
  have := h.free a hl
  omega

theorem not_fixed (h : Pool Fixed Sole tgt held cnt next head l) (ha : 0 < total tgt held a) :
    ¬ Fixed a := fun hs => by
  have := (h.fixed a hs).2
  omega

/-- The first free object leaves the list. -/
theorem alloc (h : Pool Fixed Sole tgt held cnt next (some a) l) :
    ∃ t, l = a :: t ∧ a ∉ t ∧ ¬ Fixed a ∧ total tgt held a = 0 ∧
      Pool Fixed Sole tgt held cnt (Function.update next a none) (next a) t := by
  obtain ⟨t, rfl, ht⟩ := h.chain.of_some
  have hat : a ∉ t := (List.nodup_cons.mp h.nodup).1
  refine ⟨t, rfl, hat, fun hs => (h.fixed a hs).1 List.mem_cons_self,
    h.free a List.mem_cons_self, ?_⟩
  exact
    { chain := ht.update hat
      off := fun p hp => by
        rcases eq_or_ne p a with rfl | hpa
        · exact Function.update_self ..
        · rw [Function.update_of_ne hpa]
          exact h.off p (by simp [hpa, hp])
      fixed := fun p hs => ⟨fun hp => (h.fixed p hs).1 (List.mem_cons_of_mem _ hp),
        (h.fixed p hs).2⟩
      free := fun p hp => h.free p (List.mem_cons_of_mem _ hp)
      count := h.count
      sole := h.sole }

/-- An object without references goes in front of the list. -/
theorem push (h : Pool Fixed Sole tgt held cnt next head l) (hl : a ∉ l) (hs : ¬ Fixed a)
    (h0 : total tgt held a = 0) :
    Pool Fixed Sole tgt held cnt (Function.update next a head) (some a) (a :: l) where
  chain := h.chain.push hl
  off := fun p hp => by
    have hpa : p ≠ a := fun heq => hp (heq ▸ List.mem_cons_self)
    rw [Function.update_of_ne hpa]
    exact h.off p fun hp' => hp (List.mem_cons_of_mem _ hp')
  fixed := fun p hp => by
    refine ⟨fun hmem => ?_, (h.fixed p hp).2⟩
    rcases List.mem_cons.mp hmem with rfl | hmem
    · exact hs hp
    · exact (h.fixed p hp).1 hmem
  free := fun p hp => by
    rcases List.mem_cons.mp hp with rfl | hp
    · exact h0
    · exact h.free p hp
  count := h.count
  sole := h.sole

/-- A new reference, held: the counter goes up. -/
theorem hold (h : Pool Fixed Sole tgt held cnt next head l) (hl : a ∉ l) (hs : ¬ Fixed a)
    (hsole : ∀ r, Sole r → tgt r ≠ some a) :
    Pool Fixed Sole tgt (a :: held) (Function.update cnt a (cnt a + 1)) next head l where
  chain := h.chain
  off := h.off
  fixed := fun p hp => by
    have hne : a ≠ p := fun heq => hs (heq ▸ hp)
    rw [total_cons_of_ne hne]
    exact h.fixed p hp
  free := fun p hp => by
    have hne : a ≠ p := fun heq => hl (heq ▸ hp)
    rw [total_cons_of_ne hne]
    exact h.free p hp
  count := fun p hp => by
    rcases eq_or_ne p a with rfl | hpa
    · rw [Function.update_self, h.count p hp, total_cons_self, BitVec.ofNat_add]
      rfl
    · rw [Function.update_of_ne hpa, h.count p hp, total_cons_of_ne hpa.symm]
  sole := fun r p hr hrp => by
    have hne : a ≠ p := fun heq => hsole r hr (heq ▸ hrp)
    rw [total_cons_of_ne hne]
    exact h.sole r p hr hrp

/-- A held reference is given up and the counter goes down.  Whether it was the last one can
be read off the counter as long as the references fit in it. -/
theorem drop (h : Pool Fixed Sole tgt (a :: held) cnt next head l)
    (hfit : total tgt (a :: held) a < 2 ^ w) :
    Pool Fixed Sole tgt held (Function.update cnt a (cnt a - 1)) next head l ∧
      a ∉ l ∧ ¬ Fixed a ∧ (cnt a - 1 = 0 ↔ total tgt held a = 0) := by
  have htotal : total tgt (a :: held) a = total tgt held a + 1 := total_cons_self a
  have hl : a ∉ l := h.not_free (by omega)
  have hs : ¬ Fixed a := h.not_fixed (by omega)
  have hcnt : cnt a - 1 = BitVec.ofNat w (total tgt held a) := by
    rw [h.count a hs, htotal, BitVec.ofNat_add]
    exact BitVec.add_sub_cancel _ _
  refine ⟨?_, hl, hs, ?_⟩
  · exact
      { chain := h.chain
        off := h.off
        fixed := fun p hp => by
          have hold := h.fixed p hp
          rw [total_cons] at hold
          exact ⟨hold.1, by omega⟩
        free := fun p hp => by
          have hold := h.free p hp
          rw [total_cons] at hold
          omega
        count := fun p hp => by
          rcases eq_or_ne p a with rfl | hpa
          · rw [Function.update_self, hcnt]
          · rw [Function.update_of_ne hpa, h.count p hp, total_cons_of_ne hpa.symm]
        sole := fun r p hr hrp => by
          have hold := h.sole r p hr hrp
          have hpos : 0 < total tgt held p := total_pos hrp
          rw [total_cons] at hold
          omega }
  · rw [hcnt]
    constructor
    · intro h0
      have hmod : (BitVec.ofNat w (total tgt held a)).toNat = 0 := by simp [h0]
      rwa [BitVec.toNat_ofNat, Nat.mod_eq_of_lt (by omega)] at hmod
    · intro h0
      rw [h0]
      rfl

variable [DecidableEq R]

/-- A held reference is stored in an empty slot. -/
theorem link (h : Pool Fixed Sole tgt (a :: held) cnt next head l) (hr : tgt r = none)
    (hsole : Sole r → total tgt (a :: held) a = 1) :
    Pool Fixed Sole (Function.update tgt r (some a)) held cnt next head l where
  chain := h.chain
  off := h.off
  fixed := fun p hp => by
    rw [total_link hr]
    exact h.fixed p hp
  free := fun p hp => by
    rw [total_link hr]
    exact h.free p hp
  count := fun p hp => by
    rw [total_link hr]
    exact h.count p hp
  sole := fun s p hs hsp => by
    rw [total_link hr]
    rcases eq_or_ne s r with rfl | hne
    · rw [Function.update_self] at hsp
      obtain rfl := Option.some.inj hsp
      exact hsole hs
    · rw [Function.update_of_ne hne] at hsp
      exact h.sole s p hs hsp

/-- The reference in a slot is taken out, and held. -/
theorem unlink (h : Pool Fixed Sole tgt held cnt next head l) (hr : tgt r = some a) :
    Pool Fixed Sole (Function.update tgt r none) (a :: held) cnt next head l where
  chain := h.chain
  off := h.off
  fixed := fun p hp => by
    rw [total_unlink hr]
    exact h.fixed p hp
  free := fun p hp => by
    rw [total_unlink hr]
    exact h.free p hp
  count := fun p hp => by
    rw [total_unlink hr]
    exact h.count p hp
  sole := fun s p hs hsp => by
    rw [total_unlink hr]
    have hne : s ≠ r := by
      rintro rfl
      rw [Function.update_self] at hsp
      cases hsp
    rw [Function.update_of_ne hne] at hsp
    exact h.sole s p hs hsp

end Pool

end SisOp.Lib
