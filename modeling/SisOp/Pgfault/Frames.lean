/-
# `SisOp.Pgfault.Frames` — words in memory, and where frames lie

What a store leaves of the words loaded before and after it, and the geometry of the
exception stack: a fault pushes its frame below its stack pointer if that is on the
exception stack, else at the top (`Room.bounds`).  What a fault with stack pointer `t`
and its upcall write is never `Above t` (`Room.not_above`, `wordBelow_not_above`).
-/
import SisOp.Pgfault.Upcall

namespace SisOp.Pgfault

open SisOp.Jos SisOp.Lib

/-! ## Words in memory -/

section

variable {mem mem' : Word → Byte} {a b w x : Word}

theorem bytesWord_wordBytes (w : Word) : bytesWord (wordBytes w) = w := by
  refine BitVec.eq_of_getLsbD_eq fun i hi => ?_
  simp only [wordBytes, bytesWord, byteOf, BitVec.getLsbD_append, BitVec.getLsbD_extractLsb']
  by_cases h1 : i < 8
  · simp [h1]
  · by_cases h2 : i < 16
    · have hsub : 8 + (i - 8) = i := by omega
      simp [h1, hsub, show i - 8 < 8 by omega]
    · by_cases h3 : i < 24
      · have hsub : 16 + (i - 8 - 8) = i := by omega
        simp [h1, hsub, show ¬ i - 8 < 8 by omega, show i - 8 - 8 < 8 by omega]
      · have hsub : 24 + (i - 8 - 8 - 8) = i := by omega
        simp [h1, hsub, show ¬ i - 8 < 8 by omega, show ¬ i - 8 - 8 < 8 by omega,
          show i - 8 - 8 - 8 < 8 by omega]

theorem load_congr (h : ∀ x, InSpan a 4 x → mem' x = mem x) : load mem' a = load mem a := by
  have hk : ∀ k : Nat, k < 4 → InSpan a 4 (a + BitVec.ofNat 32 k) := by
    intro k hk
    rw [InSpan, BitVec.add_comm, BitVec.add_sub_cancel, BitVec.toNat_ofNat,
      Nat.mod_eq_of_lt (by omega)]
    exact hk
  rw [load, load, h a (by simpa using hk 0 (by decide)), h (a + 1) (hk 1 (by decide)),
    h (a + 2) (hk 2 (by decide)), h (a + 3) (hk 3 (by decide))]

theorem store_of_not (h : ¬ InSpan a 4 x) : store mem a w x = mem x := writeAt_of_not h

theorem store_ne (h : store mem a w x ≠ mem x) : InSpan a 4 x := writeAt_ne h

/-- A word, from its four bytes. -/
theorem load_eq (h : ∀ j < 4, mem (a + BitVec.ofNat 32 j) = byteOf w j) : load mem a = w := by
  have h0 : mem a = byteOf w 0 := by simpa using h 0 (by decide)
  have h1 : mem (a + 1) = byteOf w 1 := h 1 (by decide)
  have h2 : mem (a + 2) = byteOf w 2 := h 2 (by decide)
  have h3 : mem (a + 3) = byteOf w 3 := h 3 (by decide)
  rw [load, h0, h1, h2, h3]
  exact bytesWord_wordBytes w

theorem load_store : load (store mem a w) a = w := by
  refine load_eq fun j hj => ?_
  have hlen : j < (wordBytes w).length := hj
  rw [store, writeAt_add hlen (by omega)]
  interval_cases j <;> rfl

/-- A store elsewhere. -/
theorem load_store_of_ne (h : ∀ x, InSpan b 4 x → ¬ InSpan a 4 x) :
    load (store mem a w) b = load mem b :=
  load_congr fun x hx => store_of_not (h x hx)

theorem flatMap_getElem {ws : List Word} {i j : Nat} (hi : i < ws.length) (hj : j < 4)
    (hlt : 4 * i + j < (ws.flatMap wordBytes).length) :
    (ws.flatMap wordBytes)[4 * i + j] = byteOf ws[i] j := by
  induction ws generalizing i with
  | nil => exact absurd hi (Nat.not_lt_zero i)
  | cons v ws ih =>
    cases i with
    | zero =>
      have hj4 : j < (wordBytes v).length := hj
      simp only [List.flatMap_cons, Nat.mul_zero, Nat.zero_add, List.getElem_cons_zero]
      rw [List.getElem_append_left hj4]
      interval_cases j <;> rfl
    | succ i =>
      have hlen : (wordBytes v).length = 4 := rfl
      simp only [List.flatMap_cons, List.getElem_cons_succ]
      rw [List.getElem_append_right (by omega)]
      have hidx : 4 * (i + 1) + j - (wordBytes v).length = 4 * i + j := by omega
      simp only [hidx]
      exact ih (Nat.lt_of_succ_lt_succ hi) _

/-- The words of a frame. -/
theorem load_writeAt {ws : List Word} {i : Nat} (hi : i < ws.length) (hlen : 4 * ws.length ≤ 2 ^ 31) :
    load (writeAt mem a (ws.flatMap wordBytes)) (a + BitVec.ofNat 32 (4 * i)) = ws[i] := by
  have hlength : (ws.flatMap wordBytes).length = 4 * ws.length := by
    have hconst : (ws.map fun v => (wordBytes v).length) = ws.map fun _ => 4 := rfl
    rw [List.length_flatMap, hconst, List.map_const', List.sum_replicate_nat, Nat.mul_comm]
  refine load_eq fun j hj => ?_
  have hk : 4 * i + j < (ws.flatMap wordBytes).length := by omega
  rw [BitVec.add_assoc, ← BitVec.ofNat_add, writeAt_add hk (by omega)]
  exact flatMap_getElem hi hj hk

end

/-! ## Where frames lie -/

section

variable {t x : Word}

/-- `user_mem_assert` passes for the frame of a fault with this stack pointer. -/
def Room (t : Word) : Prop := ∀ x, InSpan (utf t) 56 x → MayWrite x

theorem mayWrite_iff : MayWrite x ↔
    x.toNat < 4005560320 ∧ ¬ (4005552128 ≤ x.toNat ∧ x.toNat < 4005556224) := Iff.rfl

/-- A span on the user stack side, or on the exception stack. -/
theorem mayWrite_span {n : Nat} (h : t.toNat + n ≤ 4005552128 ∨
    4005556224 ≤ t.toNat ∧ t.toNat + n ≤ 4005560320) (hx : InSpan t n x) : MayWrite x := by
  rw [inSpan_iff (by omega)] at hx
  rw [mayWrite_iff]
  omega

/-- The frame is in the exception stack, below the stack pointer if that is there too. -/
theorem Room.bounds (h : Room t) : 4005556224 ≤ (utf t).toNat ∧
    ((4005556224 ≤ t.toNat ∧ t.toNat ≤ 4005560320) ∧ (utf t).toNat + 56 = t.toNat ∨
      (t.toNat < 4005556224 ∨ 4005560320 < t.toNat) ∧ (utf t).toNat + 56 = 4005560320) := by
  have hfirst : MayWrite (utf t) := h _ (by simp [InSpan])
  rw [mayWrite_iff] at hfirst
  by_cases hon : t < UXSTACKTOP ∧ UXSTACKTOP - PGSIZE ≤ t
  · have hlow : 4005556224 ≤ t.toNat := hon.2
    have htop : t.toNat < 4005560320 := hon.1
    have hutf : (utf t).toNat = t.toNat - 56 := by
      rw [utf, utfTop, if_pos hon, BitVec.toNat_sub, show UTF_SIZE.toNat = 56 from rfl]
      omega
    omega
  · have hout : ¬ (t.toNat < 4005560320 ∧ 4005556224 ≤ t.toNat) := hon
    have hutf : (utf t).toNat = 4005560264 := by
      rw [utf, utfTop, if_neg hon]
      rfl
    omega

theorem Room.inSpan (h : Room t) {p n : Nat} (hp : p + n ≤ 56) :
    InSpan (utf t + BitVec.ofNat 32 p) n x ↔
      (utf t).toNat + p ≤ x.toNat ∧ x.toNat < (utf t).toNat + p + n := by
  have hb := h.bounds
  have hsum : (utf t + BitVec.ofNat 32 p).toNat = (utf t).toNat + p := by
    rw [BitVec.toNat_add, BitVec.toNat_ofNat]
    omega
  rw [inSpan_iff (by omega), hsum]

theorem Room.inSpan_frame (h : Room t) {n : Nat} (hn : n ≤ 56) :
    InSpan (utf t) n x ↔ (utf t).toNat ≤ x.toNat ∧ x.toNat < (utf t).toNat + n := by
  have hb := h.bounds
  exact inSpan_iff (by omega)

theorem Room.inSpan_below (h : Room t) {p n : Nat} (hp : n ≤ p) (hle : p ≤ 56) :
    InSpan (utf t - BitVec.ofNat 32 p) n x ↔
      (utf t).toNat - p ≤ x.toNat ∧ x.toNat < (utf t).toNat - p + n := by
  have hb := h.bounds
  have hsub : (utf t - BitVec.ofNat 32 p).toNat = (utf t).toNat - p := by
    rw [BitVec.toNat_sub, BitVec.toNat_ofNat]
    omega
  rw [inSpan_iff (by omega), hsub]

/-- The word below a stack pointer can be written: it does not wrap, and does not leave the
exception stack halfway. -/
theorem wordBelow (h : ∀ x, InSpan (t - 4) 4 x → MayWrite x) : 4 ≤ t.toNat ∧ t.toNat ≤ 4005560320 ∧
    ∀ x, InSpan (t - 4) 4 x ↔ t.toNat - 4 ≤ x.toNat ∧ x.toNat < t.toNat := by
  have hlt := t.isLt
  have hsub : (t - 4).toNat = (2 ^ 32 - 4 + t.toNat) % 2 ^ 32 := BitVec.toNat_sub ..
  have hsub1 : (t - 1).toNat = (2 ^ 32 - 1 + t.toNat) % 2 ^ 32 := BitVec.toNat_sub ..
  have hdist : (t - 1 - (t - 4)).toNat = 3 := by
    rw [BitVec.toNat_sub (t - 1), hsub, hsub1]
    omega
  have hfirst : MayWrite (t - 4) := h _ (by simp [InSpan])
  have hlast : MayWrite (t - 1) := h _ (by rw [InSpan, hdist]; decide)
  rw [mayWrite_iff] at hfirst hlast
  refine ⟨by omega, by omega, fun x => ?_⟩
  rw [inSpan_iff (by omega)]
  omega

/-- A byte that a fault with stack pointer `t` does not touch. -/
def Above (t x : Word) : Prop :=
  if UXSTACKTOP - PGSIZE ≤ t ∧ t ≤ UXSTACKTOP then
    x < UXSTACKTOP - PGSIZE ∨ UXSTACKTOP ≤ x ∨ t ≤ x
  else (x < UXSTACKTOP - PGSIZE ∨ UXSTACKTOP ≤ x) ∧ t ≤ x

theorem above_iff : Above t x ↔
    (4005556224 ≤ t.toNat ∧ t.toNat ≤ 4005560320 →
      x.toNat < 4005556224 ∨ 4005560320 ≤ x.toNat ∨ t.toNat ≤ x.toNat) ∧
    (¬ (4005556224 ≤ t.toNat ∧ t.toNat ≤ 4005560320) →
      (x.toNat < 4005556224 ∨ 4005560320 ≤ x.toNat) ∧ t.toNat ≤ x.toNat) := by
  have hon : (UXSTACKTOP - PGSIZE ≤ t ∧ t ≤ UXSTACKTOP) ↔
      4005556224 ≤ t.toNat ∧ t.toNat ≤ 4005560320 := Iff.rfl
  have h1 : (x < UXSTACKTOP - PGSIZE) ↔ x.toNat < 4005556224 := Iff.rfl
  have h2 : (UXSTACKTOP ≤ x) ↔ 4005560320 ≤ x.toNat := Iff.rfl
  have h3 : (t ≤ x) ↔ t.toNat ≤ x.toNat := Iff.rfl
  rw [Above]
  split
  · next h =>
    rw [hon] at h
    rw [h1, h2, h3]
    simp [h]
  · next h =>
    rw [hon] at h
    rw [h1, h2, h3]
    simp only [h, not_false_eq_true, true_implies, false_implies, true_and]

/-- The frame, and what the upcall pushes below it, are not above the stack pointer. -/
theorem Room.not_above (h : Room t) (hlow : 4005556224 ≤ x.toNat)
    (hhigh : x.toNat < (utf t).toNat + 56) : ¬ Above t x := by
  have hb := h.bounds
  rw [above_iff]
  omega

theorem wordBelow_not_above (h : ∀ x, InSpan (t - 4) 4 x → MayWrite x) (hroom : Room t)
    (hx : InSpan (t - 4) 4 x) : ¬ Above t x := by
  obtain ⟨h4, htop, hspan⟩ := wordBelow h
  have hb := hroom.bounds
  rw [hspan] at hx
  rw [above_iff]
  omega

/-- The word below the stack pointer is not in the frame. -/
theorem wordBelow_not_frame (h : ∀ x, InSpan (t - 4) 4 x → MayWrite x) (hroom : Room t)
    (hx : InSpan (t - 4) 4 x) : ¬ InSpan (utf t) 52 x := by
  obtain ⟨h4, htop, hspan⟩ := wordBelow h
  have hb := hroom.bounds
  rw [hspan] at hx
  rw [hroom.inSpan_frame (by decide)]
  omega

end

end SisOp.Pgfault
