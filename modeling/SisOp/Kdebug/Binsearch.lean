/-
# `SisOp.Kdebug.Binsearch` — the search of the debugger's tables

`stab_binsearch` (`kern/kdebug.c`) looks for the entry of one type that contains
an address, in a table where entries of every type are mixed.  It bisects the
region; at the midpoint it steps back to an entry of the type (`scanBack`).  On
an entry equal to the address it does not stop: it goes on to the right of it
with the address plus one.

A turn of its loop is `turn`, and `turn_cases` says what a turn may do; the rest
of the module uses nothing else of it.  The loop ends on every table
(`searchLoop_total`).
-/
import SisOp.Jos.Mmu

namespace SisOp.Kdebug

open SisOp.Jos (Word Byte)

/-! ## The code -/

/-- `struct Stab`, less `n_other`, which nothing reads. -/
structure Stab where
  nStrx : Word
  nType : Byte
  nDesc : BitVec 16
  nValue : Word

section Code

variable (stabs : Int → Stab) (type : Byte)

/-- `while (m >= lo && stabs[m].n_type != type) m--`, for `n = m - lo + 1`. -/
def scanBack : Nat → Int → Int
  | 0, m => m
  | n + 1, m => if (stabs m).nType ≠ type then scanBack n (m - 1) else m

/-- The entries that loop looks at. -/
def scanned : Nat → Int → List Int
  | 0, _ => []
  | n + 1, m => m :: if (stabs m).nType ≠ type then scanned n (m - 1) else []

/-- The variables of `stab_binsearch`; `left` and `right` are `*region_left` and
`*region_right`, and `seen` the entries read so far. -/
structure Search where
  l : Int
  r : Int
  left : Int
  right : Int
  addr : Word
  anyMatches : Bool
  seen : List Int

/-- `true_m`. -/
def mid (l r : Int) : Int := (l + r).tdiv 2

/-- One turn of the `while` loop. -/
def turn (s : Search) : Search :=
  let trueM := mid s.l s.r
  let n := (trueM - s.l + 1).toNat
  let m := scanBack stabs type n trueM
  let s := { s with seen := s.seen ++ scanned stabs type n trueM }
  if m < s.l then { s with l := trueM + 1 }
  else if (stabs m).nValue < s.addr then
    { s with anyMatches := true, left := m, l := trueM + 1 }
  else if s.addr < (stabs m).nValue then
    { s with anyMatches := true, right := m - 1, r := m - 1 }
  else
    { s with anyMatches := true, left := m, l := m, addr := s.addr + 1 }

/-- The `while` loop; two turns an entry are enough (`searchLoop_total`). -/
def searchLoop : Nat → Search → Except String Search
  | 0, _ => .error "stab_binsearch: out of fuel"
  | n + 1, s => if s.l ≤ s.r then searchLoop n (turn stabs type s) else .ok s

/-- `stab_binsearch(stabs, &left, &right, type, addr)`: `*region_left`, `*region_right` and the
entries read. -/
def stabBinsearch (left right : Int) (addr : Word) : Except String (Int × Int × List Int) := do
  let s ← searchLoop stabs type (2 * (right - left + 1).toNat + 1)
    ⟨left, right, left, right, addr, false, []⟩
  if ¬ s.anyMatches then return (s.left, s.left - 1, s.seen)
  else
    let n := (s.right - s.left).toNat
    return (scanBack stabs type n s.right, s.right, s.seen ++ scanned stabs type n s.right)

end Code

/-! ## One turn -/

variable {stabs : Int → Stab} {type : Byte}

theorem scanBack_cases (stabs : Int → Stab) (type : Byte) (n : Nat) : ∀ m : Int,
    (scanBack stabs type n m = m - n ∧ ∀ i, m - n < i → i ≤ m → (stabs i).nType ≠ type) ∨
      (m - n < scanBack stabs type n m ∧ scanBack stabs type n m ≤ m ∧
        (stabs (scanBack stabs type n m)).nType = type ∧
        ∀ i, scanBack stabs type n m < i → i ≤ m → (stabs i).nType ≠ type) := by
  induction n with
  | zero => exact fun m => Or.inl ⟨(Int.sub_zero m).symm, fun i h1 h2 => absurd h1 (by omega)⟩
  | succ n ih =>
      intro m
      by_cases ht : (stabs m).nType = type
      · have hstop : scanBack stabs type (n + 1) m = m := by
          rw [scanBack, if_neg (not_not_intro ht)]
        rw [hstop]
        exact Or.inr ⟨by omega, Int.le_refl m, ht, fun i h1 h2 => absurd h1 (by omega)⟩
      · have hback : scanBack stabs type (n + 1) m = scanBack stabs type n (m - 1) := by
          rw [scanBack, if_pos ht]
        have hext : ∀ {lo : Int}, (∀ i, lo < i → i ≤ m - 1 → (stabs i).nType ≠ type) →
            ∀ i, lo < i → i ≤ m → (stabs i).nType ≠ type := by
          intro lo h i h1 h2
          by_cases hi : i = m
          · rwa [hi]
          · exact h i h1 (by omega)
        rw [hback]
        obtain ⟨heq, hno⟩ | ⟨hlo, hhi, hty, hno⟩ := ih (m - 1)
        · refine Or.inl ⟨by omega, hext fun i h1 h2 => hno i (by omega) h2⟩
        · exact Or.inr ⟨by omega, by omega, hty, hext hno⟩

/-- No entry of the type in `[l, t]`. -/
def Bare (stabs : Int → Stab) (type : Byte) (l t : Int) : Prop :=
  ∀ i, l ≤ i → i ≤ t → (stabs i).nType ≠ type

/-- `m` is the last entry of the type in `[l, t]`. -/
structure Probe (stabs : Int → Stab) (type : Byte) (l t m : Int) : Prop where
  ge : l ≤ m
  le : m ≤ t
  type_eq : (stabs m).nType = type
  bare : Bare stabs type (m + 1) t

theorem mid_bounds {l r : Int} (h : l ≤ r) : l ≤ mid l r ∧ mid l r ≤ r := by
  have hdiv := Int.mul_tdiv_add_tmod (l + r) 2
  have hlo := Int.lt_tmod_of_pos (l + r) (b := 2) (by decide)
  have hhi := Int.tmod_lt_of_pos (l + r) (b := 2) (by decide)
  rw [mid]
  omega

/-- What a turn may do: the first half holds no entry of the type, or its last one is below the
address, above it, or equal to it. -/
theorem turn_cases (stabs : Int → Stab) (type : Byte) (s : Search) (h : s.l ≤ s.r) : ∃ seen,
    (Bare stabs type s.l (mid s.l s.r) ∧
      turn stabs type s = { s with l := mid s.l s.r + 1, seen := seen }) ∨
    ∃ m, Probe stabs type s.l (mid s.l s.r) m ∧
      (((stabs m).nValue < s.addr ∧ turn stabs type s =
          { s with anyMatches := true, left := m, l := mid s.l s.r + 1, seen := seen }) ∨
        (s.addr < (stabs m).nValue ∧ turn stabs type s =
          { s with anyMatches := true, right := m - 1, r := m - 1, seen := seen }) ∨
        ((stabs m).nValue = s.addr ∧ turn stabs type s =
          { s with anyMatches := true, left := m, l := m, addr := s.addr + 1, seen := seen })) := by
  have hmid := mid_bounds h
  refine ⟨s.seen ++ scanned stabs type (mid s.l s.r - s.l + 1).toNat (mid s.l s.r), ?_⟩
  obtain ⟨heq, hno⟩ | ⟨hlo, hhi, hty, hno⟩ :=
    scanBack_cases stabs type (mid s.l s.r - s.l + 1).toNat (mid s.l s.r)
  · refine Or.inl ⟨fun i h1 h2 => hno i (by omega) h2, ?_⟩
    have hlt : scanBack stabs type (mid s.l s.r - s.l + 1).toNat (mid s.l s.r) < s.l := by omega
    rw [turn]
    exact if_pos hlt
  · refine Or.inr ⟨_, ⟨by omega, hhi, hty, fun i h1 h2 => hno i (by omega) h2⟩, ?_⟩
    have hge : ¬ scanBack stabs type (mid s.l s.r - s.l + 1).toNat (mid s.l s.r) < s.l := by omega
    rw [turn]
    generalize hm : scanBack stabs type (mid s.l s.r - s.l + 1).toNat (mid s.l s.r) = m at hge ⊢
    by_cases hlt : (stabs m).nValue < s.addr
    · refine Or.inl ⟨hlt, ?_⟩
      exact (if_neg hge).trans (if_pos hlt)
    by_cases hgt : s.addr < (stabs m).nValue
    · refine Or.inr (Or.inl ⟨hgt, ?_⟩)
      exact (if_neg hge).trans ((if_neg hlt).trans (if_pos hgt))
    · refine Or.inr (Or.inr ⟨BitVec.le_antisymm (BitVec.not_lt.mp hgt) (BitVec.not_lt.mp hlt), ?_⟩)
      exact (if_neg hge).trans ((if_neg hlt).trans (if_neg hgt))

/-! ## The loop ends -/

theorem searchLoop_go {n : Nat} {s : Search} (h : s.l ≤ s.r) :
    searchLoop stabs type (n + 1) s = searchLoop stabs type n (turn stabs type s) :=
  if_pos h

theorem searchLoop_done {n : Nat} {s : Search} (h : s.r < s.l) :
    searchLoop stabs type (n + 1) s = .ok s :=
  if_neg (by omega)

/-- A turn halves the region, or takes an entry equal to the address, and the next turn does
not take that entry again. -/
theorem searchLoop_total (stabs : Int → Stab) (type : Byte) (n : Nat) :
    ∀ (f : Nat) (s : Search), (s.r - s.l + 1).toNat ≤ n → 2 * n + 1 ≤ f →
      ∃ s', searchLoop stabs type f s = .ok s' := by
  induction n with
  | zero =>
      intro f s hn hf
      obtain ⟨f, rfl⟩ : ∃ g, f = g + 1 := ⟨f - 1, by omega⟩
      exact ⟨s, searchLoop_done (by omega)⟩
  | succ n ih =>
      intro f s hn hf
      obtain ⟨f, rfl⟩ : ∃ g, f = g + 2 := ⟨f - 2, by omega⟩
      by_cases h : s.l ≤ s.r
      swap
      · exact ⟨s, searchLoop_done (by omega)⟩
      rw [searchLoop_go h]
      have hmid := mid_bounds h
      obtain ⟨seen, ⟨-, hs⟩ | ⟨m, hp, ⟨-, hs⟩ | ⟨-, hs⟩ | ⟨heq, hs⟩⟩⟩ := turn_cases stabs type s h
      · rw [hs]
        exact ih (f + 1) _ (by simp only; omega) (by omega)
      · rw [hs]
        exact ih (f + 1) _ (by simp only; omega) (by omega)
      · rw [hs]
        have := hp.le
        exact ih (f + 1) _ (by simp only; omega) (by omega)
      · -- the turn that takes `m` may leave the region as it was
        have hge := hp.ge
        have hle := hp.le
        generalize hs1 : turn stabs type s = s1 at hs
        have hl1 : s1.l = m := by rw [hs]
        have hr1 : s1.r = s.r := by rw [hs]
        have ha1 : s1.addr = s.addr + 1 := by rw [hs]
        have h1 : s1.l ≤ s1.r := by omega
        have hmid1 := mid_bounds h1
        rw [searchLoop_go h1]
        obtain ⟨seen1, ⟨hbare, -⟩ | ⟨k, hk, ⟨-, hs2⟩ | ⟨-, hs2⟩ | ⟨heq2, hs2⟩⟩⟩ :=
          turn_cases stabs type s1 h1
        · exact absurd hp.type_eq (hbare m (by omega) (by omega))
        · rw [hs2]
          exact ih f _ (by simp only; omega) (by omega)
        · rw [hs2]
          have := hk.le
          exact ih f _ (by simp only; omega) (by omega)
        · have hne : k ≠ m := by
            rintro rfl
            rw [heq, ha1] at heq2
            have := congrArg BitVec.toNat heq2
            rw [BitVec.toNat_add] at this
            simp at this
            omega
          rw [hs2]
          have := hk.ge
          exact ih f _ (by simp only; omega) (by omega)

end SisOp.Kdebug
