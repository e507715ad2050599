/-
# `SisOp.Kdebug.Brackets` — when the search brackets the address

`Brackets` is what `stab_binsearch` is for: the last entry of the type at or below
the address, and the end of its stretch.  Two things keep the code from it.

A region whose entries of the type are all above the address comes back as the
one-entry bracket before the first of them, not as an empty one
(`stabBinsearch_misled`).  And an entry equal to the address is searched on with
the address plus one, so that an entry equal to that is taken for a match again:
`Stops` follows the bisection down to the first such entry, and the answer is
right when no entry one above the address is left in the region at that point.
`stab_binsearch_brackets_iff` is the exact condition; its last clause is the
address `2 ^ 32 - 2`, where the second increment wraps to zero.
-/
import SisOp.Kdebug.Binsearch
import Mathlib.Order.Bounds.Basic
import Mathlib.Tactic.ByContra

namespace SisOp.Kdebug

open SisOp.Jos (Word Byte)

variable {stabs : Int → Stab} {type : Byte} {L R : Int} {a : Word}

/-! ## What the search is for -/

/-- Entry `i` is one of the type, in the region. -/
structure Entry (stabs : Int → Stab) (type : Byte) (L R i : Int) : Prop where
  ge : L ≤ i
  le : i ≤ R
  type_eq : (stabs i).nType = type

/-- The entries of the type are in order of their addresses. -/
def Sorted (stabs : Int → Stab) (type : Byte) (L R : Int) : Prop :=
  ∀ i j, Entry stabs type L R i → Entry stabs type L R j → i ≤ j →
    (stabs i).nValue ≤ (stabs j).nValue

/-- The entries of the type at or below the address. -/
def upTo (stabs : Int → Stab) (type : Byte) (L R : Int) (a : Word) : Set Int :=
  {i | Entry stabs type L R i ∧ (stabs i).nValue ≤ a}

/-- `[left, right]` is the last entry at or below the address and what follows it up to the next
entry of the type; it is empty when there is none. -/
structure Brackets (stabs : Int → Stab) (type : Byte) (L R : Int) (a : Word) (left right : Int) :
    Prop where
  le_iff : left ≤ right ↔ (upTo stabs type L R a).Nonempty
  last : (upTo stabs type L R a).Nonempty → IsGreatest (upTo stabs type L R a) left
  next : (upTo stabs type L R a).Nonempty →
    (right = R ∨ Entry stabs type L R (right + 1)) ∧
      ∀ i, Entry stabs type L R i → left < i → right < i

/-! ## Bisecting for an address -/

/-- Bisecting `[l, r]` for `key` comes to entry `m`, equal to it, with `[m, r']` left. -/
inductive Stops (stabs : Int → Stab) (type : Byte) (key : Word) : Int → Int → Int → Int → Prop
  | here {l r m : Int} : l ≤ r → Probe stabs type l (mid l r) m → (stabs m).nValue = key →
      Stops stabs type key l r m r
  | skip {l r m r' : Int} : l ≤ r → Bare stabs type l (mid l r) →
      Stops stabs type key (mid l r + 1) r m r' → Stops stabs type key l r m r'
  | rightward {l r k m r' : Int} : l ≤ r → Probe stabs type l (mid l r) k → (stabs k).nValue < key →
      Stops stabs type key (mid l r + 1) r m r' → Stops stabs type key l r m r'
  | leftward {l r k m r' : Int} : l ≤ r → Probe stabs type l (mid l r) k → key < (stabs k).nValue →
      Stops stabs type key l (k - 1) m r' → Stops stabs type key l r m r'

/-- No entry of `[m, r']` is one above the address. -/
def Clear (stabs : Int → Stab) (type : Byte) (L R : Int) (a : Word) (m r' : Int) : Prop :=
  ∀ i, Entry stabs type L R i → m ≤ i → i ≤ r' → (stabs i).nValue ≠ a + 1

theorem Bare.not_entry {l t : Int} (h : Bare stabs type l t) {i : Int}
    (hi : Entry stabs type L R i) (hl : l ≤ i) : t < i := by
  by_contra hle
  exact h i hl (by omega) hi.type_eq

theorem Probe.entry {l t m : Int} (h : Probe stabs type l t m) (hl : L ≤ l) (ht : t ≤ R) :
    Entry stabs type L R m := by
  have hge := h.ge
  have hle := h.le
  exact ⟨by omega, by omega, h.type_eq⟩

theorem probe_unique {l t m k : Int} (hm : Probe stabs type l t m) (hk : Probe stabs type l t k) :
    m = k := by
  have h1 := hm.le
  have h2 := hk.le
  by_contra hne
  by_cases hlt : m < k
  · exact hm.bare k (by omega) h2 hk.type_eq
  · exact hk.bare m (by omega) h1 hm.type_eq

/-- An entry equal to `key` is found. -/
theorem stops_of_entry {key : Word} (hs : Sorted stabs type L R) {e : Int}
    (he : Entry stabs type L R e) (hkey : (stabs e).nValue = key) (n : Nat) :
    ∀ l r : Int, (r - l).toNat ≤ n → L ≤ l → r ≤ R → l ≤ e → e ≤ r →
      ∃ m r', Stops stabs type key l r m r' ∧ l ≤ m ∧ r' ≤ r := by
  induction n with
  | zero =>
      intro l r hn hl hr hle her
      have hmid := mid_bounds (show l ≤ r by omega)
      have hlr : mid l r = e := by omega
      have hp : Probe stabs type l (mid l r) e :=
        ⟨hle, by omega, he.type_eq, fun i h1 h2 => absurd h1 (by omega)⟩
      exact ⟨e, r, .here (by omega) hp hkey, hle, Int.le_refl r⟩
  | succ n ih =>
      intro l r hn hl hr hle her
      have hlr : l ≤ r := by omega
      have hmid := mid_bounds hlr
      by_cases hbare : Bare stabs type l (mid l r)
      · have hlt := hbare.not_entry he hle
        obtain ⟨m, r', hst, hm, hr'⟩ := ih (mid l r + 1) r (by omega) (by omega) hr (by omega) her
        exact ⟨m, r', .skip hlr hbare hst, by omega, hr'⟩
      obtain ⟨k, hk⟩ : ∃ k, Probe stabs type l (mid l r) k := by
        obtain ⟨-, hno⟩ | ⟨hlo, hhi, hty, hno⟩ := scanBack_cases stabs type
          (mid l r - l + 1).toNat (mid l r)
        · exact absurd (fun i h1 h2 => hno i (by omega) h2) hbare
        · exact ⟨_, ⟨by omega, hhi, hty, fun i h1 h2 => hno i (by omega) h2⟩⟩
      have hkl := hk.ge
      have hkm := hk.le
      have hke : Entry stabs type L R k := hk.entry hl (by omega)
      by_cases heq : (stabs k).nValue = key
      · exact ⟨k, r, .here hlr hk heq, hkl, Int.le_refl r⟩
      by_cases hlt : (stabs k).nValue < key
      · -- `e` is to the right of `k`, and there is no entry between `k` and the midpoint
        have hek : k < e := by
          by_contra hle'
          have hv := hs e k he hke (by omega)
          rw [hkey] at hv
          exact absurd (BitVec.not_le.mpr hlt) (not_not_intro hv)
        have hlt' := hk.bare.not_entry he (by omega)
        obtain ⟨m, r', hst, hm, hr'⟩ := ih (mid l r + 1) r (by omega) (by omega) hr (by omega) her
        exact ⟨m, r', .rightward hlr hk hlt hst, by omega, hr'⟩
      · have hgt : key < (stabs k).nValue := by
          rw [BitVec.lt_def] at hlt ⊢
          have hne : (stabs k).nValue.toNat ≠ key.toNat := fun h => heq (BitVec.eq_of_toNat_eq h)
          omega
        have hek : e < k := by
          by_contra hle'
          have hv := hs k e hke he (by omega)
          rw [hkey] at hv
          exact absurd (BitVec.not_le.mpr hgt) (not_not_intro hv)
        obtain ⟨m, r', hst, hm, hr'⟩ := ih l (k - 1) (by omega) hl (by omega) hle (by omega)
        exact ⟨m, r', .leftward hlr hk hgt hst, hm, by omega⟩

/-- The loop goes where the bisection does. -/
theorem Stops.reach {key : Word} {l r m r' : Int} (h : Stops stabs type key l r m r') :
    ∀ (n : Nat) (s s' : Search), searchLoop stabs type n s = .ok s' → s.l = l → s.r = r →
      s.right = r → s.addr = key →
      ∃ n' seen, searchLoop stabs type n' ⟨m, r', m, r', key + 1, true, seen⟩ = .ok s' := by
  have hfuel : ∀ {n : Nat} {s s' : Search}, searchLoop stabs type n s = .ok s' → s.l ≤ s.r →
      ∃ n', searchLoop stabs type n' (turn stabs type s) = .ok s' := by
    intro n s s' hrun hle
    cases n with
    | zero => cases hrun
    | succ n => exact ⟨n, by rwa [searchLoop_go hle] at hrun⟩
  induction h with
  | @here l r m hlr hp heq =>
      rintro n s s' hrun rfl rfl hright hkey
      obtain ⟨n', hrun'⟩ := hfuel hrun hlr
      obtain ⟨seen, ⟨hbare, -⟩ | ⟨k, hk, hcase⟩⟩ := turn_cases stabs type s hlr
      · exact absurd hp.type_eq (hbare m hp.ge hp.le)
      obtain rfl : k = m := probe_unique hk hp
      obtain ⟨hlt, -⟩ | ⟨hgt, -⟩ | ⟨-, hturn⟩ := hcase
      · rw [heq, hkey] at hlt
        exact absurd hlt (BitVec.lt_irrefl key)
      · rw [heq, hkey] at hgt
        exact absurd hgt (BitVec.lt_irrefl key)
      · refine ⟨n', seen, ?_⟩
        rw [hturn, hright, hkey] at hrun'
        exact hrun'
  | @skip l r m r' hlr hb hst ih =>
      rintro n s s' hrun rfl rfl hright hkey
      obtain ⟨n', hrun'⟩ := hfuel hrun hlr
      obtain ⟨seen, ⟨-, hturn⟩ | ⟨k, hk, -⟩⟩ := turn_cases stabs type s hlr
      · rw [hturn] at hrun'
        exact ih n' _ s' hrun' rfl rfl hright hkey
      · exact absurd hk.type_eq (hb k hk.ge hk.le)
  | @rightward l r k' m r' hlr hp hlt' hst ih =>
      rintro n s s' hrun rfl rfl hright hkey
      obtain ⟨n', hrun'⟩ := hfuel hrun hlr
      obtain ⟨seen, ⟨hbare, -⟩ | ⟨k, hk, hcase⟩⟩ := turn_cases stabs type s hlr
      · exact absurd hp.type_eq (hbare k' hp.ge hp.le)
      obtain rfl : k = k' := probe_unique hk hp
      rw [← hkey] at hlt'
      obtain ⟨-, hturn⟩ | ⟨hgt, -⟩ | ⟨heq, -⟩ := hcase
      · rw [hturn] at hrun'
        exact ih n' _ s' hrun' rfl rfl hright hkey
      · exact absurd hlt' (BitVec.not_lt.mpr (BitVec.le_of_lt hgt))
      · rw [heq] at hlt'
        exact absurd hlt' (BitVec.lt_irrefl _)
  | @leftward l r k' m r' hlr hp hgt' hst ih =>
      rintro n s s' hrun rfl rfl hright hkey
      obtain ⟨n', hrun'⟩ := hfuel hrun hlr
      obtain ⟨seen, ⟨hbare, -⟩ | ⟨k, hk, hcase⟩⟩ := turn_cases stabs type s hlr
      · exact absurd hp.type_eq (hbare k' hp.ge hp.le)
      obtain rfl : k = k' := probe_unique hk hp
      rw [← hkey] at hgt'
      obtain ⟨hlt, -⟩ | ⟨-, hturn⟩ | ⟨heq, -⟩ := hcase
      · exact absurd hgt' (BitVec.not_lt.mpr (BitVec.le_of_lt hlt))
      · rw [hturn] at hrun'
        exact ih n' _ s' hrun' rfl rfl rfl hkey
      · rw [heq] at hgt'
        exact absurd hgt' (BitVec.lt_irrefl _)

/-! ## A run that meets no entry one above the address -/

/-- What the loop has found out: entries to the left of the region are at or below the address,
those to the right above it, and `left` is the last entry known to be at or below it. -/
structure Narrowed (stabs : Int → Stab) (type : Byte) (L R : Int) (a : Word) (s : Search) :
    Prop where
  ge : L ≤ s.l
  le : s.r ≤ R
  gap : s.l ≤ s.r + 1
  below : ∀ i, Entry stabs type L R i → i < s.l → (stabs i).nValue ≤ a
  above : ∀ i, Entry stabs type L R i → s.r < i → a < (stabs i).nValue
  right_eq : s.right = s.r
  next : s.r = R ∨ Entry stabs type L R (s.r + 1)
  left : (s.left = L ∧ ∀ i, Entry stabs type L R i → s.l ≤ i) ∨
    (s.left ∈ upTo stabs type L R a ∧ ∀ i, Entry stabs type L R i → i < s.l → i ≤ s.left)
  none : s.anyMatches = false → s.r = R ∧ ∀ i, Entry stabs type L R i → s.l ≤ i
  some : s.anyMatches = true → ∃ i, Entry stabs type L R i

/-- The key of the search: the address, while the bisection for it meets nothing wrong, or the
address plus one after an entry equal to it. -/
def KeyOk (stabs : Int → Stab) (type : Byte) (L R : Int) (a : Word) (s : Search) : Prop :=
  (s.addr = a ∧ ∀ m r', Stops stabs type a s.l s.r m r' → Clear stabs type L R a m r') ∨
    (s.addr = a + 1 ∧ s.left ∈ upTo stabs type L R a ∧ Clear stabs type L R a s.l s.r)

theorem succ_toNat (ha : a.toNat < 2 ^ 32 - 1) : (a + 1).toNat = a.toNat + 1 := by
  rw [BitVec.toNat_add, show (1 : Word).toNat = 1 from rfl]
  omega

/-- An entry at or below the address, probed with a key that is not below the address, moves the
region to the right of it. -/
theorem Narrowed.to_right (hs : Sorted stabs type L R) {s : Search}
    (h : Narrowed stabs type L R a s) (hle : s.l ≤ s.r) {m l' : Int}
    (hp : Probe stabs type s.l (mid s.l s.r) m) (hv : (stabs m).nValue ≤ a)
    (hl' : m ≤ l') (hlr : l' ≤ mid s.l s.r + 1) {key : Word} {seen : List Int} :
    Narrowed stabs type L R a
      { s with anyMatches := true, left := m, l := l', addr := key, seen := seen } := by
  have hmid := mid_bounds hle
  have hr := h.le
  have hge := h.ge
  have hme : Entry stabs type L R m := hp.entry hge (by omega)
  have hml := hp.ge
  have hlast : ∀ i, Entry stabs type L R i → i < mid s.l s.r + 1 → i ≤ m := by
    intro i hi hlt
    by_contra hno
    exact hp.bare i (by omega) (by omega) hi.type_eq
  exact {
    ge := by simp only; omega
    le := hr
    gap := by simp only; omega
    below := fun i hi hlt => BitVec.le_trans (hs i m hi hme (hlast i hi (by simp only at hlt; omega))) hv
    above := h.above
    right_eq := h.right_eq
    next := h.next
    left := Or.inr ⟨⟨hme, hv⟩, fun i hi hlt => hlast i hi (by simp only at hlt; omega)⟩
    none := fun hf => Bool.noConfusion hf
    some := fun _ => ⟨m, hme⟩ }

/-- A turn keeps what is known, and the key. -/
theorem Narrowed.turn (hs : Sorted stabs type L R) (ha : a.toNat < 2 ^ 32 - 1) {s : Search}
    (h : Narrowed stabs type L R a s) (hk : KeyOk stabs type L R a s) (hle : s.l ≤ s.r) :
    Narrowed stabs type L R a (turn stabs type s) ∧ KeyOk stabs type L R a (turn stabs type s) := by
  have hsucc := succ_toNat ha
  have hmid := mid_bounds hle
  have hr := h.le
  have hge := h.ge
  obtain ⟨seen, ⟨hbare, hturn⟩ | ⟨m, hp, hcase⟩⟩ := turn_cases stabs type s hle
  · -- nothing of the type in the first half
    have hout : ∀ i, Entry stabs type L R i → i < mid s.l s.r + 1 → i < s.l := by
      intro i hi hlt
      by_contra hno
      exact hbare i (by omega) (by omega) hi.type_eq
    have hin : ∀ i, Entry stabs type L R i → s.l ≤ i → mid s.l s.r + 1 ≤ i := by
      intro i hi hli
      by_contra hno
      exact absurd (hout i hi (by omega)) (by omega)
    rw [hturn]
    refine ⟨{
      ge := by simp only; omega
      le := hr
      gap := by simp only; omega
      below := fun i hi hlt => h.below i hi (hout i hi hlt)
      above := h.above
      right_eq := h.right_eq
      next := h.next
      left := ?_
      none := fun hf => ⟨(h.none hf).1, fun i hi => hin i hi ((h.none hf).2 i hi)⟩
      some := h.some }, ?_⟩
    · obtain ⟨hL, hno⟩ | ⟨hup, hlast⟩ := h.left
      · exact Or.inl ⟨hL, fun i hi => hin i hi (hno i hi)⟩
      · exact Or.inr ⟨hup, fun i hi hlt => hlast i hi (hout i hi hlt)⟩
    · obtain ⟨hkey, hclear⟩ | ⟨hkey, hup, hclear⟩ := hk
      · exact Or.inl ⟨hkey, fun m r' hst => hclear m r' (.skip hle hbare hst)⟩
      · exact Or.inr ⟨hkey, hup, fun i hi hli => hclear i hi (by simp only at hli; omega)⟩
  have hme : Entry stabs type L R m := hp.entry hge (by omega)
  have hml := hp.ge
  have hmt := hp.le
  obtain ⟨hlt, hturn⟩ | ⟨hgt, hturn⟩ | ⟨heq, hturn⟩ := hcase
  · -- below the key, so at or below the address
    have hv : (stabs m).nValue ≤ a := by
      rw [BitVec.lt_def] at hlt
      rw [BitVec.le_def]
      obtain ⟨hkey, -⟩ | ⟨hkey, -⟩ := hk <;> rw [hkey] at hlt <;> omega
    rw [hturn]
    refine ⟨h.to_right hs hle hp hv (by omega) (Int.le_refl _), ?_⟩
    obtain ⟨hkey, hclear⟩ | ⟨hkey, -, hclear⟩ := hk
    · rw [hkey] at hlt
      exact Or.inl ⟨hkey, fun k r' hst => hclear k r' (.rightward hle hp hlt hst)⟩
    · exact Or.inr ⟨hkey, ⟨hme, hv⟩, fun i hi hli => hclear i hi (by simp only at hli; omega)⟩
  · -- above the key, and not one above the address, so above it
    have hv : a < (stabs m).nValue := by
      rw [BitVec.lt_def] at hgt ⊢
      obtain ⟨hkey, -⟩ | ⟨hkey, -⟩ := hk <;> rw [hkey] at hgt <;> omega
    rw [hturn]
    refine ⟨{
      ge := hge
      le := by simp only; omega
      gap := by simp only; omega
      below := h.below
      above := fun i hi hlt => ?_
      right_eq := rfl
      next := Or.inr (by simpa using hme)
      left := h.left
      none := fun hf => Bool.noConfusion hf
      some := fun _ => ⟨m, hme⟩ }, ?_⟩
    · simp only at hlt
      exact Nat.lt_of_lt_of_le hv (hs m i hme hi (by omega))
    · obtain ⟨hkey, hclear⟩ | ⟨hkey, hup, hclear⟩ := hk
      · rw [hkey] at hgt
        exact Or.inl ⟨hkey, fun k r' hst => hclear k r' (.leftward hle hp hgt hst)⟩
      · exact Or.inr ⟨hkey, hup, fun i hi hli hir => hclear i hi hli (by simp only at hir; omega)⟩
  · -- equal to the key: this is the first such turn
    obtain ⟨hkey, hclear⟩ | ⟨hkey, -, hclear⟩ := hk
    · rw [hkey] at heq
      have hv : (stabs m).nValue ≤ a := by rw [heq]; exact BitVec.le_refl a
      have hmr := hclear m s.r (.here hle hp heq)
      rw [hturn]
      refine ⟨h.to_right hs hle hp hv (Int.le_refl m) (by omega), Or.inr ⟨?_, ⟨hme, hv⟩, hmr⟩⟩
      simp only [hkey]
    · rw [hkey] at heq
      exact absurd heq (hclear m hme hml (by omega))

theorem searchLoop_narrowed (hs : Sorted stabs type L R) (ha : a.toNat < 2 ^ 32 - 1) (n : Nat) :
    ∀ s s' : Search, searchLoop stabs type n s = .ok s' → Narrowed stabs type L R a s →
      KeyOk stabs type L R a s → Narrowed stabs type L R a s' ∧ s'.r < s'.l := by
  induction n with
  | zero =>
      intro s s' h
      cases h
  | succ n ih =>
      intro s s' h hn hk
      by_cases hle : s.l ≤ s.r
      · rw [searchLoop_go hle] at h
        obtain ⟨hn', hk'⟩ := hn.turn hs ha hk hle
        exact ih _ s' h hn' hk'
      · rw [searchLoop_done (by omega)] at h
        cases h
        exact ⟨hn, by omega⟩

/-! ## The last pass -/

theorem scanBack_bounds (stabs : Int → Stab) (type : Byte) (n : Nat) (m : Int) :
    m - n ≤ scanBack stabs type n m ∧ scanBack stabs type n m ≤ m := by
  obtain ⟨heq, -⟩ | ⟨hlo, hhi, -⟩ := scanBack_cases stabs type n m <;> omega

/-- What `stab_binsearch` returns after its loop. -/
theorem stabBinsearch_eq {s : Search}
    (h : searchLoop stabs type (2 * (R - L + 1).toNat + 1) ⟨L, R, L, R, a, false, []⟩ = .ok s) :
    (s.anyMatches = false ∧ stabBinsearch stabs type L R a = .ok (s.left, s.left - 1, s.seen)) ∨
      (s.anyMatches = true ∧ ∃ seen, stabBinsearch stabs type L R a =
        .ok (scanBack stabs type (s.right - s.left).toNat s.right, s.right, seen)) := by
  rw [stabBinsearch, h]
  by_cases hany : s.anyMatches = true
  · refine Or.inr ⟨hany, s.seen ++ scanned stabs type (s.right - s.left).toNat s.right, ?_⟩
    simp only [bind, Except.bind, hany]
    rfl
  · refine Or.inl ⟨by simpa using hany, ?_⟩
    simp only [bind, Except.bind, hany]
    rfl

/-- The result of a call. -/
def Bracketed (stabs : Int → Stab) (type : Byte) (L R : Int) (a : Word) : Prop :=
  ∃ out, stabBinsearch stabs type L R a = .ok out ∧ Brackets stabs type L R a out.1 out.2.1

/-- After a run that met nothing wrong the bracket is right, unless every entry of the type is
above the address. -/
theorem bracketed_of_narrowed {s : Search}
    (h : searchLoop stabs type (2 * (R - L + 1).toNat + 1) ⟨L, R, L, R, a, false, []⟩ = .ok s)
    (hn : Narrowed stabs type L R a s) (hend : s.r < s.l) :
    Bracketed stabs type L R a ↔
      (∀ i, ¬ Entry stabs type L R i) ∨ (upTo stabs type L R a).Nonempty := by
  have hgap := hn.gap
  have hright := hn.right_eq
  obtain ⟨hany, hout⟩ | ⟨hany, seen, hout⟩ := stabBinsearch_eq h
  · -- no entry of the type in the region
    obtain ⟨hr, hno⟩ := hn.none hany
    have hbare : ∀ i, ¬ Entry stabs type L R i := by
      intro i hi
      have hle := hi.le
      have hli := hno i hi
      omega
    have hempty : ¬ (upTo stabs type L R a).Nonempty := fun ⟨i, hi⟩ => hbare i hi.1
    refine iff_of_true ⟨_, hout, ⟨?_, fun hne => absurd hne hempty, fun hne => absurd hne hempty⟩⟩
      (Or.inl hbare)
    exact iff_of_false (by simp only; omega) hempty
  obtain ⟨i, hi⟩ := hn.some hany
  have hbounds := scanBack_bounds stabs type (s.right - s.left).toNat s.right
  obtain ⟨hleft, hno⟩ | ⟨hup, hlast⟩ := hn.left
  · -- every entry is above the address, and the bracket is not empty
    have hempty : ¬ (upTo stabs type L R a).Nonempty := by
      rintro ⟨j, hj, hv⟩
      have hlj := hno j hj
      exact absurd hv (BitVec.not_le.mpr (hn.above j hj (by omega)))
    refine iff_of_false ?_ (fun h => h.elim (fun hno => hno i hi) hempty)
    rintro ⟨out, hout', hb⟩
    rw [hout] at hout'
    cases hout'
    exact hempty (hb.le_iff.mp hbounds.2)
  · -- `left` is the last entry at or below the address; the last pass stays there
    have hlr : s.left ≤ s.r := by
      by_contra hlt
      exact absurd hup.2 (BitVec.not_le.mpr (hn.above _ hup.1 (by omega)))
    have hgreat : IsGreatest (upTo stabs type L R a) s.left := by
      refine ⟨hup, fun j hj => hlast j hj.1 ?_⟩
      by_contra hlt
      exact absurd hj.2 (BitVec.not_le.mpr (hn.above j hj.1 (by omega)))
    have hstay : scanBack stabs type (s.right - s.left).toNat s.right = s.left := by
      obtain ⟨heq, -⟩ | ⟨hlo, hhi, hty, -⟩ := scanBack_cases stabs type
        (s.right - s.left).toNat s.right
      · omega
      · have hle := hn.le
        have hge := hup.1.ge
        have hent : Entry stabs type L R
            (scanBack stabs type (s.right - s.left).toNat s.right) := ⟨by omega, by omega, hty⟩
        have := hlast _ hent (by omega)
        omega
    refine iff_of_true ⟨_, hout, ?_⟩ (Or.inr ⟨_, hup⟩)
    simp only [hstay]
    refine ⟨iff_of_true (by omega) ⟨_, hup⟩, fun _ => hgreat, fun _ => ⟨?_, fun j hj hlt => ?_⟩⟩
    · rw [hright]
      exact hn.next
    · by_contra hle
      have := hlast j hj (by omega)
      omega

/-! ## A run that meets an entry one above the address -/

theorem Stops.entry {key : Word} {l r m r' : Int} (h : Stops stabs type key l r m r') :
    L ≤ l → r ≤ R → Entry stabs type L R m ∧ (stabs m).nValue = key ∧ r' ≤ R ∧ m ≤ r' := by
  induction h with
  | here hlr hp heq =>
      intro hl hr
      have hmid := mid_bounds hlr
      have hle := hp.le
      exact ⟨hp.entry hl (by omega), heq, hr, by omega⟩
  | skip hlr _ _ ih =>
      intro hl hr
      have hmid := mid_bounds hlr
      exact ih (by omega) hr
  | rightward hlr _ _ _ ih =>
      intro hl hr
      have hmid := mid_bounds hlr
      exact ih (by omega) hr
  | leftward hlr hp _ _ ih =>
      intro hl hr
      have hmid := mid_bounds hlr
      have hle := hp.le
      exact ih hl (by omega)

/-- Once the loop has taken `k` and its key is past the address of `k`, it stays right of `k`. -/
structure Past (stabs : Int → Stab) (k : Int) (s : Search) : Prop where
  l : k ≤ s.l
  left : k ≤ s.left
  right : k ≤ s.right
  right_eq : s.right = s.r
  key : (stabs k).nValue < s.addr ∨ k < s.l
  any : s.anyMatches = true

theorem searchLoop_past {k : Int} (n : Nat) :
    ∀ s s' : Search, searchLoop stabs type n s = .ok s' → Past stabs k s → Past stabs k s' := by
  induction n with
  | zero =>
      intro s s' h
      cases h
  | succ n ih =>
      intro s s' h hp
      by_cases hle : s.l ≤ s.r
      swap
      · rw [searchLoop_done (by omega)] at h
        cases h
        exact hp
      rw [searchLoop_go hle] at h
      refine ih _ s' h ?_
      have hmid := mid_bounds hle
      have hl := hp.l
      obtain ⟨seen, ⟨-, hturn⟩ | ⟨m, hm, ⟨-, hturn⟩ | ⟨hgt, hturn⟩ | ⟨heq, hturn⟩⟩⟩ :=
        turn_cases stabs type s hle
      · rw [hturn]
        exact ⟨by simp only; omega, hp.left, hp.right, hp.right_eq, Or.inr (by simp only; omega),
          hp.any⟩
      · have hge := hm.ge
        rw [hturn]
        exact ⟨by simp only; omega, by simp only; omega, hp.right, hp.right_eq,
          Or.inr (by simp only; omega), rfl⟩
      · have hge := hm.ge
        have hne : k < m := by
          obtain hkey | hkey := hp.key
          · by_contra hno
            obtain rfl : m = k := by omega
            exact absurd hkey (BitVec.not_lt.mpr (BitVec.le_of_lt hgt))
          · omega
        rw [hturn]
        exact ⟨hl, hp.left, by simp only; omega, rfl, hp.key, rfl⟩
      · have hge := hm.ge
        have hne : k < m := by
          obtain hkey | hkey := hp.key
          · by_contra hno
            obtain rfl : m = k := by omega
            rw [heq] at hkey
            exact absurd hkey (BitVec.lt_irrefl _)
          · omega
        rw [hturn]
        exact ⟨by simp only; omega, by simp only; omega, hp.right, hp.right_eq, Or.inr hne, rfl⟩

/-- The loop after the key has wrapped to zero at `k`: every entry left is above the key. -/
structure Wrapped (k : Int) (s : Search) : Prop where
  l : s.l = k
  left : s.left = k
  right_eq : s.right = s.r
  r : k - 1 ≤ s.r
  le : s.r ≤ R
  addr : s.addr = 0
  any : s.anyMatches = true

theorem searchLoop_wrapped {k : Int} (hk : Entry stabs type L R k)
    (hpos : ∀ i, Entry stabs type L R i → k ≤ i → (stabs i).nValue ≠ 0) (n : Nat) :
    ∀ s s' : Search, searchLoop stabs type n s = .ok s' → Wrapped (R := R) k s →
      s'.left = k ∧ s'.right = k - 1 ∧ s'.anyMatches = true := by
  induction n with
  | zero =>
      intro s s' h
      cases h
  | succ n ih =>
      intro s s' h hw
      have hl := hw.l
      have hr := hw.r
      by_cases hle : s.l ≤ s.r
      swap
      · rw [searchLoop_done (by omega)] at h
        cases h
        have hright := hw.right_eq
        exact ⟨hw.left, by omega, hw.any⟩
      rw [searchLoop_go hle] at h
      refine ih _ s' h ?_
      have hmid := mid_bounds hle
      have hR := hw.le
      have hge := hk.ge
      have hent : ∀ {m}, Probe stabs type s.l (mid s.l s.r) m → (stabs m).nValue ≠ 0 := by
        intro m hm
        have hml := hm.ge
        have hmt := hm.le
        exact hpos m ⟨by omega, by omega, hm.type_eq⟩ (by omega)
      obtain ⟨seen, ⟨hbare, -⟩ | ⟨m, hm, ⟨hlt, -⟩ | ⟨hgt, hturn⟩ | ⟨heq, -⟩⟩⟩ :=
        turn_cases stabs type s hle
      · exact absurd hk.type_eq (hbare k (by omega) (by omega))
      · rw [hw.addr, BitVec.lt_def] at hlt
        exact absurd hlt (Nat.not_lt_zero _)
      · have hml := hm.ge
        have hmt := hm.le
        rw [hturn]
        exact ⟨hl, hw.left, rfl, by simp only; omega, by simp only; omega, hw.addr, rfl⟩
      · rw [hw.addr] at heq
        exact absurd heq (hent hm)

/-- The run after the second match: to the entry `k` that is one above the address. -/
theorem reach_twice {m r' k r'' : Int}
    (h1 : Stops stabs type a L R m r') (h2 : Stops stabs type (a + 1) m r' k r'') :
    ∃ s n seen, searchLoop stabs type (2 * (R - L + 1).toNat + 1)
        ⟨L, R, L, R, a, false, []⟩ = .ok s ∧
      searchLoop stabs type n ⟨k, r'', k, r'', a + 1 + 1, true, seen⟩ = .ok s := by
  obtain ⟨s, hs⟩ := searchLoop_total stabs type (R - L + 1).toNat
    (2 * (R - L + 1).toNat + 1) ⟨L, R, L, R, a, false, []⟩ (Nat.le_refl _) (Nat.le_refl _)
  obtain ⟨n1, seen1, hrun1⟩ := h1.reach _ _ s hs rfl rfl rfl rfl
  obtain ⟨n2, seen2, hrun2⟩ := h2.reach _ _ s hrun1 rfl rfl rfl rfl
  exact ⟨s, n2, seen2, hs, hrun2⟩

/-- The second match is taken for an entry at or below the address. -/
theorem not_bracketed_of_stops (hs : Sorted stabs type L R) (ha : a.toNat < 2 ^ 32 - 2)
    {m r' k r'' : Int} (h1 : Stops stabs type a L R m r')
    (h2 : Stops stabs type (a + 1) m r' k r'') : ¬ Bracketed stabs type L R a := by
  obtain ⟨hm, hmv, hr', -⟩ := h1.entry (Int.le_refl L) (Int.le_refl R)
  obtain ⟨hk, hkv, -, hkr⟩ := h2.entry hm.ge hr'
  have hsucc := succ_toNat (a := a) (by omega)
  have hsucc2 := succ_toNat (a := a + 1) (by omega)
  obtain ⟨s, n, seen, hloop, hrun⟩ := reach_twice h1 h2
  have hkey : (stabs k).nValue < a + 1 + 1 := by
    rw [hkv, BitVec.lt_def]
    omega
  have hpast := searchLoop_past n _ s hrun
    ⟨Int.le_refl k, Int.le_refl k, hkr, rfl, Or.inl hkey, rfl⟩
  rintro ⟨out, hout, hb⟩
  obtain ⟨hany, -⟩ | ⟨-, seen', hres⟩ := stabBinsearch_eq hloop
  · rw [hpast.any] at hany
    cases hany
  rw [hres] at hout
  cases hout
  have hlast := (hb.last ⟨m, hm, by rw [hmv]; exact BitVec.le_refl a⟩).1
  have hbounds := scanBack_bounds stabs type (s.right - s.left).toNat s.right
  have hleft := hpast.left
  have hright := hpast.right
  have hle := hs k _ hk hlast.1 (by simp only; omega)
  have hup := hlast.2
  rw [hkv, BitVec.le_def] at hle
  rw [BitVec.le_def] at hup
  omega

/-- At `2 ^ 32 - 2` the second match wraps the key, and the bracket ends before it. -/
theorem bracketed_wrap_iff (hs : Sorted stabs type L R) (ha : a.toNat = 2 ^ 32 - 2)
    {m r' k r'' : Int} (h1 : Stops stabs type a L R m r')
    (h2 : Stops stabs type (a + 1) m r' k r'') :
    Bracketed stabs type L R a ↔ k - 1 ∈ upTo stabs type L R a := by
  obtain ⟨hm, hmv, hr', -⟩ := h1.entry (Int.le_refl L) (Int.le_refl R)
  obtain ⟨hk, hkv, hr'', hkr⟩ := h2.entry hm.ge hr'
  have hmup : (upTo stabs type L R a).Nonempty := ⟨m, hm, by rw [hmv]; exact BitVec.le_refl a⟩
  have hsucc := succ_toNat (a := a) (by omega)
  obtain ⟨s, n, seen, hloop, hrun⟩ := reach_twice h1 h2
  have hzero : a + 1 + 1 = 0 := by
    refine BitVec.eq_of_toNat_eq ?_
    rw [BitVec.toNat_add, hsucc, ha]
    rfl
  have hpos : ∀ i, Entry stabs type L R i → k ≤ i → (stabs i).nValue ≠ 0 := by
    intro i hi hki h0
    have hle := hs k i hk hi hki
    rw [h0, hkv, BitVec.le_def, hsucc] at hle
    exact Nat.not_succ_le_zero _ hle
  obtain ⟨hleft, hright, hany⟩ := searchLoop_wrapped hk hpos n _ s hrun
    ⟨rfl, rfl, rfl, by simp only; omega, hr'', hzero, rfl⟩
  obtain ⟨hf, -⟩ | ⟨-, seen', hres⟩ := stabBinsearch_eq hloop
  · rw [hany] at hf
    cases hf
  have hstay : scanBack stabs type (s.right - s.left).toNat s.right = k - 1 := by
    rw [show (s.right - s.left).toNat = 0 by omega, hright]
    rfl
  constructor
  · rintro ⟨out, hout, hb⟩
    rw [hres] at hout
    cases hout
    have hlast := (hb.last hmup).1
    simp only [hstay] at hlast
    exact hlast
  · intro hup
    rw [hstay, hright] at hres
    refine ⟨_, hres, ?_⟩
    simp only
    refine ⟨iff_of_true (Int.le_refl _) hmup, fun _ => ⟨hup, fun j hj => ?_⟩,
      fun _ => ⟨Or.inr (by simpa using hk), fun i _ hlt => hlt⟩⟩
    by_contra hlt
    have hle := hs k j hk hj.1 (by omega)
    have hv := hj.2
    rw [hkv, BitVec.le_def, hsucc] at hle
    rw [BitVec.le_def] at hv
    omega

/-! ## The exact condition -/

/-- Where the bisection for the address comes to an entry equal to it, no entry one above the
address is left in the region.  At `2 ^ 32 - 2` it is also enough that the entry one above the
address that is found then comes right after the last one equal to the address. -/
def Settled (stabs : Int → Stab) (type : Byte) (L R : Int) (a : Word) : Prop :=
  ∀ m r', Stops stabs type a L R m r' → Clear stabs type L R a m r' ∨
    (a.toNat = 2 ^ 32 - 2 ∧
      ∀ k r'', Stops stabs type (a + 1) m r' k r'' → k - 1 ∈ upTo stabs type L R a)

/-- `stab_binsearch` ends and brackets the address exactly when there is no entry of the type in
the region, or there is one at or below the address and the search is not misled by an entry one
above it. -/
theorem stab_binsearch_brackets_iff (hs : Sorted stabs type L R) (ha : a.toNat < 2 ^ 32 - 1) :
    Bracketed stabs type L R a ↔
      (∀ i, ¬ Entry stabs type L R i) ∨
        ((upTo stabs type L R a).Nonempty ∧ Settled stabs type L R a) := by
  by_cases hLR : R < L
  · -- nothing to search
    have hbare : ∀ i, ¬ Entry stabs type L R i := by
      intro i hi
      have hge := hi.ge
      have hle := hi.le
      omega
    have hempty : ¬ (upTo stabs type L R a).Nonempty := fun ⟨i, hi⟩ => hbare i hi.1
    refine iff_of_true ?_ (Or.inl hbare)
    have hloop : searchLoop stabs type (2 * (R - L + 1).toNat + 1) ⟨L, R, L, R, a, false, []⟩ =
        .ok ⟨L, R, L, R, a, false, []⟩ := searchLoop_done hLR
    obtain ⟨-, hout⟩ | ⟨hany, -⟩ := stabBinsearch_eq hloop
    · exact ⟨_, hout, ⟨iff_of_false (by simp only; omega) hempty, fun h => absurd h hempty,
        fun h => absurd h hempty⟩⟩
    · cases hany
  have hle : L ≤ R := by omega
  by_cases hclear : ∀ m r', Stops stabs type a L R m r' → Clear stabs type L R a m r'
  · obtain ⟨s, hloop⟩ := searchLoop_total stabs type (R - L + 1).toNat
      (2 * (R - L + 1).toNat + 1) ⟨L, R, L, R, a, false, []⟩ (Nat.le_refl _) (Nat.le_refl _)
    have hinit : Narrowed stabs type L R a ⟨L, R, L, R, a, false, []⟩ :=
      { ge := Int.le_refl L
        le := Int.le_refl R
        gap := by simp only; omega
        below := fun i hi hlt => absurd hi.ge (by simp only at hlt; omega)
        above := fun i hi hlt => absurd hi.le (by simp only at hlt; omega)
        right_eq := rfl
        next := Or.inl rfl
        left := Or.inl ⟨rfl, fun i hi => hi.ge⟩
        none := fun _ => ⟨rfl, fun i hi => hi.ge⟩
        some := fun hf => Bool.noConfusion hf }
    obtain ⟨hn, hend⟩ := searchLoop_narrowed hs ha _ _ s hloop hinit (Or.inl ⟨rfl, hclear⟩)
    rw [bracketed_of_narrowed hloop hn hend]
    exact or_congr Iff.rfl
      ⟨fun hup => ⟨hup, fun m r' hst => Or.inl (hclear m r' hst)⟩, fun h => h.1⟩
  · obtain ⟨m, r', h1, i, hi, hmi, hir, hv⟩ : ∃ m r', Stops stabs type a L R m r' ∧
        ∃ i, Entry stabs type L R i ∧ m ≤ i ∧ i ≤ r' ∧ (stabs i).nValue = a + 1 := by
      simp only [Clear, not_forall, not_not] at hclear
      obtain ⟨m, r', h1, i, hi, hmi, hir, hv⟩ := hclear
      exact ⟨m, r', h1, i, hi, hmi, hir, hv⟩
    obtain ⟨hm, hmv, hr', -⟩ := h1.entry (Int.le_refl L) (Int.le_refl R)
    have hmup : (upTo stabs type L R a).Nonempty := ⟨m, hm, by rw [hmv]; exact BitVec.le_refl a⟩
    obtain ⟨k, r'', h2, -, -⟩ := stops_of_entry hs hi hv _ m r' (Nat.le_refl _) hm.ge hr' hmi hir
    by_cases hlast : a.toNat = 2 ^ 32 - 2
    · rw [bracketed_wrap_iff hs hlast h1 h2]
      refine ⟨fun hup => Or.inr ⟨hmup, fun m1 r1 hst1 => ?_⟩, ?_⟩
      · refine Or.inr ⟨hlast, fun k1 r2 hst2 => ?_⟩
        rw [← bracketed_wrap_iff hs hlast hst1 hst2, bracketed_wrap_iff hs hlast h1 h2]
        exact hup
      · rintro (hbare | ⟨-, hset⟩)
        · exact absurd hm (hbare m)
        · obtain hcl | ⟨-, hall⟩ := hset m r' h1
          · exact absurd hv (hcl i hi hmi hir)
          · exact hall k r'' h2
    · refine iff_of_false (not_bracketed_of_stops hs (by omega) h1 h2) ?_
      rintro (hbare | ⟨-, hset⟩)
      · exact hbare m hm
      · obtain hcl | ⟨h, -⟩ := hset m r' h1
        · exact hcl i hi hmi hir hv
        · exact hlast h

/-- `N_SLINE`, the entries of line numbers. -/
def N_SLINE : Byte := 0x44

/-- The lines of a function whose first instruction takes one byte. -/
def lines : Int → Stab := fun i => ⟨0, N_SLINE, 0, if i < 1 then 0x10 else 0x11⟩

theorem lines_sorted (L R : Int) : Sorted lines N_SLINE L R := by
  intro i j _ _ hij
  simp only [lines]
  by_cases hj : j < 1
  · rw [if_pos (show i < 1 by omega), if_pos hj]
    exact BitVec.le_refl _
  · rw [if_neg hj]
    split <;> decide

theorem lines_entry {i : Int} (h0 : 0 ≤ i) (h1 : i ≤ 1) : Entry lines N_SLINE 0 1 i :=
  ⟨h0, h1, rfl⟩

theorem stab_binsearch_brackets_lines : Bracketed lines N_SLINE 0 1 0x11 := by
  refine (stab_binsearch_brackets_iff (lines_sorted 0 1) (by decide)).mpr (Or.inr ⟨?_, ?_⟩)
  · exact ⟨1, lines_entry (by decide) (by decide), BitVec.le_refl _⟩
  · refine fun m r' _ => Or.inl fun i _ _ _ => ?_
    simp only [lines]
    split <;> decide

/-- Below the first line the bracket is not empty, and at the first line it is the second. -/
theorem stabBinsearch_misled : Sorted lines N_SLINE 0 1 ∧ ¬ Bracketed lines N_SLINE 0 1 0x0F ∧
    ¬ Bracketed lines N_SLINE 0 1 0x10 := by
  refine ⟨lines_sorted 0 1, ?_, ?_⟩
  · rintro ⟨out, hout, hb⟩
    have hrun : stabBinsearch lines N_SLINE 0 1 0x0F = .ok (-1, -1, [0]) := rfl
    rw [hrun] at hout
    cases hout
    obtain ⟨i, -, hv⟩ := hb.le_iff.mp (Int.le_refl _)
    simp only [lines] at hv
    split at hv <;> exact absurd hv (by decide)
  · rintro ⟨out, hout, hb⟩
    have hrun : stabBinsearch lines N_SLINE 0 1 0x10 = .ok (1, 1, [0, 0, 1, 1]) := rfl
    rw [hrun] at hout
    cases hout
    have hlast := hb.last ⟨0, lines_entry (by decide) (by decide), BitVec.le_refl _⟩
    exact absurd hlast.1.2 (by decide)

end SisOp.Kdebug
