/-
# `SisOp.Memory.UserMem` — what `user_mem_check` proves about a range

`user_mem_check` rounds both ends of the range to pages and looks at every page
in between.  `PageOk` is its test of one page and `Covered` what a caller wants
of one address; a page that passes covers its 4096 addresses (`PageOk.covered`).

The end of the range is a 32-bit sum.  When `va + len + 4095` does not wrap, the
loop sees every page (`userMemCheckLoop_ok`).  When it wraps, the range contains
the last page of the address space, no address of which is below `ULIM`, so the
check is sound only if it refuses, and there is at most one page it still looks
at (`wrapped_end`).
-/
import SisOp.Jos.Pmap
import Mathlib.Tactic.ByContra

namespace SisOp.Jos

/-! ## Walks that do not create -/

/-- `pgdir_walk` without `create` reads the directory entry and no more. -/
theorem pgdirWalk_look (m : Phys) (pgdir : Ppn) (va : Word) :
    pgdirWalk m pgdir va false =
      if PTE_VALID (m.mem pgdir (PDX va)) then
        if m.npages ≤ (PGNUM (m.mem pgdir (PDX va))).toNat then
          .error "KADDR called with invalid pa"
        else .ok (some (PGNUM (m.mem pgdir (PDX va)), PTX va), m)
      else .ok (none, m) := by
  by_cases hv : PTE_VALID (m.mem pgdir (PDX va))
  · by_cases hb : m.npages ≤ (PGNUM (m.mem pgdir (PDX va))).toNat <;>
      simp [pgdirWalk, Phys.load, KADDR, hv, hb, bind, Except.bind, pure, Except.pure]
  · simp [pgdirWalk, Phys.load, hv, pure, Except.pure]

/-! ## One page -/

/-- The test `user_mem_check` makes at `va`, passed. -/
def PageOk (m : Phys) (pgdir : Ppn) (perm va : Word) : Prop :=
  va < ULIM ∧ ∃ pte, pgdirWalk m pgdir va false = .ok (some pte, m) ∧
    m.load pte ||| perm ||| PTE_P = m.load pte

/-- Address `a` is below `ULIM`, on a page whose entry has all bits of `perm | PTE_P`. -/
def Covered (m : Phys) (pgdir : Ppn) (perm : Word) (a : Nat) : Prop :=
  a < ULIM.toNat ∧ ∃ pte, pteAt m pgdir (BitVec.ofNat 32 a) = some pte ∧
    pte ||| (perm ||| PTE_P) = pte

/-- Indices are those of the page. -/
theorem PDX_eq_of_page {a b : Word} (h : a.toNat / 4096 = b.toNat / 4096) : PDX a = PDX b := by
  refine Fin.ext ?_
  rw [PDX_val, PDX_val]
  omega

theorem PTX_eq_of_page {a b : Word} (h : a.toNat / 4096 = b.toNat / 4096) : PTX a = PTX b := by
  refine Fin.ext ?_
  rw [PTX_val, PTX_val, h]

/-- A page that passes the test covers its addresses. -/
theorem PageOk.covered {m : Phys} {pgdir : Ppn} {perm va : Word} (h : PageOk m pgdir perm va)
    {a : Nat} (ha : a / 4096 = va.toNat / 4096) : Covered m pgdir perm a := by
  obtain ⟨hlim, pte, hwalk, hbits⟩ := h
  have hlim' : va.toNat < 4018143232 := by simpa [BitVec.lt_def] using hlim
  have hav : (BitVec.ofNat 32 a).toNat = a := by
    rw [BitVec.toNat_ofNat]
    omega
  have hpage : (BitVec.ofNat 32 a).toNat / 4096 = va.toNat / 4096 := by rw [hav, ha]
  rw [pgdirWalk_look] at hwalk
  split at hwalk
  · rename_i hvalid
    split at hwalk
    · cases hwalk
    · cases hwalk
      refine ⟨by rw [ULIM_toNat]; omega, m.load (PGNUM (m.mem pgdir (PDX va)), PTX va), ?_, ?_⟩
      · rw [pteAt, PDX_eq_of_page hpage, PTX_eq_of_page hpage, if_pos hvalid]
        rfl
      · rw [← BitVec.or_assoc]
        exact hbits
  · cases hwalk

/-! ## The loop -/

section Loop

variable (m : Phys) (pgdir : Ppn) (va endVa perm : Word)

/-- One turn of the loop before the end of the range. -/
theorem userMemCheckLoop_turn {fuel : Nat} {cur : Word} (hlt : cur < endVa) {x : Option Word} :
    userMemCheckLoop m pgdir va endVa perm (fuel + 1) cur = .ok (0, x) ↔
      PageOk m pgdir perm cur ∧
        userMemCheckLoop m pgdir va endVa perm fuel (cur + PGSIZE) = .ok (0, x) := by
  have hfault : (-E_FAULT : Int) ≠ 0 := by decide
  rw [userMemCheckLoop, if_pos hlt, PageOk]
  cases hw : pgdirWalk m pgdir cur false with
  | error e => simp [bind, Except.bind]
  | ok r =>
      have hm : r.2 = m := by
        rw [pgdirWalk_look] at hw
        split at hw
        · split at hw <;> cases hw
          rfl
        · cases hw
          rfl
      obtain ⟨pte, m'⟩ := r
      obtain rfl : m' = m := hm
      cases pte with
      | none => simp [bind, Except.bind, pure, Except.pure, hfault]
      | some p =>
          by_cases hlim : ULIM ≤ cur
          · have hnl : ¬ cur < ULIM := BitVec.not_lt.mpr hlim
            simp [bind, Except.bind, pure, Except.pure, hfault, hlim, hnl]
          · have hl : cur < ULIM := BitVec.not_le.mp hlim
            by_cases hb : m'.load p ||| perm ||| PTE_P = m'.load p <;>
              simp [bind, Except.bind, pure, Except.pure, hfault, hlim, hl, hb]

theorem userMemCheckLoop_done {fuel : Nat} {cur : Word} (hge : ¬ cur < endVa) :
    userMemCheckLoop m pgdir va endVa perm (fuel + 1) cur = .ok (0, none) := by
  rw [userMemCheckLoop, if_neg hge]
  rfl

variable {m pgdir va endVa perm}

/-- Between page-aligned ends a step of one page does not wrap. -/
theorem next_page {cur : Word} (hcur : cur.toNat % 4096 = 0) (hend : endVa.toNat % 4096 = 0)
    (hlt : cur < endVa) : (cur + PGSIZE).toNat = cur.toNat + 4096 := by
  have hlt' : cur.toNat < endVa.toNat := hlt
  have hlim := endVa.isLt
  rw [BitVec.toNat_add, PGSIZE_toNat]
  omega

/-- The loop has a turn of fuel for every page of the range: it never runs out. -/
theorem userMemCheckLoop_fuel (hend : endVa.toNat % 4096 = 0) (n : Nat) :
    ∀ cur : Word, cur.toNat % 4096 = 0 → endVa.toNat ≤ cur.toNat + n * 4096 →
      userMemCheckLoop m pgdir va endVa perm (n + 1) cur ≠
        .error "user_mem_check: out of fuel" := by
  induction n with
  | zero =>
      intro cur _ hfuel
      have hge : ¬ cur < endVa := by
        rw [BitVec.lt_def]
        omega
      rw [userMemCheckLoop_done m pgdir va endVa perm hge]
      intro h
      cases h
  | succ n ih =>
      intro cur hcur hfuel
      by_cases hlt : cur < endVa
      · have hnext := next_page hcur hend hlt
        have hrest := ih (cur + PGSIZE) (by omega) (by omega)
        rw [userMemCheckLoop, if_pos hlt, pgdirWalk_look]
        by_cases hv : PTE_VALID (m.mem pgdir (PDX cur))
        · rw [if_pos hv]
          by_cases hb : m.npages ≤ (PGNUM (m.mem pgdir (PDX cur))).toNat
          · rw [if_pos hb]
            simp [bind, Except.bind]
          · rw [if_neg hb]
            simp only [bind, Except.bind]
            split
            · intro h
              cases h
            · exact hrest
        · rw [if_neg hv]
          simp [bind, Except.bind, pure, Except.pure]
      · rw [userMemCheckLoop_done m pgdir va endVa perm hlt]
        intro h
        cases h

/-- The loop returns 0 exactly when every page of the range passes. -/
theorem userMemCheckLoop_ok (hend : endVa.toNat % 4096 = 0) {x : Option Word} (n : Nat) :
    ∀ cur : Word, cur.toNat % 4096 = 0 → endVa.toNat ≤ cur.toNat + n * 4096 →
      (userMemCheckLoop m pgdir va endVa perm (n + 1) cur = .ok (0, x) ↔
        x = none ∧ ∀ p : Word, p.toNat % 4096 = 0 → cur ≤ p → p < endVa →
          PageOk m pgdir perm p) := by
  induction n with
  | zero =>
      intro cur _ hfuel
      have hge : ¬ cur < endVa := by
        rw [BitVec.lt_def]
        omega
      rw [userMemCheckLoop_done m pgdir va endVa perm hge]
      constructor
      · intro h
        cases h
        exact ⟨rfl, fun p _ hp hp' => absurd (Nat.lt_of_le_of_lt hp hp') hge⟩
      · rintro ⟨rfl, -⟩
        rfl
  | succ n ih =>
      intro cur hcur hfuel
      by_cases hlt : cur < endVa
      · have hnext := next_page hcur hend hlt
        rw [userMemCheckLoop_turn m pgdir va endVa perm hlt, ih (cur + PGSIZE) (by omega) (by omega)]
        constructor
        · rintro ⟨hok, hx, hrest⟩
          refine ⟨hx, fun p hp hle hlt' => ?_⟩
          by_cases heq : p = cur
          · rwa [heq]
          · have hne : p.toNat ≠ cur.toNat := fun h => heq (BitVec.eq_of_toNat_eq h)
            have hle' : cur.toNat ≤ p.toNat := hle
            exact hrest p hp (by rw [BitVec.le_def, hnext]; omega) hlt'
        · rintro ⟨hx, hall⟩
          refine ⟨hall cur hcur (BitVec.le_refl cur) hlt, hx, fun p hp hle hlt' => ?_⟩
          have hle' : (cur + PGSIZE).toNat ≤ p.toNat := hle
          exact hall p hp (by rw [BitVec.le_def]; omega) hlt'
      · rw [userMemCheckLoop_done m pgdir va endVa perm hlt]
        constructor
        · intro h
          cases h
          exact ⟨rfl, fun p _ hp hp' => absurd (Nat.lt_of_le_of_lt hp hp') hlt⟩
        · rintro ⟨rfl, -⟩
          rfl

end Loop

/-! ## The whole check -/

variable {m : Phys} {pgdir : Ppn} {va len perm : Word}

theorem userMemCheck_fuel :
    userMemCheck m pgdir va len perm ≠ .error "user_mem_check: out of fuel" := by
  have hva := ROUNDDOWN_PGSIZE va
  have hend := ROUNDUP_PGSIZE (va + len)
  have hlim := (ROUNDUP (va + len) PGSIZE).isLt
  exact userMemCheckLoop_fuel (by omega) (2 ^ 20) _ (by omega) (by omega)

/-- What `user_mem_check` returning 0 means: every page between the rounded ends passes. -/
theorem userMemCheck_ok {x : Option Word} :
    userMemCheck m pgdir va len perm = .ok (0, x) ↔
      x = none ∧ ∀ p : Word, p.toNat % 4096 = 0 → ROUNDDOWN va PGSIZE ≤ p →
        p < ROUNDUP (va + len) PGSIZE → PageOk m pgdir perm p := by
  have hva := ROUNDDOWN_PGSIZE va
  have hend := ROUNDUP_PGSIZE (va + len)
  have hlim := (ROUNDUP (va + len) PGSIZE).isLt
  exact userMemCheckLoop_ok (by omega) (2 ^ 20) _ (by omega) (by omega)

/-- What a caller relies on when `user_mem_check(env, va, len, perm)` returns 0. -/
def CheckSound (m : Phys) (pgdir : Ppn) (va len perm : Word) : Prop :=
  ∀ x, userMemCheck m pgdir va len perm = .ok (0, x) →
    ∀ a : Nat, va.toNat ≤ a → a < va.toNat + len.toNat → Covered m pgdir perm a

/-- Without a wrap the rounded end is at or above the real one. -/
theorem no_wrap_end (h : va.toNat + len.toNat + 4095 < 2 ^ 32) :
    va.toNat + len.toNat ≤ (ROUNDUP (va + len) PGSIZE).toNat := by
  rw [ROUNDUP_PGSIZE, BitVec.toNat_add]
  omega

/-- After a wrap at most the page of `va` is left to look at. -/
theorem wrapped_end (h : 2 ^ 32 ≤ va.toNat + len.toNat + 4095) :
    (ROUNDUP (va + len) PGSIZE).toNat ≤ (ROUNDDOWN va PGSIZE).toNat + 4096 := by
  have hva := va.isLt
  have hlen := len.isLt
  rw [ROUNDUP_PGSIZE, ROUNDDOWN_PGSIZE, BitVec.toNat_add]
  omega

theorem checkSound_of_no_wrap (h : va.toNat + len.toNat + 4095 < 2 ^ 32) :
    CheckSound m pgdir va len perm := by
  intro x hx a hle hlt
  have hpages := (userMemCheck_ok.mp hx).2
  have hend := no_wrap_end h
  have halim : a < 4294967296 := by omega
  -- the page of `a` is one of the pages of the range
  have hp : (BitVec.ofNat 32 (a / 4096 * 4096)).toNat = a / 4096 * 4096 := by
    rw [BitVec.toNat_ofNat]
    omega
  have hok : PageOk m pgdir perm (BitVec.ofNat 32 (a / 4096 * 4096)) := by
    refine hpages _ (by omega) ?_ ?_
    · rw [BitVec.le_def, ROUNDDOWN_PGSIZE, hp]
      omega
    · have hup := ROUNDUP_PGSIZE (va + len)
      rw [BitVec.lt_def, hp]
      omega
  exact hok.covered (by omega)

/-- A range that wraps contains the last page, which is not below `ULIM`. -/
theorem not_covered_of_wrap (m : Phys) (pgdir : Ppn) (perm : Word)
    (h : 2 ^ 32 ≤ va.toNat + len.toNat + 4095) (hlen : len ≠ 0) :
    ¬ ∀ a : Nat, va.toNat ≤ a → a < va.toNat + len.toNat → Covered m pgdir perm a := by
  intro hall
  have hpos : len.toNat ≠ 0 := fun h0 => hlen (BitVec.eq_of_toNat_eq h0)
  have hlast := (hall (va.toNat + len.toNat - 1) (by omega) (by omega)).1
  rw [ULIM_toNat] at hlast
  omega

/-- When the sum wraps, the check returns 0 unless it still looks at the page of `va` and
that page fails. -/
theorem userMemCheck_wrapped (m : Phys) (pgdir : Ppn) (perm : Word)
    (h : 2 ^ 32 ≤ va.toNat + len.toNat + 4095) :
    (∃ x, userMemCheck m pgdir va len perm = .ok (0, x)) ↔
      (ROUNDDOWN va PGSIZE < ROUNDUP (va + len) PGSIZE →
        PageOk m pgdir perm (ROUNDDOWN va PGSIZE)) := by
  have hdown := ROUNDDOWN_PGSIZE va
  have hend := wrapped_end h
  simp only [userMemCheck_ok, exists_eq_left]
  constructor
  · intro hall hlt
    exact hall _ (by omega) (BitVec.le_refl _) hlt
  · intro hok p hp hle hlt
    have hle' : (ROUNDDOWN va PGSIZE).toNat ≤ p.toNat := hle
    have hlt' : p.toNat < (ROUNDUP (va + len) PGSIZE).toNat := hlt
    obtain rfl : p = ROUNDDOWN va PGSIZE := BitVec.eq_of_toNat_eq (by omega)
    exact hok hlt

/-- The check is sound exactly when nothing wraps, the range is empty, or the one page a
wrapped range still looks at fails. -/
theorem userMemCheck_sound_iff (m : Phys) (pgdir : Ppn) (va len perm : Word) :
    CheckSound m pgdir va len perm ↔
      len = 0 ∨ va.toNat + len.toNat + 4095 < 2 ^ 32 ∨
        (ROUNDDOWN va PGSIZE < ROUNDUP (va + len) PGSIZE ∧
          ¬ PageOk m pgdir perm (ROUNDDOWN va PGSIZE)) := by
  by_cases hlen : len = 0
  · subst hlen
    refine iff_of_true (fun x _ a hle hlt => ?_) (Or.inl rfl)
    have hzero : (0 : Word).toNat = 0 := rfl
    omega
  by_cases hw : va.toNat + len.toNat + 4095 < 2 ^ 32
  · exact iff_of_true (checkSound_of_no_wrap hw) (Or.inr (Or.inl hw))
  have hwrap := userMemCheck_wrapped m pgdir perm (Nat.not_lt.mp hw)
  have hbad := not_covered_of_wrap m pgdir perm (Nat.not_lt.mp hw) hlen
  constructor
  · intro hs
    by_contra hcond
    have hpass : ROUNDDOWN va PGSIZE < ROUNDUP (va + len) PGSIZE →
        PageOk m pgdir perm (ROUNDDOWN va PGSIZE) := by
      intro hlt
      by_contra hno
      exact hcond (Or.inr (Or.inr ⟨hlt, hno⟩))
    obtain ⟨x, hx⟩ := hwrap.mpr hpass
    exact hbad (hs x hx)
  · rintro (h | h | ⟨hlt, hno⟩)
    · exact absurd h hlen
    · exact absurd h hw
    · intro x hx
      exact absurd (hwrap.mp ⟨x, hx⟩ hlt) hno

/-- A machine of 4 MB whose pages hold zeros: page 1 is a directory without entries. -/
def blankPhys : Phys := ⟨1024, 0, fun _ => ⟨none, 0⟩, none, fun _ _ => 0, []⟩

/-- `user_mem_check(env, 0x1000, 0xFFFFFFFF, PTE_U)` returns 0 for an environment that has
nothing mapped: the range wraps around to its own start. -/
theorem userMemCheck_accepts_wrapped_range : ¬ CheckSound blankPhys 1 0x1000 0xFFFFFFFF PTE_U := by
  intro hs
  have hwrap : 2 ^ 32 ≤ (0x1000 : Word).toNat + (0xFFFFFFFF : Word).toNat + 4095 := by decide
  obtain ⟨x, hx⟩ := (userMemCheck_wrapped blankPhys 1 PTE_U hwrap).mpr
    fun hlt => absurd hlt (by decide)
  exact not_covered_of_wrap blankPhys 1 PTE_U hwrap (by decide) (hs x hx)

end SisOp.Jos
