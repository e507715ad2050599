/-
# `SisOp.Memory.FirstBad` — the address a failed check reports

When `user_mem_check` refuses a range it leaves an address in
`user_mem_check_addr`.  The loop starts at the page of `va`, below `va` itself
when `va` is not aligned, and stores `va` on that page and the start of the page
on every later one; either way it is the first address from `va` on that the
environment may not use (`user_mem_check_first_bad`).
-/
import SisOp.Memory.UserMem
import Mathlib.Order.Bounds.Basic

namespace SisOp.Jos

variable {m : Phys} {pgdir : Ppn} {va endVa len perm : Word}

/-- Where the walk does not panic, an address the environment may use is on a page that passes. -/
theorem Covered.pageOk {cur : Word} {r : Option PtePtr × Phys}
    (hw : pgdirWalk m pgdir cur false = .ok r) {a : Nat} (ha : a / 4096 = cur.toNat / 4096)
    (h : Covered m pgdir perm a) : PageOk m pgdir perm cur := by
  obtain ⟨hlim, pte, hpte, hbits⟩ := h
  rw [ULIM_toNat] at hlim
  have hcur : cur < ULIM := by
    rw [BitVec.lt_def, ULIM_toNat]
    omega
  have hav : (BitVec.ofNat 32 a).toNat = a := by
    rw [BitVec.toNat_ofNat]
    omega
  have hpage : (BitVec.ofNat 32 a).toNat / 4096 = cur.toNat / 4096 := by rw [hav, ha]
  rw [pteAt, PDX_eq_of_page hpage, PTX_eq_of_page hpage] at hpte
  rw [pgdirWalk_look] at hw
  by_cases hv : PTE_VALID (m.mem pgdir (PDX cur))
  · rw [if_pos hv] at hpte hw
    by_cases hb : m.npages ≤ (PGNUM (m.mem pgdir (PDX cur))).toNat
    · rw [if_pos hb] at hw
      cases hw
    · refine ⟨hcur, (PGNUM (m.mem pgdir (PDX cur)), PTX cur), ?_, ?_⟩
      · rw [pgdirWalk_look, if_pos hv, if_neg hb]
      · cases hpte
        rw [BitVec.or_assoc]
        exact hbits
  · rw [if_neg hv] at hpte
    cases hpte

/-- A turn of a loop that ends in `-E_FAULT` stops at a bad page, or passes a good one. -/
theorem userMemCheckLoop_fault_turn {fuel : Nat} {cur : Word} (hlt : cur < endVa)
    {x : Option Word}
    (h : userMemCheckLoop m pgdir va endVa perm (fuel + 1) cur = .ok (-E_FAULT, x)) :
    (x = some (if cur < va then va else cur) ∧
        ∀ a, a / 4096 = cur.toNat / 4096 → ¬ Covered m pgdir perm a) ∨
      (PageOk m pgdir perm cur ∧
        userMemCheckLoop m pgdir va endVa perm fuel (cur + PGSIZE) = .ok (-E_FAULT, x)) := by
  by_cases hok : PageOk m pgdir perm cur
  · refine Or.inr ⟨hok, ?_⟩
    obtain ⟨hlim, pte, hw, hbits⟩ := hok
    have hl : ¬ ULIM ≤ cur := BitVec.not_le.mpr hlim
    rw [userMemCheckLoop, if_pos hlt, hw] at h
    simpa [bind, Except.bind, hl, hbits] using h
  · refine Or.inl ?_
    cases hw : pgdirWalk m pgdir cur false with
    | error e =>
        rw [userMemCheckLoop, if_pos hlt, hw] at h
        cases h
    | ok r =>
        refine ⟨?_, fun a ha hcov => hok (hcov.pageOk hw ha)⟩
        have hm : r.2 = m := by
          rw [pgdirWalk_look] at hw
          split at hw
          · split at hw <;> cases hw
            rfl
          · cases hw
            rfl
        obtain ⟨pte, m'⟩ := r
        obtain rfl : m' = m := hm
        rw [userMemCheckLoop, if_pos hlt, hw] at h
        simp only [bind, Except.bind] at h
        cases pte with
        | none =>
            rw [if_pos (Or.inr rfl)] at h
            exact (Prod.mk.inj (Except.ok.inj h)).2.symm
        | some p =>
            by_cases hlim : ULIM ≤ cur
            · rw [if_pos (Or.inl hlim)] at h
              exact (Prod.mk.inj (Except.ok.inj h)).2.symm
            · have hbits : m'.load p ||| perm ||| PTE_P ≠ m'.load p := fun hbits =>
                hok ⟨BitVec.not_le.mp hlim, p, hw, hbits⟩
              rw [if_pos (Or.inr (decide_eq_true hbits))] at h
              exact (Prod.mk.inj (Except.ok.inj h)).2.symm

/-- The loop stops at the first bad page from the one it starts at. -/
theorem userMemCheckLoop_first_bad (hend : endVa.toNat % 4096 = 0) {x : Option Word} (n : Nat) :
    ∀ cur : Word, cur.toNat % 4096 = 0 →
      userMemCheckLoop m pgdir va endVa perm n cur = .ok (-E_FAULT, x) →
      ∃ p : Word, p.toNat % 4096 = 0 ∧ cur.toNat ≤ p.toNat ∧
        x = some (if p < va then va else p) ∧
        (∀ a, a / 4096 = p.toNat / 4096 → ¬ Covered m pgdir perm a) ∧
        ∀ a, cur.toNat ≤ a → a < p.toNat → Covered m pgdir perm a := by
  induction n with
  | zero =>
      intro cur _ h
      cases h
  | succ n ih =>
      intro cur hcur h
      by_cases hlt : cur < endVa
      · obtain ⟨hx, hbad⟩ | ⟨hok, hrest⟩ := userMemCheckLoop_fault_turn hlt h
        · exact ⟨cur, hcur, Nat.le_refl _, hx, hbad, fun a hle hlt' => absurd hlt' (by omega)⟩
        · have hnext := next_page hcur hend hlt
          obtain ⟨p, hp, hle, hx, hbad, hgood⟩ := ih (cur + PGSIZE) (by omega) hrest
          refine ⟨p, hp, by omega, hx, hbad, fun a hcura hap => ?_⟩
          by_cases hfirst : a < cur.toNat + 4096
          · exact hok.covered (by omega)
          · exact hgood a (by omega) hap
      · rw [userMemCheckLoop_done m pgdir va endVa perm hlt] at h
        exact absurd (Prod.mk.inj (Except.ok.inj h)).1 (by decide)

/-- `a` is the first address from `va` on that the environment may not use with `perm`, and the
pages of the addresses before it are its own to use. -/
structure FirstBad (m : Phys) (pgdir : Ppn) (perm va a : Word) : Prop where
  least : IsLeast {b : ℕ | va.toNat ≤ b ∧ ¬ Covered m pgdir perm b} a.toNat
  pages : ∀ b c : ℕ, va.toNat ≤ b → b < a.toNat → c / 4096 = b / 4096 → Covered m pgdir perm c

/-- Whether an address may be used depends on its page only. -/
theorem Covered.page {a b : Nat} (h : Covered m pgdir perm a) (hab : b / 4096 = a / 4096) :
    Covered m pgdir perm b := by
  obtain ⟨hlim, pte, hpte, hbits⟩ := h
  rw [ULIM_toNat] at hlim
  refine ⟨by rw [ULIM_toNat]; omega, pte, ?_, hbits⟩
  have hpage : (BitVec.ofNat 32 b).toNat / 4096 = (BitVec.ofNat 32 a).toNat / 4096 := by
    rw [BitVec.toNat_ofNat, BitVec.toNat_ofNat]
    omega
  rw [← hpte, pteAt, pteAt, PDX_eq_of_page hpage, PTX_eq_of_page hpage]

/-- `user_mem_check` ends, and when it fails it reports the first bad address. -/
theorem user_mem_check_first_bad (m : Phys) (pgdir : Ppn) (va len perm : Word) :
    userMemCheck m pgdir va len perm ≠ .error "user_mem_check: out of fuel" ∧
      ∀ x, userMemCheck m pgdir va len perm = .ok (-E_FAULT, x) →
        ∃ a, x = some a ∧ FirstBad m pgdir perm va a := by
  refine ⟨userMemCheck_fuel, fun x hx => ?_⟩
  have hdown := ROUNDDOWN_PGSIZE va
  have hend := ROUNDUP_PGSIZE (va + len)
  obtain ⟨p, hp, hle, hxp, hbad, hgood⟩ :=
    userMemCheckLoop_first_bad (by omega) _ (ROUNDDOWN va PGSIZE) (by omega) hx
  by_cases hpva : p < va
  · -- the bad page is the one `va` is on, and the scan began below `va`
    have hpva' : p.toNat < va.toNat := hpva
    rw [if_pos hpva] at hxp
    refine ⟨va, hxp, ⟨⟨Nat.le_refl _, hbad _ (by omega)⟩, fun b hb => hb.1⟩, ?_⟩
    intro b c hvb hbv
    omega
  · have hvap : va.toNat ≤ p.toNat := Nat.not_lt.mp hpva
    rw [if_neg hpva] at hxp
    refine ⟨p, hxp, ⟨⟨hvap, hbad _ rfl⟩, fun b hb => ?_⟩, ?_⟩
    · by_contra hlt
      exact hb.2 (hgood b (by have := hb.1; omega) (by omega))
    · intro b c hvb hbp hc
      exact (hgood b (by omega) hbp).page hc

end SisOp.Jos
