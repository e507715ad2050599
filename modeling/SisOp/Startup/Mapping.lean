/-
# `SisOp.Startup.Mapping` — the static mappings and the tests

`boot_map_region` and what the tests of `mem_init` do, as functions that cannot
fail on a machine with enough pages: each lemma gives the result, the invariant
and what has become of `kpte`.
-/
import SisOp.Startup.State

namespace SisOp.Jos

open SisOp.Lib

section

variable {S held l : List Ppn} {m m' : Phys} {a p t v : Ppn} {i j : Idx} {w perm : Word}

/-- The state a boot-time function leaves, as far as nobody looks at the order of the list. -/
structure Booted (S : List Ppn) (m m' : Phys) : Prop where
  booting : ∃ l, Booting S [] l m'
  npages : m'.npages = m.npages
  kernPgdir : m'.kernPgdir = m.kernPgdir

theorem Booted.trans {m'' : Phys} (h : Booted S m m') (h' : Booted S m' m'') : Booted S m m'' :=
  ⟨h'.booting, h'.npages.trans h.npages, h'.kernPgdir.trans h.kernPgdir⟩

/-- The state a test or a check leaves: the same free pages, and the same mappings. -/
structure Shuffled (S l : List Ppn) (m m' : Phys) : Prop where
  booting : ∃ l', l.Perm l' ∧ Booting S [] l' m'
  npages : m'.npages = m.npages
  kernPgdir : m'.kernPgdir = m.kernPgdir
  kpte : kpte m' = kpte m

theorem Shuffled.booted (h : Shuffled S l m m') : Booted S m m' where
  booting := by
    obtain ⟨l', -, hl⟩ := h.booting
    exact ⟨l', hl⟩
  npages := h.npages
  kernPgdir := h.kernPgdir

/-- There is a free page as long as `S` has more pages than `kern_pgdir` has page tables. -/
theorem Booting.nonempty (h : Booting S [] l m) (hS : S.Nodup) (hlen : 69 < S.length) :
    ∃ a t, l = a :: t := by
  have hle := h.length hS
  cases l with
  | nil => simp at hle; omega
  | cons a t => exact ⟨a, t, rfl⟩

/-- The virtual pages above `UTOP` that are not the window onto the directory itself. -/
def KernPage (v : Ppn) : Prop := ¬ UserPdx (PDX (page2pa v)) ∧ PDX (page2pa v) ≠ PDX UVPT

theorem kernPage_iff : KernPage v ↔ 955 * 1024 ≤ v.toNat ∧ v.toNat / 1024 ≠ 957 := by
  have hne : PDX (page2pa v) ≠ PDX UVPT ↔ v.toNat / 1024 ≠ 957 := by
    rw [← PDX_page2pa]
    exact (Fin.val_inj (b := PDX UVPT)).not.symm
  rw [KernPage, hne, UserPdx, PDX_page2pa]
  omega

/-- The walk of `boot_map_region` finds a page table, or makes one. -/
theorem Booting.walk (h : Booting S [] l m) (hS : S.Nodup) (hlen : 69 < S.length)
    (hv : KernPage v) :
    ∃ m1 t, pgdirWalk m m.kernPgdir (page2pa v) true = .ok (some (t, PTX (page2pa v)), m1) ∧
      Booted S m m1 ∧ kernTable m1 (PDX (page2pa v)) = some t ∧ kpte m1 = kpte m := by
  cases ht : kernTable m (PDX (page2pa v)) with
  | some t =>
      obtain ⟨-, hvalid, hpg⟩ := kernTable_some.mp ht
      obtain ⟨-, -, hb, -⟩ := h.table _ t ht
      have hk : KADDR m t = .ok t := if_neg (by omega)
      refine ⟨m, t, ?_, ⟨⟨l, h⟩, rfl, rfl⟩, ht, rfl⟩
      simp only [pgdirWalk, Phys.load, hvalid, not_true_eq_false, if_false, PGNUM_PTE_ADDR, hpg, hk]
      rfl
  | none =>
      have hinvalid : ¬ PTE_VALID (m.mem m.kernPgdir (PDX (page2pa v))) := fun hvalid => by
        rw [kernTable, if_pos ⟨hv.2, hvalid⟩] at ht
        cases ht
      obtain ⟨a, l', rfl⟩ := h.nonempty hS hlen
      obtain ⟨m1, halloc, h1, hkpte, hn, hk, htab, -, hzero⟩ := h.alloc true
      obtain ⟨h2, hkpte2, htab2⟩ := h1.setTable hv.1 hv.2 (htab ▸ ht) (hzero rfl)
      rw [hk] at h2 hkpte2 htab2
      have hb : a.toNat < m1.npages := h1.bound a (by simp)
      refine ⟨_, a, ?_, ⟨⟨l', h2⟩, hn, hk⟩, ?_, hkpte2.trans hkpte⟩
      · simp only [pgdirWalk, Phys.load, hinvalid, not_false_eq_true, if_true, not_true_eq_false,
          if_false, halloc]
        have hkaddr : KADDR ((m1.store (m.kernPgdir, PDX (page2pa v))
            (page2pa a ||| PTE_P ||| PTE_W ||| PTE_U)).incref a) a = .ok a :=
          if_neg (by show ¬ m1.npages ≤ a.toNat; omega)
        show (do
          let kva ← KADDR _ a
          pure (some (kva, PTX (page2pa v)), _)) = _
        rw [hkaddr]
        rw [mkPte, show page2pa a ||| (PTE_W ||| PTE_U) ||| PTE_P =
          page2pa a ||| PTE_P ||| PTE_W ||| PTE_U by ac_rfl]
        rfl
      · rw [htab2, Function.update_self]

/-- `boot_map_region` over `n` pages. -/
theorem Booting.mapLoop (hS : S.Nodup) (hlen : 69 < S.length)
    (hperm : (perm ||| PTE_P) &&& userWrite ≠ userWrite) : ∀ (n : Nat) {m : Phys} {v p : Ppn},
    (∃ l, Booting S [] l m) → n ≤ 2 ^ 20 → (∀ s, s < n → KernPage (v + BitVec.ofNat 20 s)) →
    ∃ m', bootMapLoop m.kernPgdir perm n m (page2pa v) (page2pa p) = .ok m' ∧ Booted S m m' ∧
      ∀ v', kpte m' v' =
        if (v' - v).toNat < n then some (mkPte (p + (v' - v)) perm) else kpte m v' := by
  intro n
  induction n with
  | zero =>
      intro m v p h _ _
      exact ⟨m, rfl, ⟨h, rfl, rfl⟩, fun v' => by simp⟩
  | succ n ih =>
      intro m v p ⟨l, h⟩ hn hkern
      have hv : KernPage v := by simpa using hkern 0 (by omega)
      obtain ⟨m1, t, hwalk, ⟨⟨l1, h1⟩, hn1, hk1⟩, ht, hkpte1⟩ := h.walk hS hlen hv
      obtain ⟨h2, hkpte2, htab2⟩ := h1.setPte ht (mkPte_userWrite p hperm)
      have hkern' : ∀ s, s < n → KernPage (v + 1 + BitVec.ofNat 20 s) := fun s hs => by
        have hnext := hkern (s + 1) (by omega)
        rwa [BitVec.ofNat_add, BitVec.add_comm (BitVec.ofNat 20 s), ← BitVec.add_assoc] at hnext
      obtain ⟨m', hloop, hbooted, hkpte'⟩ := ih (m := m1.store (t, PTX (page2pa v)) (mkPte p perm))
        (v := v + 1) (p := p + 1) ⟨l1, h2⟩ (by omega) hkern'
      refine ⟨m', ?_, ⟨hbooted.booting, hbooted.npages.trans hn1, hbooted.kernPgdir.trans hk1⟩,
        fun v' => ?_⟩
      · rw [bootMapLoop, bind_eq_ok]
        refine ⟨_, hwalk, ?_⟩
        simp only
        rw [page2pa_succ, page2pa_succ, ← hk1]
        exact hloop
      · rw [hkpte' v', hkpte2, hkpte1, if_pos (PTE_VALID_mkPte p perm)]
        rcases eq_or_ne v' v with rfl | hne
        · have hlast : ¬ (v' - (v' + 1)).toNat < n := by
            have hval : (v' - (v' + 1)).toNat = 2 ^ 20 - 1 := by bv_omega
            omega
          rw [if_neg hlast, Function.update_self, if_pos (by simp)]
          simp
        · have hiff : (v' - (v + 1)).toNat < n ↔ (v' - v).toNat < n + 1 := by bv_omega
          have hval : p + 1 + (v' - (v + 1)) = p + (v' - v) := by bv_omega
          rw [Function.update_of_ne hne, hval]
          by_cases hlt : (v' - v).toNat < n + 1
          · rw [if_pos hlt, if_pos (hiff.mpr hlt)]
          · rw [if_neg hlt, if_neg (fun hlt' => hlt (hiff.mp hlt'))]

/-! ## The tests -/

theorem Booting.takeThree (h : Booting S [] l m) (hS : S.Nodup) (hlen : 72 < S.length) :
    ∃ a b c t m', l = a :: b :: c :: t ∧ takeThree m = .ok ((a, b, c), m') ∧
      Booting S [c, b, a] t m' ∧
      kpte m' = kpte m ∧ m'.npages = m.npages ∧ m'.kernPgdir = m.kernPgdir := by
  have hle := h.length hS
  obtain ⟨a, b, c, t, rfl⟩ : ∃ a b c t, l = a :: b :: c :: t := by
    match l with
    | a :: b :: c :: t => exact ⟨a, b, c, t, rfl⟩
    | [_, _] | [_] | [] => simp at hle; omega
  obtain ⟨m1, halloc1, h1, hk1, hn1, hp1, -⟩ := h.alloc false
  obtain ⟨m2, halloc2, h2, hk2, hn2, hp2, -⟩ := h1.alloc false
  obtain ⟨m3, halloc3, h3, hk3, hn3, hp3, -⟩ := h2.alloc false
  refine ⟨a, b, c, t, m3, rfl, ?_, h3, hk3.trans (hk2.trans hk1), hn3.trans (hn2.trans hn1),
    hp3.trans (hp2.trans hp1)⟩
  have htake : ∀ {m m' : Phys} {a : Ppn}, pageAlloc m false = .ok (some a, m') →
      assertAlloc m = .ok (a, m') := fun h => by
    rw [assertAlloc, h]
    rfl
  exact bind_eq_ok.mpr ⟨_, htake halloc1, bind_eq_ok.mpr ⟨_, htake halloc2,
    bind_eq_ok.mpr ⟨_, htake halloc3, rfl⟩⟩⟩

/-- Three held pages are given back. -/
theorem Booting.freeThree {a b c : Ppn} (h : Booting S [a, b, c] l m) :
    ∃ m', (do let m ← pageFree m a; let m ← pageFree m b; pageFree m c) = .ok m' ∧
      Shuffled S (a :: b :: c :: l) m m' := by
  obtain ⟨m1, hf1, h1, hk1, hn1, hp1⟩ := h.free
  obtain ⟨m2, hf2, h2, hk2, hn2, hp2⟩ := h1.free
  obtain ⟨m3, hf3, h3, hk3, hn3, hp3⟩ := h2.free
  have hperm : (a :: b :: c :: l).Perm (c :: b :: a :: l) :=
    (List.reverse_perm [c, b, a]).append_right l
  refine ⟨m3, ?_, ⟨_, hperm, h3⟩, hn3.trans (hn2.trans hn1), hp3.trans (hp2.trans hp1),
    hk3.trans (hk2.trans hk1)⟩
  exact bind_eq_ok.mpr ⟨m1, hf1, bind_eq_ok.mpr ⟨m2, hf2, hf3⟩⟩

theorem Booting.checkPageAlloc (h : Booting S [] l m) (hS : S.Nodup) (hlen : 72 < S.length) :
    ∃ m', checkPageAlloc m = .ok m' ∧ Shuffled S l m m' := by
  obtain ⟨a, b, c, t, m1, rfl, htake, h1, hk1, hn1, hp1⟩ := h.takeThree hS hlen
  obtain ⟨h2, hk2⟩ := h1.fill (a := c) (by simp) fun _ => 0
  obtain ⟨m3, hfree, h3⟩ := h2.freeThree
  obtain ⟨l', hl', h3'⟩ := h3.booting
  have hperm : (a :: b :: c :: t).Perm (c :: b :: a :: t) :=
    (List.reverse_perm [c, b, a]).append_right t
  refine ⟨m3, ?_, ⟨l', hperm.trans hl', h3'⟩, h3.npages.trans hn1, h3.kernPgdir.trans hp1,
    h3.kpte.trans (hk2.trans hk1)⟩
  exact bind_eq_ok.mpr ⟨_, htake, hfree⟩

theorem Booting.checkPageInstalledPgdir (h : Booting S [] l m) (hS : S.Nodup)
    (hlen : 72 < S.length) :
    ∃ m', checkPageInstalledPgdir m = .ok m' ∧ Shuffled S l m m' := by
  obtain ⟨a, b, c, t, m1, rfl, htake, h1, hk1, hn1, hp1⟩ := h.takeThree hS hlen
  obtain ⟨h2, hk2⟩ := h1.fill (a := a) (by simp) fun _ => 0
  obtain ⟨h3, hk3⟩ := h2.fill (a := b) (by simp) fun _ => 0x01010101
  obtain ⟨h4, hk4⟩ := h3.fill (a := c) (by simp) fun i => if i = 0 then 0x03030303 else 0x02020202
  have hperm : [c, b, a].Perm [b, c, a] := List.Perm.swap b c [a]
  obtain ⟨m5, hfree, h5⟩ := (h4.perm hperm).freeThree
  obtain ⟨l', hl', h5'⟩ := h5.booting
  have hcycle : (a :: b :: c :: t).Perm (b :: c :: a :: t) :=
    (show [a] ++ [b, c] |>.Perm ([b, c] ++ [a]) from List.perm_append_comm).append_right t
  refine ⟨m5, ?_, ⟨l', hcycle.trans hl', h5'⟩, h5.npages.trans hn1, h5.kernPgdir.trans hp1,
    h5.kpte.trans (hk4.trans (hk3.trans (hk2.trans hk1)))⟩
  exact bind_eq_ok.mpr ⟨_, htake, hfree⟩

/-- `*pgdir_walk(kern_pgdir, va, 0) = 0` where something is mapped. -/
theorem Booting.clearPte (h : Booting S [] l m) (hv : kpte m v ≠ none) :
    ∃ m', clearPte m (page2pa v) = .ok m' ∧ Booted S m m' ∧
      kpte m' = Function.update (kpte m) v none := by
  cases ht : kernTable m (PDX (page2pa v)) with
  | none =>
      rw [kpte, ht] at hv
      exact absurd rfl hv
  | some t =>
      obtain ⟨-, hvalid, hpg⟩ := kernTable_some.mp ht
      obtain ⟨-, -, hb, -⟩ := h.table _ t ht
      have hk : KADDR m t = .ok t := if_neg (by omega)
      obtain ⟨h1, hk1, -⟩ := h.setPte ht (w := 0) (by decide)
      rw [if_neg not_PTE_VALID_zero] at hk1
      refine ⟨_, ?_, ⟨⟨l, h1⟩, rfl, rfl⟩, hk1⟩
      simp only [SisOp.Jos.clearPte, pgdirWalk, Phys.load, hvalid, not_true_eq_false, if_false,
        PGNUM_PTE_ADDR, hpg, hk]
      rfl

/-- The page `MMIOBASE` begins. -/
def mmioPage : Ppn := 0xEF800

theorem kernPage_of_le {n : Nat} {b : Ppn} (hb : 958 * 1024 ≤ b.toNat) (hn : b.toNat + n ≤ 2 ^ 20)
    (s : Nat) (hs : s < n) : KernPage (b + BitVec.ofNat 20 s) := by
  have hval : (b + BitVec.ofNat 20 s).toNat = b.toNat + s := by
    rw [BitVec.toNat_add, BitVec.toNat_ofNat]
    omega
  rw [kernPage_iff, hval]
  omega

theorem Booting.checkPage (h : Booting S [] l m) (hS : S.Nodup) (hlen : 72 < S.length) :
    ∃ m', checkPage m = .ok m' ∧ Booted S m m' := by
  have hlen' : 69 < S.length := by omega
  have hperm : (PTE_PCD ||| PTE_PWT ||| PTE_W ||| PTE_P) &&& userWrite ≠ userWrite := by decide
  obtain ⟨a, b, c, t, m1, -, htake, h1, -, hn1, hp1⟩ := h.takeThree hS hlen
  obtain ⟨h2, -⟩ := h1.fill (a := a) (by simp) fun _ => 0
  obtain ⟨m3, hfree, h3'⟩ := (h2.perm (List.reverse_perm [a, b, c])).freeThree
  have h3 := h3'.booted
  obtain ⟨m4, hmap4, h4, hk4⟩ := Booting.mapLoop hS hlen' hperm 2 (v := mmioPage) (p := 0) h3.booting
    (by decide) (kernPage_of_le (by decide) (by decide))
  obtain ⟨m5, hmap5, h5, hk5⟩ := Booting.mapLoop hS hlen' hperm 1 (v := mmioPage + 2) (p := 0)
    h4.booting (by decide) (kernPage_of_le (by decide) (by decide))
  have hsome : kpte m5 mmioPage ≠ none ∧ kpte m5 (mmioPage + 1) ≠ none ∧
      kpte m5 (mmioPage + 2) ≠ none := by
    rw [hk5, hk5, hk5, hk4, hk4]
    simp [mmioPage]
  obtain ⟨l5, h5'⟩ := h5.booting
  obtain ⟨m6, hc6, h6, hk6⟩ := h5'.clearPte hsome.1
  obtain ⟨l6, h6'⟩ := h6.booting
  obtain ⟨m7, hc7, h7, hk7⟩ := h6'.clearPte (v := mmioPage + 1) (by
    rw [hk6, Function.update_of_ne (by decide)]
    exact hsome.2.1)
  obtain ⟨l7, h7'⟩ := h7.booting
  obtain ⟨m8, hc8, h8, -⟩ := h7'.clearPte (v := mmioPage + 2) (by
    rw [hk7, Function.update_of_ne (by decide), hk6, Function.update_of_ne (by decide)]
    exact hsome.2.2)
  have hmm1 : mmioMapRegion m3 MMIOBASE 0 4097 = .ok (MMIOBASE, MMIOBASE + 8192, m4) := by
    unfold mmioMapRegion
    have hsize : ROUNDUP 4097 PGSIZE = 8192 := by decide
    have hlim : ¬ MMIOLIM ≤ MMIOBASE + 8192 := by decide
    simp only [hsize, if_neg hlim]
    show (do let m ← bootMapLoop m3.kernPgdir _ 2 m3 (page2pa mmioPage) (page2pa 0); _) = _
    rw [hmap4]
    rfl
  have hmm2 : mmioMapRegion m4 (MMIOBASE + 8192) 0 4096 =
      .ok (MMIOBASE + 8192, MMIOBASE + 8192 + 4096, m5) := by
    unfold mmioMapRegion
    have hsize : ROUNDUP 4096 PGSIZE = 4096 := by decide
    have hlim : ¬ MMIOLIM ≤ MMIOBASE + 8192 + 4096 := by decide
    simp only [hsize, if_neg hlim]
    show (do let m ← bootMapLoop m4.kernPgdir _ 1 m4 (page2pa (mmioPage + 2)) (page2pa 0); _) = _
    rw [hmap5]
    rfl
  refine ⟨m8, ?_, (((((show Booted S m m3 from
    ⟨h3.booting, h3.npages.trans hn1, h3.kernPgdir.trans hp1⟩).trans h4).trans h5).trans h6).trans
    h7).trans h8⟩
  simp only [bind_eq_ok] at hfree
  obtain ⟨f1, hf1, f2, hf2, hf3⟩ := hfree
  exact bind_eq_ok.mpr ⟨_, htake, bind_eq_ok.mpr ⟨f1, hf1, bind_eq_ok.mpr ⟨f2, hf2,
    bind_eq_ok.mpr ⟨m3, hf3, bind_eq_ok.mpr ⟨_, hmm1, bind_eq_ok.mpr ⟨_, hmm2,
      bind_eq_ok.mpr ⟨m6, hc6, bind_eq_ok.mpr ⟨m7, hc7, hc8⟩⟩⟩⟩⟩⟩⟩⟩

end

end SisOp.Jos
