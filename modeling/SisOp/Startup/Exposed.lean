/-
# `SisOp.Startup.Exposed` — the windows show free pages

The window at `UENVS` is 4 MB, the array behind it 124 KB: what follows the array
in physical memory is mapped too, and it is what `page_init` puts on the free list.
Whenever `mem_init` completes, a page on the free list can be read through the
window (`windows_unsealed`).
-/
import SisOp.Startup.Windows

namespace SisOp.Jos

open SisOp.Lib

section

variable {S l : List Ppn} {m m' : Phys} {p ep : Ppn} {hw : Machine} {r : MemInit}
  {kernPgdir nf1 pages nf2 envs nf3 kernPa pagesPa envsPa firstFree stackPa : Word}

/-! ## When `mem_init` completes -/

/-- Every turn of a loop that ends well ended well. -/
theorem foldlM_each {ε σ α : Type} {f : σ → α → Except ε σ} {xs : List α} :
    ∀ {s s' : σ}, xs.foldlM f s = .ok s' → ∀ x ∈ xs, ∃ t t', f t x = .ok t' := by
  induction xs with
  | nil => exact fun _ _ hx => absurd hx (by simp)
  | cons a xs ih =>
      intro s s' h x hx
      rw [List.foldlM_cons, bind_eq_ok] at h
      obtain ⟨s1, hs1, h⟩ := h
      rcases List.mem_cons.mp hx with rfl | hx
      · exact ⟨s, s1, hs1⟩
      · exact ih h x hx

/-- What must have gone well. -/
theorem memInit_placed (h : memInit hw = .ok r) :
    ∃ kernPgdir nf1 pages nf2 envs nf3 kernPa pagesPa envsPa firstFree stackPa,
      Placed hw kernPgdir nf1 pages nf2 envs nf3 kernPa pagesPa envsPa firstFree ∧
      PADDR hw.bootstack = .ok stackPa ∧ (∀ i, i < 8 → StackOk hw i) ∧
      FreeOk (initialFree firstFree (i386DetectMemory hw).toNat)
        (pageInit firstFree (dirPhys hw (PGNUM kernPa))) nf3 := by
  simp only [memInit, bind_eq_ok] at h
  obtain ⟨⟨kernPgdir, nf1⟩, h1, ⟨⟩, h2, kernPa, h3, ⟨pages, nf2⟩, h4, ⟨⟩, h5, ⟨envs, nf3⟩, h6, ⟨⟩, h7,
    firstFree, h8, m1, hcheck, m2, -, m3, -, pagesPa, h9, m4, -, envsPa, h10, m5, -, stackPa, h11,
    m6, -, m7, -, m8, hmp, -⟩ := h
  have hplaced : Placed hw kernPgdir nf1 pages nf2 envs nf3 kernPa pagesPa envsPa firstFree :=
    ⟨h1, h2, h3, h4, h5, h6, h7, h8, h9, h10⟩
  refine ⟨kernPgdir, nf1, pages, nf2, envs, nf3, kernPa, pagesPa, envsPa, firstFree, stackPa, hplaced,
    h11, fun i hi => ?_, ?_⟩
  · obtain ⟨t, t', ht⟩ := foldlM_each hmp i (List.mem_range.mpr hi)
    obtain ⟨pa, hpa, -⟩ := bind_eq_ok.mp ht
    exact ⟨pa, hpa⟩
  · rcases hplaced.booting.check nf3 true with ⟨hok, -⟩ | ⟨-, hno⟩
    · exact hok
    · rw [hplaced.dir] at hcheck
      exact absurd hcheck (hno m1)

/-- The state `mem_init` leaves: what was put on the free list, and what is on it now. -/
theorem memInit_state (h : memInit hw = .ok r) :
    ∃ ep l, Booting (initialFree (page2pa (ep + 31)) (i386DetectMemory hw).toNat) [] l r.phys ∧
      Window ep r.phys ∧ (ep + 31).toNat = ep.toNat + 31 ∧ ep.toNat + 31 ≤ 1024 ∧
      (i386DetectMemory hw).toNat ≤ 2 ^ 20 ∧ ∃ p ∈ l, EXTPHYSMEM ≤ page2pa p := by
  obtain ⟨kernPgdir, nf1, pages, nf2, envs, nf3, kernPa, pagesPa, envsPa, firstFree, stackPa, hplaced,
    hstack, hmp, hfree⟩ := memInit_placed h
  obtain ⟨l, m, hl, hwin, -, hrun⟩ := memInit_phases hplaced hstack hmp hfree
  have hearly := hplaced.early
  rw [hrun] at h
  simp only [bind_eq_ok] at h
  obtain ⟨m1, hm1, m2, hm2, h⟩ := h
  cases h
  rcases hl.check nf3 false with ⟨hok, m1', hm1', h1⟩ | ⟨-, hno⟩
  swap
  · exact absurd hm1 (hno m1)
  obtain rfl : m1 = m1' := Except.ok.inj (hm1.symm.trans hm1')
  obtain ⟨l1, hperm1, hl1⟩ := h1.booting
  obtain ⟨m2', hm2', h2⟩ := hl1.checkPageInstalledPgdir
    (nodup_initialFree (hearly.npages.trans (by decide)) firstFree) (hplaced.length hfree)
  obtain rfl : m2 = m2' := Except.ok.inj (hm2.symm.trans hm2')
  obtain ⟨l2, hperm2, hl2⟩ := h2.booting
  obtain ⟨p, hp, hle⟩ := hok.extmem
  refine ⟨PGNUM envsPa, l2, hearly.firstFree_eq ▸ hl2, fun s hs => ?_, hplaced.end_toNat, hearly.fits,
    hearly.npages.trans (by decide), p, (hperm1.trans hperm2).mem_iff.mp hp, hle⟩
  show kpte m2 _ = _
  rw [h2.kpte, h1.kpte]
  exact hwin s hs

theorem Placed.mem_initialFree
    (h : Placed hw kernPgdir nf1 pages nf2 envs nf3 kernPa pagesPa envsPa firstFree) :
    p ∈ initialFree firstFree (i386DetectMemory hw).toNat ↔
      1 ≤ p.toNat ∧ p.toNat < (i386DetectMemory hw).toNat ∧
        ¬ (160 ≤ p.toNat ∧ p.toNat < (PGNUM envsPa).toNat + 31) ∧ p.toNat ≠ 7 := by
  have hearly := h.early
  rw [hearly.firstFree_eq, SisOp.Jos.mem_initialFree (hearly.npages.trans (by decide)), h.end_toNat]

/-- What the checks assert holds of any part of what `page_init` let through, as long as `KADDR`
reaches all of memory. -/
theorem Placed.freeOk
    (h : Placed hw kernPgdir nf1 pages nf2 envs nf3 kernPa pagesPa envsPa firstFree)
    (hsmall : (i386DetectMemory hw).toNat ≤ 65536) (hn : m.npages = (i386DetectMemory hw).toNat)
    (hsub : ∀ p ∈ l, p ∈ initialFree firstFree (i386DetectMemory hw).toNat)
    (hlow : ∃ p ∈ l, p.toNat < 160) (hext : ∃ p ∈ l, 256 ≤ p.toNat) : FreeOk l m nf3 where
  each := fun p hp => by
    have hearly := h.early
    have hend := h.end_toNat
    have hhigh := hearly.high
    have horder := hearly.order
    have hin := h.mem_initialFree.mp (hsub p hp)
    have hnf := PADDR_ok h.firstFree_eq
    rw [hearly.firstFree_eq, page2pa_toNat, hend] at hnf
    have hpa : (page2pa p).toNat = p.toNat * 4096 := page2pa_toNat p
    unfold freePageOk
    rw [decide_eq_true_iff, hn]
    refine ⟨by omega, ?_, ?_, ?_, ?_, ?_, ?_⟩
    · exact fun heq => by
        rw [heq, show (0 : Word).toNat = 0 from rfl] at hpa
        omega
    · exact fun heq => by
        rw [heq, show IOPHYSMEM.toNat = 655360 from rfl] at hpa
        omega
    · exact fun heq => by
        rw [heq, show (EXTPHYSMEM - PGSIZE).toNat = 1044480 from rfl] at hpa
        omega
    · exact fun heq => by
        rw [heq, show EXTPHYSMEM.toNat = 1048576 from rfl] at hpa
        omega
    · rw [BitVec.lt_def, BitVec.le_def, BitVec.toNat_add, hpa, ← hnf,
        show EXTPHYSMEM.toNat = 1048576 from rfl, KERNBASE_toNat]
      omega
    · exact fun heq => by
        rw [heq, show MPENTRY_PADDR.toNat = 28672 from rfl] at hpa
        omega
  basemem := by
    obtain ⟨p, hp, hlt⟩ := hlow
    refine ⟨p, hp, ?_⟩
    rw [BitVec.lt_def, page2pa_toNat, show EXTPHYSMEM.toNat = 1048576 from rfl]
    omega
  extmem := by
    obtain ⟨p, hp, hle⟩ := hext
    refine ⟨p, hp, ?_⟩
    rw [BitVec.le_def, page2pa_toNat, show EXTPHYSMEM.toNat = 1048576 from rfl]
    omega

/-- With 70 pages behind the arrays `mem_init` completes. -/
theorem memInit_completes
    (h : Placed hw kernPgdir nf1 pages nf2 envs nf3 kernPa pagesPa envsPa firstFree)
    (hstack : PADDR hw.bootstack = .ok stackPa) (hmp : ∀ i, i < 8 → StackOk hw i)
    (hsmall : (i386DetectMemory hw).toNat ≤ 65536)
    (hroom : (PGNUM envsPa).toNat + 101 ≤ (i386DetectMemory hw).toNat) :
    ∃ r, memInit hw = .ok r := by
  have hearly := h.early
  have hhigh := hearly.high
  have horder := hearly.order
  have hlow : ∀ p ∈ pageRange 8 152, p ∈ initialFree firstFree (i386DetectMemory hw).toNat :=
    fun p hp => by
      rw [mem_pageRange (by decide)] at hp
      exact h.mem_initialFree.mpr (by omega)
  have hext : ∀ p ∈ pageRange ((PGNUM envsPa).toNat + 31) 70,
      p ∈ initialFree firstFree (i386DetectMemory hw).toNat := fun p hp => by
    rw [mem_pageRange (by omega)] at hp
    exact h.mem_initialFree.mpr (by omega)
  -- whatever has been taken, a page below 640 KB and one above the arrays are left
  have hfree : ∀ {l m}, Booting (initialFree firstFree (i386DetectMemory hw).toNat) [] l m →
      m.npages = (i386DetectMemory hw).toNat → FreeOk l m nf3 := fun {l m} hl hn => by
    obtain ⟨p, hp, hpl⟩ := hl.exists_free (nodup_pageRange (by decide)) hlow
      (by rw [length_pageRange]; decide)
    obtain ⟨q, hq, hql⟩ := hl.exists_free (nodup_pageRange (by omega)) hext
      (by rw [length_pageRange]; decide)
    rw [mem_pageRange (by decide)] at hp
    rw [mem_pageRange (by omega)] at hq
    exact h.freeOk hsmall hn hl.sub ⟨p, hpl, by omega⟩ ⟨q, hql, by omega⟩
  have hfirst := hfree h.booting (pageInit_npages ..)
  obtain ⟨l, m, hl, -, hn, hrun⟩ := memInit_phases h hstack hmp hfirst
  obtain ⟨-, m1, hm1, h1⟩ | ⟨hno, -⟩ := hl.check nf3 false
  swap
  · exact absurd (hfree hl hn) hno
  obtain ⟨l1, -, hl1⟩ := h1.booting
  obtain ⟨m2, hm2, -⟩ := hl1.checkPageInstalledPgdir
    (nodup_initialFree (hearly.npages.trans (by decide)) firstFree) (h.length hfirst)
  exact ⟨⟨m2, pages, envs⟩, hrun.trans (bind_eq_ok.mpr ⟨m1, hm1, bind_eq_ok.mpr ⟨m2, hm2, rfl⟩⟩)⟩

/-! ## The windows -/

/-- `kern_pgdir` maps `p` for the user between `UTOP` and `ULIM`, the entry at `UVPT` apart. -/
def Exposed (m : Phys) (p : Ppn) : Prop :=
  ∃ va pte, UTOP ≤ va ∧ va < ULIM ∧ PDX va ≠ PDX UVPT ∧ pteAt m m.kernPgdir va = some pte ∧
    pte &&& (PTE_P ||| PTE_U) = PTE_P ||| PTE_U ∧ PGNUM pte = p

/-- No page of the free list can be read through the windows. -/
def WindowsSealed (m : Phys) : Prop :=
  ∀ p ∈ freeCells m m.npages m.pageFreeList, ¬ Exposed m p

theorem pteAt_of_kpte {v : Ppn} {w : Word} (h : kpte m v = some w) :
    pteAt m m.kernPgdir (page2pa v) = some w := by
  obtain ⟨t, ht, hw⟩ := Option.bind_eq_some_iff.mp h
  obtain ⟨-, hvalid, rfl⟩ := kernTable_some.mp ht
  split at hw
  · rw [pteAt, if_pos hvalid]
    exact hw
  · cases hw

/-- What lies within 4 MB of the array of environments is exposed. -/
theorem Window.exposed (h : Window ep m) (hle : ep.toNat ≤ p.toNat) (hlt : p.toNat < ep.toNat + 1024) :
    Exposed m p := by
  set s := p.toNat - ep.toNat with hs
  have hp : ep + BitVec.ofNat 20 s = p := by
    refine BitVec.eq_of_toNat_eq ?_
    rw [BitVec.toNat_add, BitVec.toNat_ofNat]
    omega
  have hv : (page2pa (uenvsPage + BitVec.ofNat 20 s)).toNat = (977920 + s) * 4096 := by
    rw [page2pa_toNat, BitVec.toNat_add, BitVec.toNat_ofNat, show uenvsPage.toNat = 977920 from rfl]
    omega
  have hpte := h s (by omega)
  rw [hp] at hpte
  refine ⟨page2pa (uenvsPage + BitVec.ofNat 20 s), mkPte p PTE_U, ?_, ?_, ?_, pteAt_of_kpte hpte, ?_,
    PGNUM_mkPte p (by decide)⟩
  · rw [BitVec.le_def, hv, show UTOP.toNat = 4005560320 from rfl]
    omega
  · rw [BitVec.lt_def, hv, show ULIM.toNat = 4018143232 from rfl]
    omega
  · intro heq
    have hval := congrArg Fin.val heq
    rw [PDX_val, hv, show (PDX UVPT).val = 957 from rfl] at hval
    omega
  · rw [mkPte_and p PTE_U (by decide)]
    decide

/-- Whenever `mem_init` completes, the window at `UENVS` shows a free page. -/
theorem exposed_free (h : memInit hw = .ok r) :
    ∃ p ∈ freeCells r.phys r.phys.npages r.phys.pageFreeList, Exposed r.phys p := by
  obtain ⟨ep, l, hl, hwin, hend, hfits, hn, p, hp, hle⟩ := memInit_state h
  have hcells : freeCells r.phys r.phys.npages r.phys.pageFreeList = l :=
    freeCells_chain hl.chain hl.length_le
  rw [hcells]
  rw [BitVec.le_def, page2pa_toNat, show EXTPHYSMEM.toNat = 1048576 from rfl] at hle
  obtain ⟨h1, hnp, hout, -⟩ := (mem_initialFree hn).mp (hl.sub p hp)
  rw [hend] at hout
  -- the free page that the last check found is in the window, or the window is full of pages that
  -- were free, and 69 of them at most have become page tables
  by_cases hnear : p.toNat < ep.toNat + 1024
  · exact ⟨p, hp, hwin.exposed (by omega) hnear⟩
  · obtain ⟨q, hq, hql⟩ := hl.exists_free (T := pageRange (ep.toNat + 31) 993)
      (nodup_pageRange (by omega)) (fun q hq => by
        rw [mem_pageRange (by omega)] at hq
        rw [mem_initialFree hn, hend]
        omega) (by rw [length_pageRange]; decide)
    rw [mem_pageRange (by omega)] at hq
    exact ⟨q, hql, hwin.exposed (by omega) (by omega)⟩

/-- So the windows are never sealed. -/
theorem windows_unsealed (h : memInit hw = .ok r) : ¬ WindowsSealed r.phys := fun hsealed => by
  obtain ⟨p, hp, hexposed⟩ := exposed_free h
  exact hsealed p hp hexposed

end

/-! ## A machine with 8 MB -/

def machine8M : Machine where
  basemem := 640
  extmem := 7168
  ext16mem := 0
  kend := 0xF0280000
  bootstack := 0xF0118000
  percpuKstacks := 0xF0200000
  mem := fun _ _ => 0
  kendHigh := by decide
  bootstackAligned := by decide
  kstacksAligned := by decide

theorem machine8M_placed : Placed machine8M 0xF0280000 0xF0281000 0xF0281000 0xF0285000 0xF0285000
    0xF02A4000 0x280000 0x281000 0x285000 0x2A4000 where
  kernPgdir_eq := rfl
  kernPgdir_set := rfl
  kernPa_eq := rfl
  pages_eq := rfl
  pages_set := rfl
  envs_eq := rfl
  envs_set := rfl
  firstFree_eq := rfl
  pagesPa_eq := rfl
  envsPa_eq := rfl

theorem machine8M_completes : ∃ r, memInit machine8M = .ok r := by
  refine memInit_completes machine8M_placed rfl (fun i hi => ?_) (by decide)
    (by decide)
  have hstart : (machine8M.percpuKstacks + BitVec.ofNat 32 i * KSTKSIZE).toNat =
      0xF0200000 + i * 32768 := by
    rw [BitVec.toNat_add, BitVec.toNat_mul, BitVec.toNat_ofNat,
      show machine8M.percpuKstacks.toNat = 0xF0200000 from rfl,
      show KSTKSIZE.toNat = 32768 from rfl]
    omega
  refine ⟨_, if_neg (BitVec.not_lt.mpr ?_)⟩
  rw [BitVec.le_def, hstart, KERNBASE_toNat]
  omega

/-- Not on this machine. -/
theorem machine8M_unsealed : ∃ r, memInit machine8M = .ok r ∧ ¬ WindowsSealed r.phys := by
  obtain ⟨r, hr⟩ := machine8M_completes
  exact ⟨r, hr, windows_unsealed hr⟩

/-- Here that `mem_init` completes does not mean that the windows are sealed. -/
theorem machine8M_not_sealed : ¬ ∀ r, memInit machine8M = .ok r → WindowsSealed r.phys := by
  obtain ⟨r, hr⟩ := machine8M_completes
  obtain ⟨p, hp, hexposed⟩ := exposed_free hr
  exact fun hsealed => hsealed r hr p hp hexposed

end SisOp.Jos
