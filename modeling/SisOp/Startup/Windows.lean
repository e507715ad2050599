/-
# `SisOp.Startup.Windows` — what `mem_init` leaves, and the windows above `UTOP`

`memInit_state` puts the phases together: when `mem_init` completes, the free list
is a part of what `page_init` chained, at most 69 pages short of it, and the window
at `UENVS` shows the 1024 physical pages that begin with the `envs` array.  The
array takes 31 of them.
-/
import SisOp.Startup.FreeList

namespace SisOp.Jos

open SisOp.Lib

section

variable {S l : List Ppn} {m m' : Phys} {a p b v : Ppn} {perm va pa size : Word} {hw : Machine}
  {nf nf' n r : Word}

/-! ## `boot_alloc` -/

theorem KERNBASE_toNat : KERNBASE.toNat = 4026531840 := rfl

theorem PADDR_ok (h : PADDR va = .ok pa) : pa.toNat + 4026531840 = va.toNat := by
  unfold PADDR at h
  split at h
  · cases h
  · rename_i hlt
    cases h
    have hle : KERNBASE.toNat ≤ va.toNat := BitVec.le_def.mp (BitVec.not_lt.mp hlt)
    have hlt' := va.isLt
    rw [BitVec.toNat_sub, KERNBASE_toNat]
    rw [KERNBASE_toNat] at hle
    omega

theorem bootAlloc_ok (hn : n ≠ 0) (h : bootAlloc hw nf n = .ok (r, nf')) :
    r = (if nf = 0 then ROUNDUP hw.kend PGSIZE else nf) ∧ nf' = r + ROUNDUP n PGSIZE ∧
      KERNBASE.toNat ≤ r.toNat ∧
      ∃ pa, PADDR r = .ok pa ∧ ¬ i386DetectMemory hw * PGSIZE < ROUNDUP n PGSIZE + pa := by
  unfold bootAlloc at h
  simp only [if_neg hn, bind_eq_ok] at h
  obtain ⟨pa, hpa, h⟩ := h
  split at h
  · cases h
  · rename_i hroom
    cases h
    have hval := PADDR_ok hpa
    rw [KERNBASE_toNat]
    exact ⟨rfl, rfl, by omega, pa, hpa, hroom⟩

theorem bootMemset_ok (h : bootMemset va n = .ok ()) : va.toNat + n.toNat ≤ 4030726144 := by
  unfold bootMemset at h
  split at h
  · assumption
  · cases h

theorem detect_le (hw : Machine) : (i386DetectMemory hw).toNat ≤ 1052656 := by
  have hbase : (hw.basemem.setWidth 32 : Word).toNat < 65536 := by
    rw [BitVec.toNat_setWidth]
    omega
  have hext : (hw.extmem.setWidth 32 : Word).toNat < 65536 := by
    rw [BitVec.toNat_setWidth]
    omega
  have hext16 : (hw.ext16mem.setWidth 32 : Word).toNat < 65536 := by
    rw [BitVec.toNat_setWidth]
    omega
  unfold i386DetectMemory
  simp only [BitVec.toNat_udiv, show (4 : Word).toNat = 4 from rfl]
  split
  · rw [BitVec.toNat_add, BitVec.toNat_mul, BitVec.toNat_mul]
    simp only [show (16 : Word).toNat = 16 from rfl, show (1024 : Word).toNat = 1024 from rfl,
      show (64 : Word).toNat = 64 from rfl]
    omega
  · split
    · rw [BitVec.toNat_add, BitVec.toNat_mul]
      simp only [show (1 : Word).toNat = 1 from rfl, show (1024 : Word).toNat = 1024 from rfl]
      omega
    · omega

/-- A page-aligned address is the address of its page. -/
theorem page2pa_PGNUM (h : pa.toNat % 4096 = 0) : page2pa (PGNUM pa) = pa := by
  refine BitVec.eq_of_toNat_eq ?_
  rw [page2pa_toNat, PGNUM_toNat]
  omega

/-- Where the boot allocator puts the directory and the two arrays: `kp`, `pp` and `ep` are their
first pages. -/
structure Early (hw : Machine) (kernPa pagesPa envsPa firstFree : Word) (kp pp ep : Ppn) : Prop where
  kernPa_eq : kernPa = page2pa kp
  pagesPa_eq : pagesPa = page2pa pp
  envsPa_eq : envsPa = page2pa ep
  firstFree_eq : firstFree = page2pa (ep + 31)
  high : 256 ≤ kp.toNat
  order : kp.toNat < ep.toNat
  fits : ep.toNat + 31 ≤ 1024
  npages : (i386DetectMemory hw).toNat ≤ 2 ^ 19

/-- What `boot_alloc` returned, and that the `memset`s and `PADDR`s went through. -/
structure Placed (hw : Machine) (kernPgdir nf1 pages nf2 envs nf3 kernPa pagesPa envsPa firstFree : Word) :
    Prop where
  kernPgdir_eq : bootAlloc hw 0 PGSIZE = .ok (kernPgdir, nf1)
  kernPgdir_set : bootMemset kernPgdir PGSIZE = .ok ()
  kernPa_eq : PADDR kernPgdir = .ok kernPa
  pages_eq : bootAlloc hw nf1 (sizeofPageInfo * i386DetectMemory hw) = .ok (pages, nf2)
  pages_set : bootMemset pages (sizeofPageInfo * i386DetectMemory hw) = .ok ()
  envs_eq : bootAlloc hw nf2 sizeofEnvs = .ok (envs, nf3)
  envs_set : bootMemset envs sizeofEnvs = .ok ()
  firstFree_eq : PADDR nf3 = .ok firstFree
  pagesPa_eq : PADDR pages = .ok pagesPa
  envsPa_eq : PADDR envs = .ok envsPa

theorem Placed.early {kernPgdir nf1 pages nf2 envs nf3 kernPa pagesPa envsPa firstFree : Word}
    (h : Placed hw kernPgdir nf1 pages nf2 envs nf3 kernPa pagesPa envsPa firstFree) :
    Early hw kernPa pagesPa envsPa firstFree (PGNUM kernPa) (PGNUM pagesPa) (PGNUM envsPa) := by
  obtain ⟨ha1, hm1, hp1, ha2, hm2, ha3, hm3, hff, hpp, hep⟩ := h
  have hdetect := detect_le hw
  have hend : 0xF0100000 ≤ hw.kend.toNat := hw.kendHigh
  -- the directory
  obtain ⟨hr1, hn1, hle1, pa1, hpa1, hroom⟩ := bootAlloc_ok (by decide) ha1
  have hr1' := congrArg BitVec.toNat hr1
  rw [if_pos rfl, ROUNDUP_PGSIZE] at hr1'
  rw [KERNBASE_toNat] at hle1
  have hlt1 := bootMemset_ok hm1
  rw [PGSIZE_toNat] at hlt1
  have hn1' : nf1.toNat = kernPgdir.toNat + 4096 := by
    rw [hn1, BitVec.toNat_add, ROUNDUP_PGSIZE, PGSIZE_toNat]
    omega
  have hkp := PADDR_ok hp1
  -- the array of pages
  have hpos : 0 < (i386DetectMemory hw).toNat := by
    by_contra hzero
    have hpa := PADDR_ok hpa1
    refine hroom (BitVec.lt_def.mpr ?_)
    rw [BitVec.toNat_mul, BitVec.toNat_add, ROUNDUP_PGSIZE, PGSIZE_toNat,
      Nat.eq_zero_of_not_pos hzero]
    omega
  have h8 : (sizeofPageInfo * i386DetectMemory hw).toNat = 8 * (i386DetectMemory hw).toNat := by
    rw [BitVec.toNat_mul, show sizeofPageInfo.toNat = 8 from rfl]
    omega
  have hne8 : sizeofPageInfo * i386DetectMemory hw ≠ 0 := fun h0 => by
    rw [h0] at h8
    simp only [show (0 : Word).toNat = 0 from rfl] at h8
    omega
  obtain ⟨hr2, hn2, -, -⟩ := bootAlloc_ok hne8 ha2
  have hnf1 : nf1 ≠ 0 := fun h0 => by
    rw [h0, show (0 : Word).toNat = 0 from rfl] at hn1'
    omega
  rw [if_neg hnf1] at hr2
  have hlt2 := bootMemset_ok hm2
  rw [h8] at hlt2
  have hn2' : nf2.toNat = pages.toNat + (8 * (i386DetectMemory hw).toNat + 4095) / 4096 * 4096 := by
    rw [hn2, BitVec.toNat_add, ROUNDUP_PGSIZE, h8]
    have hlt := pages.isLt
    omega
  have hpages := PADDR_ok hpp
  -- the array of environments
  have hr2' := congrArg BitVec.toNat hr2
  obtain ⟨hr3, hn3, -, -⟩ := bootAlloc_ok (by decide) ha3
  have hnf2 : nf2 ≠ 0 := fun h0 => by
    rw [h0, show (0 : Word).toNat = 0 from rfl] at hn2'
    omega
  rw [if_neg hnf2] at hr3
  have hlt3 := bootMemset_ok hm3
  rw [show sizeofEnvs.toNat = 126976 from rfl] at hlt3
  have hn3' : nf3.toNat = envs.toNat + 126976 := by
    rw [hn3, BitVec.toNat_add, ROUNDUP_PGSIZE, show sizeofEnvs.toNat = 126976 from rfl]
    omega
  have hr3' := congrArg BitVec.toNat hr3
  have henvs := PADDR_ok hep
  have hfirst := PADDR_ok hff
  have hkernAl : kernPa.toNat % 4096 = 0 := by omega
  have hpagesAl : pagesPa.toNat % 4096 = 0 := by omega
  have hsize : PTSIZE.toNat / 4096 = 1024 := rfl
  have henvsAl : envsPa.toNat % 4096 = 0 := by omega
  refine ⟨(page2pa_PGNUM hkernAl).symm, (page2pa_PGNUM hpagesAl).symm, (page2pa_PGNUM henvsAl).symm,
    BitVec.eq_of_toNat_eq ?_, ?_, ?_, ?_, ?_⟩
  · rw [page2pa_toNat, BitVec.toNat_add, PGNUM_toNat, show (31 : Ppn).toNat = 31 from rfl]
    omega
  · rw [PGNUM_toNat]
    omega
  · rw [PGNUM_toNat, PGNUM_toNat]
    omega
  · rw [PGNUM_toNat]
    omega
  · omega

/-! ## What `page_init` lets through -/

theorem incluir_iff {f : Ppn} : incluirEnPaginasLibres (page2pa f) p = true ↔
    p.toNat ≠ 0 ∧ ¬ (160 ≤ p.toNat ∧ p.toNat < f.toNat) ∧ p.toNat ≠ 7 := by
  have hzero : page2pa p = 0 ↔ p.toNat = 0 := by
    rw [← BitVec.toNat_inj, page2pa_toNat]
    exact Nat.mul_eq_zero.trans (by simp)
  have hio : IOPHYSMEM ≤ page2pa p ↔ 160 ≤ p.toNat := by
    rw [BitVec.le_def, page2pa_toNat, show IOPHYSMEM.toNat = 655360 from rfl]
    omega
  have hfirst : page2pa p < page2pa f ↔ p.toNat < f.toNat := by
    rw [BitVec.lt_def, page2pa_toNat, page2pa_toNat]
    omega
  have hentry : page2pa p = MPENTRY_PADDR ↔ p.toNat = 7 := by
    rw [← BitVec.toNat_inj, page2pa_toNat, show MPENTRY_PADDR.toNat = 28672 from rfl]
    omega
  unfold incluirEnPaginasLibres
  simp only [hzero, hio, hfirst, hentry]
  split_ifs <;> simp_all

theorem mem_initialFree {n : Nat} {f : Ppn} (hn : n ≤ 2 ^ 20) :
    p ∈ initialFree (page2pa f) n ↔
      1 ≤ p.toNat ∧ p.toNat < n ∧ ¬ (160 ≤ p.toNat ∧ p.toNat < f.toNat) ∧ p.toNat ≠ 7 := by
  rw [initialFree, List.mem_reverse, List.mem_filter, mem_pagesFrom1 hn, incluir_iff]
  omega

theorem nodup_initialFree {n : Nat} (hn : n ≤ 2 ^ 20) (ff : Word) : (initialFree ff n).Nodup :=
  List.nodup_reverse.mpr ((nodup_pagesFrom1 hn).filter _)

/-- With memory above 1 MB, 152 pages of low memory are free. -/
theorem length_initialFree {n : Nat} {f : Ppn} (hn : n ≤ 2 ^ 20) (hext : 256 ≤ n) :
    72 < (initialFree (page2pa f) n).length := by
  have hsub : pageRange 8 152 ⊆ initialFree (page2pa f) n := fun p hp => by
    obtain ⟨h1, h2⟩ := (mem_pageRange (by decide)).mp hp
    exact (mem_initialFree hn).mpr (by omega)
  have hle := ((nodup_pageRange (x := 8) (n := 152) (by decide)).subperm hsub).length_le
  rw [length_pageRange] at hle
  omega

/-! ## The mappings of `mem_init` -/

/-- The first virtual pages of the windows and of the stacks, and that of `KERNBASE`. -/
def uenvsPage : Ppn := 0xEEC00
def upagesPage : Ppn := 0xEF000
def stackPage : Ppn := 0xEFFF8
def kernbasePage : Ppn := 0xF0000

/-- The window at `UENVS` shows the 1024 pages from `ep` on. -/
def Window (ep : Ppn) (m : Phys) : Prop :=
  ∀ s, s < 1024 → kpte m (uenvsPage + BitVec.ofNat 20 s) = some (mkPte (ep + BitVec.ofNat 20 s) PTE_U)

theorem Booting.mapRegion {b : Ppn} {n : Nat} (hS : S.Nodup) (hlen : 69 < S.length)
    (h : ∃ l, Booting S [] l m) (hva : va = page2pa b) (hpa : pa.toNat % 4096 = 0)
    (hsize : size.toNat / 4096 = n) (hperm : (perm ||| PTE_P) &&& userWrite ≠ userWrite)
    (hn : n ≤ 2 ^ 20) (hkern : ∀ s, s < n → KernPage (b + BitVec.ofNat 20 s)) :
    ∃ m', bootMapRegion m m.kernPgdir va size pa perm = .ok m' ∧ Booted S m m' ∧ ∀ v', kpte m' v' =
      if (v' - b).toNat < n then some (mkPte (PGNUM pa + (v' - b)) perm) else kpte m v' := by
  obtain ⟨m', hloop, hbooted, hkpte⟩ := Booting.mapLoop (p := PGNUM pa) hS hlen hperm n h hn hkern
  refine ⟨m', ?_, hbooted, hkpte⟩
  rw [bootMapRegion, hsize, hva, ← page2pa_PGNUM hpa]
  exact hloop

theorem kernPage_window {b : Ppn} (hb : b.toNat = 955 * 1024 ∨ b.toNat = 956 * 1024) (s : Nat)
    (hs : s < 1024) : KernPage (b + BitVec.ofNat 20 s) := by
  have hval : (b + BitVec.ofNat 20 s).toNat = b.toNat + s := by
    rw [BitVec.toNat_add, BitVec.toNat_ofNat]
    omega
  rw [kernPage_iff, hval]
  omega

/-- A mapping above the window leaves it alone. -/
theorem Window.kept {b ep : Ppn} {n : Nat} {f : Ppn → Word} (h : Window ep m)
    (hb : 0xEF000 ≤ b.toNat) (hn : b.toNat + n ≤ 2 ^ 20)
    (hkpte : ∀ v', kpte m' v' = if (v' - b).toNat < n then some (f v') else kpte m v') :
    Window ep m' := fun s hs => by
  have hout : ¬ (uenvsPage + BitVec.ofNat 20 s - b).toNat < n := by
    rw [BitVec.toNat_sub, BitVec.toNat_add, BitVec.toNat_ofNat,
      show uenvsPage.toNat = 977920 from rfl]
    omega
  rw [hkpte, if_neg hout]
  exact h s hs

/-- A per-CPU stack has a physical address. -/
def StackOk (hw : Machine) (i : Nat) : Prop :=
  ∃ pa, PADDR (hw.percpuKstacks + BitVec.ofNat 32 i * KSTKSIZE) = .ok pa

/-- The loop of `mem_init_mp`. -/
theorem Booting.memInitMp {ep : Ppn} (hS : S.Nodup) (hlen : 69 < S.length) (is : List Nat) :
    ∀ {m : Phys}, (∀ i ∈ is, i < 8 ∧ StackOk hw i) → (∃ l, Booting S [] l m) → Window ep m →
    ∃ m', is.foldlM (fun m i => do
        let pa ← PADDR (hw.percpuKstacks + BitVec.ofNat 32 i * KSTKSIZE)
        bootMapRegion m m.kernPgdir
          (KSTACKTOP - KSTKSIZE - BitVec.ofNat 32 i * (KSTKSIZE + KSTKGAP)) KSTKSIZE pa PTE_W) m =
          .ok m' ∧ Booted S m m' ∧ Window ep m' := by
  induction is with
  | nil => exact fun _ h hw => ⟨_, rfl, ⟨h, rfl, rfl⟩, hw⟩
  | cons i is ih =>
      intro m his h hwin
      obtain ⟨hi, pa, hpa⟩ := his i List.mem_cons_self
      have hstart : (stackPage - BitVec.ofNat 20 (16 * i)).toNat = 0xEFFF8 - 16 * i := by
        rw [BitVec.toNat_sub, BitVec.toNat_ofNat, show stackPage.toNat = 983032 from rfl]
        omega
      have hva : KSTACKTOP - KSTKSIZE - BitVec.ofNat 32 i * (KSTKSIZE + KSTKGAP) =
          page2pa (stackPage - BitVec.ofNat 20 (16 * i)) := by
        refine BitVec.eq_of_toNat_eq ?_
        rw [page2pa_toNat, hstart, BitVec.toNat_sub, BitVec.toNat_mul, BitVec.toNat_ofNat,
          show (KSTACKTOP - KSTKSIZE).toNat = 4026499072 from rfl,
          show (KSTKSIZE + KSTKGAP).toNat = 65536 from rfl]
        omega
      have halign : pa.toNat % 4096 = 0 := by
        have hval := PADDR_ok hpa
        have hmod : hw.percpuKstacks.toNat % 4096 = 0 := by
          have hal := congrArg BitVec.toNat hw.kstacksAligned
          rwa [BitVec.toNat_umod, PGSIZE_toNat] at hal
        rw [BitVec.toNat_add, BitVec.toNat_mul, BitVec.toNat_ofNat,
          show KSTKSIZE.toNat = 32768 from rfl] at hval
        omega
      obtain ⟨m1, hmap, h1, hk1⟩ := Booting.mapRegion hS hlen h hva halign
        (show KSTKSIZE.toNat / 4096 = 8 from rfl)
        (show (PTE_W ||| PTE_P) &&& userWrite ≠ userWrite by decide) (by decide)
        (kernPage_of_le (by omega) (by omega))
      obtain ⟨m2, hrest, h2, hwin2⟩ := ih (fun j hj => his j (List.mem_cons_of_mem _ hj)) h1.booting
        (hwin.kept (by omega) (by omega) hk1)
      refine ⟨m2, ?_, h1.trans h2, hwin2⟩
      rw [List.foldlM_cons]
      exact bind_eq_ok.mpr ⟨m1, bind_eq_ok.mpr ⟨pa, hpa, hmap⟩, hrest⟩

/-- The static mappings, from the tests to the last check. -/
theorem Booting.mapAll {ep : Ppn} {pagesPa envsPa stackPa : Word} (hS : S.Nodup)
    (hlen : 69 < S.length) (h : ∃ l, Booting S [] l m) (hpages : pagesPa.toNat % 4096 = 0)
    (henvs : envsPa = page2pa ep) (hstack : stackPa.toNat % 4096 = 0)
    (hmp : ∀ i, i < 8 → StackOk hw i) :
    ∃ m1 m2 m3 m4 m5, bootMapRegion m m.kernPgdir UPAGES PTSIZE pagesPa PTE_U = .ok m1 ∧
      bootMapRegion m1 m1.kernPgdir UENVS PTSIZE envsPa PTE_U = .ok m2 ∧
      bootMapRegion m2 m2.kernPgdir (KSTACKTOP - KSTKSIZE) KSTKSIZE stackPa PTE_W = .ok m3 ∧
      bootMapRegion m3 m3.kernPgdir KERNBASE 0x10000000 0 PTE_W = .ok m4 ∧
      SisOp.Jos.memInitMp hw m4 = .ok m5 ∧ Booted S m m5 ∧ Window ep m5 := by
  have hU : (PTE_U ||| PTE_P) &&& userWrite ≠ userWrite := by decide
  have hW : (PTE_W ||| PTE_P) &&& userWrite ≠ userWrite := by decide
  have hsize : PTSIZE.toNat / 4096 = 1024 := rfl
  have henvsAl : envsPa.toNat % 4096 = 0 := by
    rw [henvs, page2pa_toNat]
    omega
  obtain ⟨m1, hm1, h1, -⟩ := Booting.mapRegion hS hlen h
    (show UPAGES = page2pa upagesPage from rfl) hpages hsize hU (by decide)
    (kernPage_window (Or.inr rfl))
  obtain ⟨m2, hm2, h2, hk2⟩ := Booting.mapRegion hS hlen h1.booting
    (show UENVS = page2pa uenvsPage from rfl) henvsAl hsize hU (by decide)
    (kernPage_window (Or.inl rfl))
  have hwin2 : Window ep m2 := fun s hs => by
    have hval : uenvsPage + BitVec.ofNat 20 s - uenvsPage = BitVec.ofNat 20 s := by
      rw [BitVec.add_comm, BitVec.add_sub_cancel]
    have hlt : (BitVec.ofNat 20 s).toNat < 1024 := by
      rw [BitVec.toNat_ofNat]
      omega
    have hep : PGNUM envsPa = ep := by
      rw [henvs]
      exact PGNUM_page2pa ep
    rw [hk2, hval, if_pos hlt, hep]
  obtain ⟨m3, hm3, h3, hk3⟩ := Booting.mapRegion hS hlen h2.booting
    (show KSTACKTOP - KSTKSIZE = page2pa stackPage from rfl) hstack
    (show KSTKSIZE.toNat / 4096 = 8 from rfl) hW (by decide)
    (kernPage_of_le (by decide) (by decide))
  obtain ⟨m4, hm4, h4, hk4⟩ := Booting.mapRegion hS hlen h3.booting
    (show KERNBASE = page2pa kernbasePage from rfl) (show (0 : Word).toNat % 4096 = 0 from rfl)
    (show (0x10000000 : Word).toNat / 4096 = 65536 from rfl) hW (by decide)
    (kernPage_of_le (by decide) (by decide))
  have hwin4 : Window ep m4 :=
    (hwin2.kept (by decide) (by decide) hk3).kept (by decide) (by decide) hk4
  obtain ⟨m5, hm5, h5, hwin5⟩ := Booting.memInitMp hS hlen (List.range NCPU)
    (fun i hi => ⟨List.mem_range.mp hi, hmp i (List.mem_range.mp hi)⟩) h4.booting hwin4
  exact ⟨m1, m2, m3, m4, m5, hm1, hm2, hm3, hm4, hm5,
    (((h1.trans h2).trans h3).trans h4).trans h5, hwin5⟩

/-! ## `mem_init` -/

theorem bind_of_ok {ε α β : Type} {x : Except ε α} {a : α} (h : x = .ok a) (f : α → Except ε β) :
    (x >>= f) = f a := by
  rw [h]
  rfl

section

variable {kernPgdir nf1 pages nf2 envs nf3 kernPa pagesPa envsPa firstFree stackPa : Word}

/-- The directory is cleared and shows itself at `UVPT`. -/
theorem Placed.dir (h : Placed hw kernPgdir nf1 pages nf2 envs nf3 kernPa pagesPa envsPa firstFree) :
    ((bootPhys hw (PGNUM kernPa)).fill (PGNUM kernPa) fun _ => 0).store
      (PGNUM kernPa, PDX UVPT) (kernPa ||| PTE_U ||| PTE_P) = dirPhys hw (PGNUM kernPa) := by
  rw [dirPhys, ← h.early.kernPa_eq]

/-- The first page after the array of environments. -/
theorem Placed.end_toNat
    (h : Placed hw kernPgdir nf1 pages nf2 envs nf3 kernPa pagesPa envsPa firstFree) :
    (PGNUM envsPa + 31).toNat = (PGNUM envsPa).toNat + 31 := by
  have hfits := h.early.fits
  rw [BitVec.toNat_add, show (31 : Ppn).toNat = 31 from rfl]
  omega

theorem Placed.booting
    (h : Placed hw kernPgdir nf1 pages nf2 envs nf3 kernPa pagesPa envsPa firstFree) :
    Booting (initialFree firstFree (i386DetectMemory hw).toNat) []
      (initialFree firstFree (i386DetectMemory hw).toNat)
      (pageInit firstFree (dirPhys hw (PGNUM kernPa))) := by
  have hearly := h.early
  refine Booting.initial (hearly.npages.trans (by decide)) ?_
  rw [Bool.eq_false_iff, hearly.firstFree_eq]
  intro hin
  have hhigh := hearly.high
  have horder := hearly.order
  have hend := h.end_toNat
  have hin' := incluir_iff.mp hin
  omega

/-- When the first check passes, there is memory above 1 MB. -/
theorem Placed.length
    (h : Placed hw kernPgdir nf1 pages nf2 envs nf3 kernPa pagesPa envsPa firstFree)
    (hfree : FreeOk (initialFree firstFree (i386DetectMemory hw).toNat) m nf) :
    72 < (initialFree firstFree (i386DetectMemory hw).toNat).length := by
  have hearly := h.early
  have hn : (i386DetectMemory hw).toNat ≤ 2 ^ 20 := hearly.npages.trans (by decide)
  obtain ⟨p, hp, hle⟩ := hfree.extmem
  rw [hearly.firstFree_eq, mem_initialFree hn] at hp
  rw [BitVec.le_def, page2pa_toNat, show EXTPHYSMEM.toNat = 1048576 from rfl] at hle
  rw [hearly.firstFree_eq]
  exact length_initialFree hn (by omega)

/-- When the first check passes, everything up to the last one goes through. -/
theorem memInit_phases
    (h : Placed hw kernPgdir nf1 pages nf2 envs nf3 kernPa pagesPa envsPa firstFree)
    (hstack : PADDR hw.bootstack = .ok stackPa) (hmp : ∀ i, i < 8 → StackOk hw i)
    (hfree : FreeOk (initialFree firstFree (i386DetectMemory hw).toNat)
      (pageInit firstFree (dirPhys hw (PGNUM kernPa))) nf3) :
    ∃ l m, Booting (initialFree firstFree (i386DetectMemory hw).toNat) [] l m ∧
      Window (PGNUM envsPa) m ∧ m.npages = (i386DetectMemory hw).toNat ∧
      memInit hw = (do
        let m ← checkPageFreeList m nf3 false
        let m ← checkPageInstalledPgdir m
        return ⟨m, pages, envs⟩) := by
  have hearly := h.early
  have hn : (i386DetectMemory hw).toNat ≤ 2 ^ 20 := hearly.npages.trans (by decide)
  have hS := nodup_initialFree hn firstFree
  have hlen := h.length hfree
  have h0 := h.booting
  have hdir := h.dir
  -- the first check and the tests
  obtain ⟨-, m1, hm1, h1⟩ | ⟨hno, -⟩ := h0.check nf3 true
  swap
  · exact absurd hfree hno
  obtain ⟨l1, -, hl1⟩ := h1.booting
  obtain ⟨m2, hm2, h2⟩ := hl1.checkPageAlloc hS hlen
  obtain ⟨l2, -, hl2⟩ := h2.booting
  obtain ⟨m3, hm3, h3⟩ := hl2.checkPage hS hlen
  -- the mappings
  have hpagesAl : pagesPa.toNat % 4096 = 0 := by
    rw [hearly.pagesPa_eq, page2pa_toNat]
    omega
  have hstackAl : stackPa.toNat % 4096 = 0 := by
    have hval := PADDR_ok hstack
    have hal := congrArg BitVec.toNat hw.bootstackAligned
    rw [BitVec.toNat_umod, PGSIZE_toNat, show (0 : Word).toNat = 0 from rfl] at hal
    omega
  obtain ⟨m4, m5, m6, m7, m8, hm4, hm5, hm6, hm7, hm8, h8, hwin⟩ := Booting.mapAll hS
    (show 69 < _ by omega) h3.booting hpagesAl hearly.envsPa_eq hstackAl hmp
  obtain ⟨l8, hl8⟩ := h8.booting
  refine ⟨l8, m8, hl8, hwin, ?_, ?_⟩
  · exact h8.npages.trans (h3.npages.trans (h2.npages.trans (h1.npages.trans (pageInit_npages ..))))
  · rw [← hdir] at hm1
    unfold memInit
    simp only [bind_of_ok h.kernPgdir_eq, bind_of_ok h.kernPgdir_set, bind_of_ok h.kernPa_eq,
      bind_of_ok h.pages_eq, bind_of_ok h.pages_set, bind_of_ok h.envs_eq, bind_of_ok h.envs_set,
      bind_of_ok h.firstFree_eq, bind_of_ok hm1, bind_of_ok hm2, bind_of_ok hm3,
      bind_of_ok h.pagesPa_eq, bind_of_ok hm4, bind_of_ok h.envsPa_eq, bind_of_ok hm5,
      bind_of_ok hstack, bind_of_ok hm6, bind_of_ok hm7, bind_of_ok hm8]

end

end

end SisOp.Jos
