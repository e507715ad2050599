/-
# `SisOp.Startup.Mmio` — the reservations of `mmio_map_region`

`mmio_map_region` keeps a cursor into `[MMIOBASE, MMIOLIM)`, rounds the size up to
pages and maps the region at the cursor.  A run is a sequence of calls that return;
`Reserved` is what a caller relies on, and it is claimed of every call at the end of
the run, so a later call must not undo it.

Both the rounding and the sum with the cursor are 32-bit.  A size within a page of
`2 ^ 32` is rounded to 0 and passes the test of the limit with nothing mapped, and a
sum that wraps passes it with the whole address space mapped over; `NoWrap` keeps
the calls where neither happens.
-/
import SisOp.Startup.Exposed
import SisOp.Memory.UserMem
import SisOp.Lib.Run

namespace SisOp.Jos

open SisOp.Lib

variable {S l : List Ppn} {m m' : Phys}

/-- A size rounded up to pages, without a limit. -/
def pagesUp (n : Nat) : Nat := (n + 4095) / 4096 * 4096

/-- The kernel's page tables and the static `base` of `mmio_map_region`. -/
structure Mmio where
  phys : Phys
  base : Word

/-- A call of `mmio_map_region(pa, size)` that has returned `ret`. -/
structure MmioCall where
  pa : Word
  size : Word
  ret : Word

/-- One call that returns, with a page-aligned `pa`. -/
def mmioStep (s : Mmio) (c : MmioCall) (s' : Mmio) : Prop :=
  c.pa.toNat % 4096 = 0 ∧
    mmioMapRegion s.phys s.base c.pa c.size = .ok (c.ret, s'.base, s'.phys)

/-- The rounded size can be added to the cursor. -/
def NoWrap (s : Mmio) (c : MmioCall) : Prop := s.base.toNat + pagesUp c.size.toNat < 2 ^ 32

/-- What the caller relies on: a page-aligned region inside the window, whose pages are those of
`[pa, pa + size)`, uncached and for the kernel only. -/
structure Reserved (m : Phys) (c : MmioCall) : Prop where
  aligned : c.ret.toNat % 4096 = 0
  ge : MMIOBASE.toNat ≤ c.ret.toNat
  le : c.ret.toNat + c.size.toNat ≤ MMIOLIM.toNat
  maps : ∀ k, k < c.size.toNat → ∃ pte,
    pteAt m m.kernPgdir (c.ret + BitVec.ofNat 32 k) = some pte ∧ PTE_VALID pte ∧
      PGNUM pte = PGNUM (c.pa + BitVec.ofNat 32 k) ∧ pte &&& PTE_PCD = PTE_PCD ∧ pte &&& PTE_U = 0

/-- Two regions, as ranges of natural numbers, have no address in common. -/
def Apart (c c' : MmioCall) : Prop :=
  ∀ x, ¬ ((c.ret.toNat ≤ x ∧ x < c.ret.toNat + c.size.toNat) ∧
    c'.ret.toNat ≤ x ∧ x < c'.ret.toNat + c'.size.toNat)

/-! ## One call -/

def mmioPerm : Word := PTE_PCD ||| PTE_PWT ||| PTE_W

/-- The cursor is at a page of the window. -/
structure Cursor (base : Word) : Prop where
  aligned : base.toNat % 4096 = 0
  ge : MMIOBASE.toNat ≤ base.toNat
  lt : base.toNat < MMIOLIM.toNat

theorem MMIOBASE_toNat : MMIOBASE.toNat = 4018143232 := rfl
theorem MMIOLIM_toNat : MMIOLIM.toNat = 4022337536 := rfl

/-- What a call that does not wrap leaves. -/
structure CallMapped (S : List Ppn) (s : Mmio) (c : MmioCall) (s' : Mmio) : Prop where
  ret : c.ret = s.base
  base : s'.base.toNat = s.base.toNat + pagesUp c.size.toNat
  cursor : Cursor s'.base
  booting : ∃ l, Booting S [] l s'.phys
  kpte : ∀ v, kpte s'.phys v =
    if (v - PGNUM s.base).toNat < pagesUp c.size.toNat / 4096 then
      some (mkPte (PGNUM c.pa + (v - PGNUM s.base)) mmioPerm)
    else kpte s.phys v

theorem mmioStep_mapped (hS : S.Nodup) (hlen : 69 < S.length) {s s' : Mmio} {c : MmioCall}
    (hb : ∃ l, Booting S [] l s.phys) (hcur : Cursor s.base) (hstep : mmioStep s c s')
    (hwrap : NoWrap s c) : CallMapped S s c s' := by
  obtain ⟨hpa, hrun⟩ := hstep
  have hal := hcur.aligned
  have hge := hcur.ge
  have hsize := c.size.isLt
  have hup : pagesUp c.size.toNat = (c.size.toNat + 4095) / 4096 * 4096 := rfl
  rw [NoWrap] at hwrap
  rw [MMIOBASE_toNat] at hge
  have hround : (ROUNDUP c.size PGSIZE).toNat = pagesUp c.size.toNat := by
    rw [ROUNDUP_PGSIZE]
    omega
  have hsum : (s.base + ROUNDUP c.size PGSIZE).toNat = s.base.toNat + pagesUp c.size.toNat := by
    rw [BitVec.toNat_add, hround]
    omega
  by_cases hlim : MMIOLIM ≤ s.base + ROUNDUP c.size PGSIZE
  · simp only [mmioMapRegion, if_pos hlim] at hrun
    cases hrun
  have hlt : s.base.toNat + pagesUp c.size.toNat < 4022337536 := by
    have h := BitVec.not_le.mp hlim
    rw [BitVec.lt_def, hsum, MMIOLIM_toNat] at h
    exact h
  have hpg := PGNUM_toNat s.base
  obtain ⟨m', hmap, hbooted, hkpte⟩ := Booting.mapRegion hS hlen hb
    (page2pa_PGNUM hal).symm hpa (congrArg (· / 4096) hround)
    (by decide : (mmioPerm ||| PTE_P) &&& userWrite ≠ userWrite) (by omega)
    (kernPage_of_le (by omega) (by omega))
  simp only [mmioMapRegion, if_neg hlim] at hrun
  rw [show PTE_PCD ||| PTE_PWT ||| PTE_W = mmioPerm from rfl, hmap] at hrun
  obtain ⟨hret, hrest⟩ := Prod.mk.inj (Except.ok.inj hrun)
  obtain ⟨hbase, hphys⟩ := Prod.mk.inj hrest
  have hbase' : s'.base.toNat = s.base.toNat + pagesUp c.size.toNat := by rw [← hbase, hsum]
  refine ⟨hret.symm, hbase', ⟨by omega, by rw [MMIOBASE_toNat]; omega, by rw [MMIOLIM_toNat]; omega⟩,
    hphys ▸ hbooted.booting, fun v => ?_⟩
  rw [← hphys]
  exact hkpte v

/-- A call that ends below the limit returns. -/
theorem mmio_call_returns {base : Word} (pa size : Word) (hS : S.Nodup) (hlen : 69 < S.length) (hb : ∃ l, Booting S [] l m)
    (hcur : Cursor base) (hpa : pa.toNat % 4096 = 0)
    (hend : base.toNat + pagesUp size.toNat < MMIOLIM.toNat) :
    ∃ base' m', mmioMapRegion m base pa size = .ok (base, base', m') := by
  have hal := hcur.aligned
  have hge := hcur.ge
  have hup : pagesUp size.toNat = (size.toNat + 4095) / 4096 * 4096 := rfl
  rw [MMIOBASE_toNat] at hge
  rw [MMIOLIM_toNat] at hend
  have hround : (ROUNDUP size PGSIZE).toNat = pagesUp size.toNat := by
    rw [ROUNDUP_PGSIZE]
    omega
  have hlim : ¬ MMIOLIM ≤ base + ROUNDUP size PGSIZE := by
    rw [BitVec.not_le, BitVec.lt_def, BitVec.toNat_add, hround, MMIOLIM_toNat]
    omega
  have hpg := PGNUM_toNat base
  obtain ⟨m', hmap, -, -⟩ := Booting.mapRegion hS hlen hb
    (page2pa_PGNUM hal).symm hpa (congrArg (· / 4096) hround)
    (by decide : (mmioPerm ||| PTE_P) &&& userWrite ≠ userWrite) (by omega)
    (kernPage_of_le (by omega) (by omega))
  refine ⟨base + ROUNDUP size PGSIZE, m', ?_⟩
  simp only [mmioMapRegion, if_neg hlim]
  rw [show PTE_PCD ||| PTE_PWT ||| PTE_W = mmioPerm from rfl, hmap]
  rfl

/-! ## A run -/

/-- The pages of a call are mapped. -/
def PagesMapped (m : Phys) (c : MmioCall) : Prop :=
  ∀ v, (v - PGNUM c.ret).toNat < pagesUp c.size.toNat / 4096 →
    kpte m v = some (mkPte (PGNUM c.pa + (v - PGNUM c.ret)) mmioPerm)

theorem pteAt_of_page {d : Ppn} {x y : Word} (h : x.toNat / 4096 = y.toNat / 4096) :
    pteAt m d x = pteAt m d y := by
  rw [pteAt, pteAt, PDX_eq_of_page h, PTX_eq_of_page h]

theorem PagesMapped.reserved {c : MmioCall} (h : PagesMapped m c) (hpa : c.pa.toNat % 4096 = 0)
    (hret : c.ret.toNat % 4096 = 0) (hge : MMIOBASE.toNat ≤ c.ret.toNat)
    (hle : c.ret.toNat + c.size.toNat ≤ MMIOLIM.toNat) : Reserved m c := by
  refine ⟨hret, hge, hle, fun k hk => ?_⟩
  rw [MMIOLIM_toNat] at hle
  have hup : pagesUp c.size.toNat = (c.size.toNat + 4095) / 4096 * 4096 := rfl
  have hva : (c.ret + BitVec.ofNat 32 k).toNat = c.ret.toNat + k := by
    rw [BitVec.toNat_add, BitVec.toNat_ofNat]
    omega
  have hdiff : (PGNUM (c.ret + BitVec.ofNat 32 k) - PGNUM c.ret).toNat = k / 4096 := by
    rw [BitVec.toNat_sub, PGNUM_toNat, PGNUM_toNat, hva]
    omega
  have hpage : PGNUM c.pa + (PGNUM (c.ret + BitVec.ofNat 32 k) - PGNUM c.ret) =
      PGNUM (c.pa + BitVec.ofNat 32 k) := by
    refine BitVec.eq_of_toNat_eq ?_
    rw [BitVec.toNat_add, hdiff, PGNUM_toNat, PGNUM_toNat, BitVec.toNat_add, BitVec.toNat_ofNat]
    omega
  have hkpte := h (PGNUM (c.ret + BitVec.ofNat 32 k)) (by rw [hdiff]; omega)
  rw [hpage] at hkpte
  have hsame : (c.ret + BitVec.ofNat 32 k).toNat / 4096 =
      (page2pa (PGNUM (c.ret + BitVec.ofNat 32 k))).toNat / 4096 := by
    rw [page2pa_toNat, PGNUM_toNat]
    omega
  refine ⟨_, (pteAt_of_page hsame).trans (pteAt_of_kpte hkpte), PTE_VALID_mkPte _ _,
    PGNUM_mkPte _ (by decide), ?_, ?_⟩
  · rw [mkPte_and _ _ (by decide)]
    rfl
  · rw [mkPte_and _ _ (by decide)]
    rfl

/-- Later calls leave alone what is below the cursor. -/
theorem mapped_kept {s s' : Mmio} {c : MmioCall} (h : CallMapped S s c s') (hcur : Cursor s.base) {v : Ppn}
    (hv : v.toNat < (PGNUM s.base).toNat) : kpte s'.phys v = kpte s.phys v := by
  have hal := hcur.aligned
  have hge := hcur.ge
  have hlt := h.cursor.lt
  have hbase := h.base
  have hpg := PGNUM_toNat s.base
  have hup : pagesUp c.size.toNat = (c.size.toNat + 4095) / 4096 * 4096 := rfl
  rw [MMIOBASE_toNat] at hge
  rw [MMIOLIM_toNat] at hlt
  rw [h.kpte v, if_neg]
  rw [BitVec.toNat_sub]
  omega

/-- What a run of calls that do not wrap leaves at its end. -/
theorem mmio_run (hS : S.Nodup) (hlen : 69 < S.length) {s s' : Mmio} {tr : List MmioCall}
    (hrun : Run (Guarded NoWrap mmioStep) s tr s') (hb : ∃ l, Booting S [] l s.phys)
    (hcur : Cursor s.base) :
    (∀ c ∈ tr, Reserved s'.phys c ∧ s.base.toNat ≤ c.ret.toNat) ∧ tr.Pairwise Apart ∧
      ∀ v : Ppn, v.toNat < (PGNUM s.base).toNat → kpte s'.phys v = kpte s.phys v := by
  induction hrun with
  | nil s => exact ⟨fun c hc => (List.not_mem_nil hc).elim, .nil, fun _ _ => rfl⟩
  | @cons s s1 s2 c tr hstep _ ih =>
      obtain ⟨hwrap, hstep⟩ := hstep
      have hmap := mmioStep_mapped hS hlen hb hcur hstep hwrap
      obtain ⟨hres, hapart, hkept⟩ := ih hmap.booting hmap.cursor
      have hup : pagesUp c.size.toNat = (c.size.toNat + 4095) / 4096 * 4096 := rfl
      have hbase := hmap.base
      have hret := hmap.ret
      have hal := hcur.aligned
      have hge := hcur.ge
      have hlt := hmap.cursor.lt
      have hpg := PGNUM_toNat s.base
      have hpg1 := PGNUM_toNat s1.base
      have hmapped : PagesMapped s2.phys c := by
        intro v hv
        rw [hret] at hv ⊢
        have hlow : v.toNat < (PGNUM s1.base).toNat := by
          rw [MMIOBASE_toNat] at hge
          rw [MMIOLIM_toNat] at hlt
          rw [BitVec.toNat_sub] at hv
          omega
        rw [hkept v hlow, hmap.kpte v, if_pos hv]
      have hfirst : Reserved s2.phys c :=
        hmapped.reserved hstep.1 (by rw [hret]; exact hal) (by rw [hret]; exact hge)
          (by rw [hret]; omega)
      refine ⟨fun c' hc' => ?_, List.pairwise_cons.mpr ⟨fun c' hc' x hx => ?_, hapart⟩,
        fun v hv => ?_⟩
      · obtain rfl | hc' := List.mem_cons.mp hc'
        · exact ⟨hfirst, by rw [hret]⟩
        · have hlow := (hres c' hc').2
          exact ⟨(hres c' hc').1, by omega⟩
      · -- the next region starts at or after the rounded end of this one
        have hlow := (hres c' hc').2
        rw [hret] at hx
        omega
      · rw [hkept v (by omega), mapped_kept hmap hcur hv]

/-- The kernel is booting: no environment has run, and `page_init` let through more pages than
there are page tables in the kernel's half. -/
def BootTime (m : Phys) : Prop := ∃ S l, S.Nodup ∧ 69 < S.length ∧ Booting S [] l m

theorem memInit_bootTime {hw : Machine} {r : MemInit} (h : memInit hw = .ok r) : BootTime r.phys := by
  obtain ⟨ep, l, hl, -, -, -, hn, p, hp, hext⟩ := memInit_state h
  refine ⟨_, l, nodup_initialFree hn _, ?_, hl⟩
  have hin := (mem_initialFree hn).mp (hl.sub p hp)
  rw [BitVec.le_def, page2pa_toNat, show EXTPHYSMEM.toNat = 1048576 from rfl] at hext
  have hfree := length_initialFree (f := ep + 31) hn (by omega)
  omega

/-- In every run of calls whose rounded sizes can be added to the cursor, every region returned is
a page-aligned part of the window with its pages mapped uncached and for the kernel, at the end of
the run too, and no two regions meet. -/
theorem mmio_reservations {s s' : Mmio} {tr : List MmioCall} (hb : BootTime s.phys)
    (hcur : Cursor s.base) (hrun : Run (Guarded NoWrap mmioStep) s tr s') :
    (∀ c ∈ tr, Reserved s'.phys c) ∧ tr.Pairwise Apart := by
  obtain ⟨S, l, hS, hlen, hb⟩ := hb
  obtain ⟨hres, hapart, -⟩ := mmio_run hS hlen hrun ⟨l, hb⟩ hcur
  exact ⟨fun c hc => (hres c hc).1, hapart⟩

/-- The page of the local APIC, behind the three pages `check_page` has taken. -/
theorem mmio_reservations_lapic : ∃ (r : MemInit) (c : MmioCall) (s' : Mmio),
    memInit machine8M = .ok r ∧ c.pa = 0xFEE00000 ∧ c.size = 4096 ∧
      (∀ c' ∈ [c], Reserved s'.phys c') ∧ [c].Pairwise Apart := by
  obtain ⟨r, hr⟩ := machine8M_completes
  have hboot := memInit_bootTime hr
  have hcur : Cursor 0xEF803000 := ⟨by decide, by decide, by decide⟩
  obtain ⟨S, l, hS, hlen, hb⟩ := id hboot
  obtain ⟨base', m', hcall⟩ := mmio_call_returns 0xFEE00000 4096 hS hlen ⟨l, hb⟩
    hcur (by decide) (by decide)
  have hstep : mmioStep ⟨r.phys, 0xEF803000⟩ ⟨0xFEE00000, 4096, 0xEF803000⟩ ⟨m', base'⟩ :=
    ⟨rfl, hcall⟩
  have hwrap : NoWrap ⟨r.phys, 0xEF803000⟩ ⟨0xFEE00000, 4096, 0xEF803000⟩ := by
    show (0xEF803000 : Word).toNat + pagesUp (4096 : Word).toNat < 2 ^ 32
    decide
  exact ⟨r, ⟨0xFEE00000, 4096, 0xEF803000⟩, ⟨m', base'⟩, hr, rfl, rfl,
    mmio_reservations (s := ⟨r.phys, 0xEF803000⟩) hboot hcur (.cons ⟨hwrap, hstep⟩ (.nil _))⟩

/-- The last size of all is rounded to 0: the call returns a region of 4 GB and maps nothing. -/
theorem mmio_region_too_large : ∃ (r : MemInit) (c : MmioCall) (s' : Mmio),
    memInit machine8M = .ok r ∧ c.size = 0xFFFFFFFF ∧ mmioStep ⟨r.phys, MMIOBASE⟩ c s' ∧
      ¬ Reserved s'.phys c := by
  obtain ⟨r, hr⟩ := machine8M_completes
  have hround : ROUNDUP 0xFFFFFFFF PGSIZE = 0 := by decide
  have hlim : ¬ MMIOLIM ≤ MMIOBASE + 0 := by decide
  have hcall : mmioMapRegion r.phys MMIOBASE 0 0xFFFFFFFF = .ok (MMIOBASE, MMIOBASE, r.phys) := by
    simp only [mmioMapRegion, hround, if_neg hlim]
    rfl
  exact ⟨r, ⟨0, 0xFFFFFFFF, MMIOBASE⟩, ⟨r.phys, MMIOBASE⟩, hr, rfl, ⟨rfl, hcall⟩,
    fun h => absurd h.le (by decide)⟩

end SisOp.Jos
