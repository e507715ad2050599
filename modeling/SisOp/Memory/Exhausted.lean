/-
# `SisOp.Memory.Exhausted` — calls that find no free page

The four system calls that allocate pages, the ways in which `page_alloc` returns NULL
inside them (`OutOfMem`), and what it would be for the caller to be told so and for
nothing else to happen (`Reported`).  `sys_page_alloc` gives back the page it had taken
before; `sys_page_map`, and `sys_ipc_try_send` through it, give back a page that is not
theirs.
-/
import SisOp.Memory.Inv

namespace SisOp.Jos

open SisOp.Lib

/-! ## The calls -/

inductive MemCall
  | pageAlloc (envid va perm : Word)
  | pageMap (srcenvid srcva dstenvid dstva perm : Word)
  | ipcTrySend (envid value srcva perm : Word)
  | exofork
  deriving DecidableEq

def MemCall.run (k : Kernel) (cur : Slot) : MemCall → Except String (Int × Kernel)
  | .pageAlloc envid va perm => sysPageAlloc k cur envid va perm
  | .pageMap srcenvid srcva dstenvid dstva perm => sysPageMap k cur srcenvid srcva dstenvid dstva perm
  | .ipcTrySend envid value srcva perm => sysIpcTrySend k cur envid value srcva perm
  | .exofork => sysExofork k cur

/-- `page_alloc` fails for the page itself, or then for its page table. -/
def AllocFails (k : Kernel) (cur : Slot) (envid va perm : Word) : Prop :=
  PermOk perm ∧ VaOk va ∧ ∃ e, envid2env k cur envid false = .ok e ∧
    (pageAlloc k.phys true = .ok (none, k.phys) ∨ ∃ page m d m',
      pageAlloc k.phys true = .ok (some page, m) ∧ (k.envs e).envPgdir = some d ∧
        pgdirWalk m d va true = .ok (none, m'))

/-- All checks of `sys_page_map` pass, and `page_alloc` fails for a page table. -/
def MapFails (k : Kernel) (cur : Slot) (srcenvid srcva dstenvid dstva perm : Word) : Prop :=
  ∃ dstenv srcdir dstdir page pte m,
    MapChecked k cur srcenvid srcva dstenvid dstva perm dstenv srcdir dstdir page pte ∧
      pgdirWalk k.phys dstdir dstva true = .ok (none, m)

/-- `page_alloc` returns NULL in the call. -/
def OutOfMem (k : Kernel) (cur : Slot) : MemCall → Prop
  | .pageAlloc envid va perm => AllocFails k cur envid va perm
  | .pageMap srcenvid srcva dstenvid dstva perm => MapFails k cur srcenvid srcva dstenvid dstva perm
  | .ipcTrySend envid _ srcva perm => ∃ e, envid2env k cur envid false = .ok e ∧
      (k.envs e).envIpcRecving = true ∧ srcva < UTOP ∧ (k.envs e).envIpcDstva < UTOP ∧
      MapFails k cur 0 srcva envid (k.envs e).envIpcDstva perm
  | .exofork => k.envFreeList ≠ none ∧ pageAlloc k.phys true = .ok (none, k.phys)

/-! ## What the caller should see -/

/-- The pages of `page_free_list`. -/
inductive Listed (m : Phys) : Ppn → Prop
  | head {p : Ppn} : m.pageFreeList = some p → Listed m p
  | next {p q : Ppn} : Listed m p → (m.pages p).ppLink = some q → Listed m q

/-- The page directories: the kernel's and those of the environments. -/
def IsDir (k : Kernel) (p : Ppn) : Prop := p = k.phys.kernPgdir ∨ ∃ e, (k.envs e).envPgdir = some p

/-- The page directories and page tables; the entry of a directory at `UVPT` is the directory
itself. -/
def IsPageTable (k : Kernel) (p : Ppn) : Prop :=
  IsDir k p ∨ ∃ d i, IsDir k d ∧ i ≠ PDX UVPT ∧ PTE_VALID (k.phys.mem d i) ∧
    PGNUM (k.phys.mem d i) = p

/-- All page tables, counters, free pages and environments are as before. -/
structure Kernel.SameMem (k k' : Kernel) : Prop where
  envs : k'.envs = k.envs
  envFreeList : k'.envFreeList = k.envFreeList
  tables : ∀ p, IsPageTable k p → k'.phys.mem p = k.phys.mem p
  refs : ∀ p, (k'.phys.pages p).ppRef = (k.phys.pages p).ppRef
  free : ∀ p, Listed k'.phys p ↔ Listed k.phys p

/-- The call returns `-E_NO_MEM`, and that is all. -/
def Reported (k : Kernel) (cur : Slot) (q : MemCall) : Prop :=
  ∃ k', q.run k cur = .ok (-E_NO_MEM, k') ∧ k.SameMem k'

/-- The first free page is not counted, and clearing it does not change a page table. -/
def HeadSpare (k : Kernel) : Prop :=
  ∀ p, k.phys.pageFreeList = some p →
    (k.phys.pages p).ppRef = 0 ∧ (IsPageTable k p → k.phys.mem p = fun _ => 0)

section

variable {k k' : Kernel} {cur e : Slot} {m m' : Phys} {page d : Ppn} {va perm : Word}

theorem Kernel.SameMem.refl (k : Kernel) : k.SameMem k :=
  ⟨rfl, rfl, fun _ _ => rfl, fun _ => rfl, fun _ => Iff.rfl⟩

theorem not_listed (h : m.pageFreeList = none) (p : Ppn) : ¬ Listed m p := by
  intro hp
  induction hp with
  | head hhead =>
    rw [h] at hhead
    cases hhead
  | next _ _ ih => exact ih

theorem pageAlloc_none {zero : Bool} (h : pageAlloc m zero = .ok (none, m')) :
    m.pageFreeList = none := by
  by_contra hne
  obtain ⟨p, hp⟩ := Option.ne_none_iff_exists'.mp hne
  cases zero with
  | false =>
    simp only [pageAlloc, hp] at h
    cases h
  | true =>
    simp only [pageAlloc, hp, if_true, bind_eq_ok] at h
    obtain ⟨kva, -, h⟩ := h
    cases h

/-- Without a page table, `page_insert` does nothing. -/
theorem pageInsert_of_walk (h : pgdirWalk m d va true = .ok (none, m')) :
    pageInsert m d page va perm = .ok (-E_NO_MEM, m) := by
  obtain ⟨-, -, rfl⟩ := pgdirWalk_none h
  exact bind_eq_ok.mpr ⟨_, h, rfl⟩

/-! ## `sys_exofork` -/

theorem exofork_reported (h : OutOfMem k cur .exofork) : Reported k cur .exofork := by
  obtain ⟨hne, halloc⟩ := h
  obtain ⟨e, he⟩ := Option.ne_none_iff_exists'.mp hne
  have hvm : envSetupVm k e = .ok (-E_NO_MEM, k) := bind_eq_ok.mpr ⟨_, halloc, rfl⟩
  have henv : envAlloc k (k.envs cur).envId = .ok (.error (-E_NO_MEM), k) := by
    simp only [envAlloc, he]
    exact bind_eq_ok.mpr ⟨_, hvm, rfl⟩
  exact ⟨k, bind_eq_ok.mpr ⟨_, henv, rfl⟩, .refl k⟩

/-! ## `sys_page_alloc` -/

theorem sysPageAlloc_none {envid : Word} (hperm : PermOk perm) (hva : VaOk va)
    (hfind : envid2env k cur envid false = .ok e)
    (halloc : pageAlloc k.phys true = .ok (none, k.phys)) :
    sysPageAlloc k cur envid va perm = .ok (-E_NO_MEM, k) := by
  simp only [sysPageAlloc, hperm, hva, not_true_eq_false, if_false, hfind]
  exact bind_eq_ok.mpr ⟨_, halloc, rfl⟩

/-- The page that was taken is given back. -/
theorem sysPageAlloc_noTable {envid : Word} (hperm : PermOk perm) (hva : VaOk va)
    (hfind : envid2env k cur envid false = .ok e)
    (halloc : pageAlloc k.phys true = .ok (some page, m)) (hd : (k.envs e).envPgdir = some d)
    (hwalk : pgdirWalk m d va true = .ok (none, m')) :
    sysPageAlloc k cur envid va perm =
      (pageFree m page).bind fun m => .ok (-E_NO_MEM, { k with phys := m }) := by
  have hneg : (-E_NO_MEM : Int) < 0 := by decide
  simp only [sysPageAlloc, hperm, hva, not_true_eq_false, if_false, hfind, halloc, hd,
    pageInsert_of_walk hwalk, bind, Except.bind, if_pos hneg]
  cases pageFree m page <;> rfl

/-- Taking the last free page and giving it back. -/
theorem pageFree_alloc (halloc : pageAlloc m true = .ok (some page, m'))
    (hlast : m'.pageFreeList = none) :
    m.pageFreeList = some page ∧ (m.pages page).ppLink = none ∧
      (m'.pages page).ppRef = (m.pages page).ppRef ∧ (m'.pages page).ppLink = none ∧
      m'.mem = Function.update m.mem page (fun _ => 0) ∧ m'.pages = m.pages := by
  obtain ⟨hhead, m1, hm1, hm'⟩ := pageAlloc_some halloc
  rw [if_pos rfl, hm1] at hm'
  have hnone : (m.pages page).ppLink = none := by
    rw [hm'] at hlast
    exact hlast
  have hpages : m'.pages = m.pages := by
    rw [hm']
    change Function.update m.pages page { m.pages page with ppLink := none } = m.pages
    rw [← hnone]
    exact Function.update_eq_self page m.pages
  exact ⟨hhead, hnone, by rw [hpages], by rw [hpages, hnone], by rw [hm']; rfl, hpages⟩

theorem listed_congr {p : Ppn} (hhead : m'.pageFreeList = m.pageFreeList)
    (hlink : ∀ p, (m'.pages p).ppLink = (m.pages p).ppLink) : Listed m' p ↔ Listed m p := by
  constructor
  · intro h
    induction h with
    | head hp => exact .head (hhead ▸ hp)
    | next _ hq ih => exact .next ih ((hlink _).symm.trans hq)
  · intro h
    induction h with
    | head hp => exact .head (hhead.trans hp)
    | next _ hq ih => exact .next ih ((hlink _).trans hq)

theorem pageAlloc_reported {envid : Word} (h : AllocFails k cur envid va perm) :
    Reported k cur (.pageAlloc envid va perm) ↔ HeadSpare k := by
  obtain ⟨hperm, hva, e, hfind, halloc | ⟨page, m, d, m', halloc, hd, hwalk⟩⟩ := h
  · have hnone := pageAlloc_none halloc
    refine ⟨fun _ p hp => ?_, fun _ => ⟨k, sysPageAlloc_none hperm hva hfind halloc, .refl k⟩⟩
    rw [hnone] at hp
    cases hp
  · have hrun := sysPageAlloc_noTable hperm hva hfind halloc hd hwalk
    obtain ⟨hhead, hlink, href, hlink', hmem, hpages⟩ :=
      pageFree_alloc halloc (pgdirWalk_none hwalk).2.1
    by_cases hzero : (k.phys.pages page).ppRef = 0
    · -- the page is given back: only its contents may have changed
      have hfree : pageFree m page =
          .ok { m.setLink page m.pageFreeList with pageFreeList := some page } := by
        simp only [pageFree, href, hzero, hlink', ne_eq, not_true_eq_false, if_false]
      rw [hfree] at hrun
      have hnone := (pgdirWalk_none hwalk).2.1
      have hback : (m.setLink page m.pageFreeList).pages = k.phys.pages := by
        rw [hnone, ← hpages]
        change Function.update m.pages page { m.pages page with ppLink := none } = m.pages
        rw [← hlink']
        exact Function.update_eq_self page m.pages
      constructor
      · rintro ⟨k', hk', hsame⟩ p hp
        obtain rfl := Option.some.inj (hhead.symm.trans hp)
        refine ⟨hzero, fun htab => ?_⟩
        obtain rfl : _ = k' := (Prod.mk.inj (Except.ok.inj (hrun.symm.trans hk'))).2
        have hkept := hsame.tables page htab
        change m.mem page = k.phys.mem page at hkept
        rw [← hkept, hmem, Function.update_self]
      · intro hspare
        refine ⟨_, hrun, rfl, rfl, fun p htab => ?_, fun p => ?_, fun p => ?_⟩
        · change m.mem p = k.phys.mem p
          rw [hmem]
          rcases eq_or_ne p page with rfl | hne
          · rw [Function.update_self, (hspare p hhead).2 htab]
          · rw [Function.update_of_ne hne]
        · exact congrArg (fun f => (f p).ppRef) hback
        · exact listed_congr hhead.symm fun q => congrArg (fun f => (f q).ppLink) hback
    · -- `page_free` panics
      have hpanic : pageFree m page = .error "pp_ref != 0" := by
        simp only [pageFree, href, hzero, ne_eq, not_false_eq_true, if_true]
      rw [hpanic] at hrun
      constructor
      · rintro ⟨k', hk', -⟩
        exact absurd (hrun.symm.trans hk') (by simp [Except.bind])
      · intro hspare
        exact absurd (hspare page hhead).1 hzero

/-! ## `sys_page_map` -/

/-- The page is still mapped where it was found, and is given to `page_free` all the same. -/
theorem sysPageMap_noTable {srcenvid srcva dstenvid dstva : Word} {dstenv : Slot}
    {srcdir dstdir : Ppn} {pte : PtePtr}
    (hch : MapChecked k cur srcenvid srcva dstenvid dstva perm dstenv srcdir dstdir page pte)
    (hwalk : pgdirWalk k.phys dstdir dstva true = .ok (none, m)) :
    sysPageMap k cur srcenvid srcva dstenvid dstva perm =
      (pageFree k.phys page).bind fun m => .ok (-E_NO_MEM, { k with phys := m }) := by
  obtain ⟨srcenv, hsrc, hsrcdir⟩ := hch.src
  have hneg : (-E_NO_MEM : Int) < 0 := by decide
  have hw : ¬ (¬ Writable (k.phys.load pte) ∧ Writable perm) := fun hboth => hboth.1 (hch.write hboth.2)
  simp only [sysPageMap, hch.permOk, hch.srcvaOk, hch.dstvaOk, and_self, not_true_eq_false, if_false,
    hsrc, hsrcdir, hch.look, if_neg hw, hch.dst, hch.dstdir, pageInsert_of_walk hwalk, bind,
    Except.bind, if_pos hneg]
  cases pageFree k.phys page <;> rfl

theorem map_not_reported {srcenvid srcva dstenvid dstva : Word} {r : Int}
    (h : MapFails k cur srcenvid srcva dstenvid dstva perm)
    (hrun : sysPageMap k cur srcenvid srcva dstenvid dstva perm = .ok (r, k')) :
    r = -E_NO_MEM ∧ ∃ p, Listed k'.phys p ∧ ¬ Listed k.phys p := by
  obtain ⟨dstenv, srcdir, dstdir, page, pte, m, hch, hwalk⟩ := h
  rw [sysPageMap_noTable hch hwalk] at hrun
  obtain ⟨m', hfree, hrun⟩ := bind_eq_ok.mp hrun
  cases hrun
  obtain ⟨-, -, rfl⟩ := pageFree_ok hfree
  exact ⟨rfl, page, .head rfl, not_listed (pgdirWalk_none hwalk).2.1 page⟩

theorem pageMap_not_reported {srcenvid srcva dstenvid dstva : Word}
    (h : MapFails k cur srcenvid srcva dstenvid dstva perm) :
    ¬ Reported k cur (.pageMap srcenvid srcva dstenvid dstva perm) := by
  rintro ⟨k', hrun, hsame⟩
  obtain ⟨-, p, hp, hnot⟩ := map_not_reported h hrun
  exact hnot ((hsame.free p).mp hp)

/-! ## `sys_ipc_try_send` -/

theorem mapFails_clearPerm {srcenvid srcva dstenvid dstva : Word} :
    MapFails (k.clearPerm e) cur srcenvid srcva dstenvid dstva perm ↔
      MapFails k cur srcenvid srcva dstenvid dstva perm := by
  simp only [MapFails, mapChecked_clearPerm]
  rfl

theorem send_not_reported {envid value srcva : Word}
    (h : OutOfMem k cur (.ipcTrySend envid value srcva perm)) :
    ¬ Reported k cur (.ipcTrySend envid value srcva perm) := by
  obtain ⟨e, hfind, hrecv, hsrc, hdst, hfails⟩ := h
  rintro ⟨k', hrun, hsame⟩
  have hsend : sysIpcTrySend k cur envid value srcva perm = .ok (-E_NO_MEM, k') := hrun
  simp only [sysIpcTrySend, hfind, hrecv, not_true_eq_false, if_false, Kernel.setEnv_envs,
    Function.update_self, hsrc, hdst, and_self, decide_true, if_true, bind_eq_ok] at hsend
  obtain ⟨⟨r, k1⟩, hmap, hsend⟩ := hsend
  obtain ⟨rfl, p, hp, hnot⟩ := map_not_reported (mapFails_clearPerm.mpr hfails) hmap
  have hne : (-E_NO_MEM : Int) ≠ 0 := by decide
  rw [if_pos hne] at hsend
  cases hsend
  exact hnot ((hsame.free p).mp hp)

/-! ## All four -/

/-- With the memory invariant no free page is a page table. -/
theorem Ledger.not_isPageTable {K : Ppn → Prop} {held l : List Ppn}
    (h : Ledger K k.dirs held l k.phys) (hl : page ∈ l) : ¬ IsPageTable k page := by
  have hkern : ∀ p, K p → page ≠ p := fun p hp heq => (h.pool.fixed p hp).1 (heq ▸ hl)
  -- an entry of the kernel's part is the kernel's
  have hupper : ∀ i, i ≠ PDX UVPT → PTE_VALID (k.phys.mem k.phys.kernPgdir i) →
      page ≠ PGNUM (k.phys.mem k.phys.kernPgdir i) := fun i hi hv =>
    hkern _ (h.shield i (fun hu => h.blank i hu hv) hi hv).1
  rintro ((heq | ⟨e, he⟩) | ⟨d, i, rfl | ⟨e, he⟩, hi, hv, heq⟩)
  · exact hkern _ h.kern heq
  · exact h.free_unused hl (.dir e) he
  · exact hupper i hi hv heq.symm
  · by_cases hu : UserPdx i
    · exact h.free_unused hl (.table e i) (tableOf_some.mpr ⟨hu, d, he, hv, heq⟩)
    · have hsame := h.upper e d i he hu
      rw [if_neg hi] at hsame
      rw [hsame] at hv heq
      exact hupper i hi hv heq.symm

theorem MemInv.headSpare {K : Ppn → Prop} (h : MemInv K k) : HeadSpare k := by
  intro p hp
  obtain ⟨l, hl⟩ := h.sound.ledger
  obtain ⟨t, rfl, -⟩ := (hp ▸ hl.pool.chain).of_some
  have hmem : p ∈ p :: t := List.mem_cons_self
  refine ⟨?_, fun htab => absurd htab (hl.not_isPageTable hmem)⟩
  rw [hl.pool.count p fun hK => (hl.pool.fixed p hK).1 hmem, hl.pool.free p hmem]
  rfl

/-- What is reported, by the kind of the call. -/
theorem reported_by_kind {q : MemCall} (h : OutOfMem k cur q) :
    Reported k cur q ↔
      match q with
      | .exofork => True
      | .pageAlloc .. => HeadSpare k
      | .pageMap .. | .ipcTrySend .. => False := by
  cases q with
  | exofork => exact iff_of_true (exofork_reported h) trivial
  | pageAlloc envid va perm => exact pageAlloc_reported h
  | pageMap srcenvid srcva dstenvid dstva perm => exact iff_of_false (pageMap_not_reported h) id
  | ipcTrySend envid value srcva perm => exact iff_of_false (send_not_reported h) id

end

end SisOp.Jos
