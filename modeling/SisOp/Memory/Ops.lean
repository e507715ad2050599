/-
# `SisOp.Memory.Ops` — the page functions and the memory invariant

One lemma per function of `kern/pmap.c`: what it does to the invariant, to the
mappings, and to the contents of memory.  `Touches` is the frame they share: besides
directories and page tables, only pages that `page_alloc` handed out on the way are
written.
-/
import SisOp.Memory.Ledger
import SisOp.Jos.Deliver

namespace SisOp.Jos

open SisOp.Lib

/-- From `m` to `m'` only directories, page tables and the newly handed out pages `hs` are
written, and only those of `hs` become directories or page tables. -/
structure Touches (dirs : Slot → Option Ppn) (m : Phys) (dirs' : Slot → Option Ppn) (m' : Phys)
    (hs : List Ppn) : Prop where
  npages : m'.npages = m.npages
  kernPgdir : m'.kernPgdir = m.kernPgdir
  handed : m'.handed = hs ++ m.handed
  data : ∀ p, p ∉ hs → ¬ IsTab dirs m p → m'.mem p = m.mem p
  tabs : ∀ p, IsTab dirs' m' p → p ∈ hs ∨ IsTab dirs m p

section

variable {K : Ppn → Prop} {dirs dirs' dirs'' : Slot → Option Ppn} {held l hs hs' : List Ppn}
  {m m' m'' : Phys} {e : Slot} {i j : Idx} {p d t : Ppn} {va perm w : Word}

theorem Touches.refl (dirs : Slot → Option Ppn) (m : Phys) : Touches dirs m dirs m [] :=
  ⟨rfl, rfl, rfl, fun _ _ _ => rfl, fun _ => Or.inr⟩

theorem Touches.trans (h : Touches dirs m dirs' m' hs) (h' : Touches dirs' m' dirs'' m'' hs') :
    Touches dirs m dirs'' m'' (hs' ++ hs) where
  npages := h'.npages.trans h.npages
  kernPgdir := h'.kernPgdir.trans h.kernPgdir
  handed := by rw [h'.handed, h.handed, List.append_assoc]
  data := fun p hp ht => by
    obtain ⟨hp', hp⟩ := not_or.mp fun hor => hp (List.mem_append.mpr hor)
    rw [h'.data p hp' fun htab => (h.tabs p htab).elim hp ht, h.data p hp ht]
  tabs := fun p hp => by
    rcases h'.tabs p hp with hp | hp
    · exact Or.inl (List.mem_append_left _ hp)
    · exact (h.tabs p hp).imp_left (List.mem_append_right _)

/-- A step that leaves the places alone touches what it writes. -/
theorem Touches.of_target (htgt : target dirs' m' = target dirs m) (hn : m'.npages = m.npages)
    (hk : m'.kernPgdir = m.kernPgdir) (hh : m'.handed = hs ++ m.handed)
    (hmem : ∀ p, p ∉ hs → ¬ IsTab dirs m p → m'.mem p = m.mem p) :
    Touches dirs m dirs' m' hs :=
  ⟨hn, hk, hh, hmem, fun _ ⟨r, hr, hp⟩ => Or.inr ⟨r, hr, htgt ▸ hp⟩⟩

/-! ## Counters and links of an updated memory -/

theorem setRef_ppRef (m : Phys) (p : Ppn) (r : BitVec 16) :
    (fun q => ((m.setRef p r).pages q).ppRef) =
      Function.update (fun q => (m.pages q).ppRef) p r := by
  funext q
  rcases eq_or_ne q p with rfl | h
  · simp [Phys.setRef]
  · simp [Phys.setRef, Function.update_of_ne h]

theorem setRef_ppLink (m : Phys) (p : Ppn) (r : BitVec 16) :
    (fun q => ((m.setRef p r).pages q).ppLink) = fun q => (m.pages q).ppLink := by
  funext q
  rcases eq_or_ne q p with rfl | h
  · simp [Phys.setRef]
  · simp [Phys.setRef, Function.update_of_ne h]

theorem setLink_ppLink (m : Phys) (p : Ppn) (x : Option Ppn) :
    (fun q => ((m.setLink p x).pages q).ppLink) =
      Function.update (fun q => (m.pages q).ppLink) p x := by
  funext q
  rcases eq_or_ne q p with rfl | h
  · simp [Phys.setLink]
  · simp [Phys.setLink, Function.update_of_ne h]

theorem setLink_ppRef (m : Phys) (p : Ppn) (x : Option Ppn) :
    (fun q => ((m.setLink p x).pages q).ppRef) = fun q => (m.pages q).ppRef := by
  funext q
  rcases eq_or_ne q p with rfl | h
  · simp [Phys.setLink]
  · simp [Phys.setLink, Function.update_of_ne h]

/-! ## The allocator -/

/-- What `page_alloc` does when it finds a page. -/
theorem pageAlloc_some {zero : Bool} (h : pageAlloc m zero = .ok (some p, m')) :
    m.pageFreeList = some p ∧ ∃ m1 : Phys,
      m1 = { m with pageFreeList := (m.pages p).ppLink, handed := p :: m.handed }.setLink p none ∧
      m' = if zero then m1.fill p fun _ => 0 else m1 := by
  unfold pageAlloc at h
  split at h
  · cases h
  · rename_i page hlist
    cases zero with
    | false =>
        cases h
        exact ⟨hlist, _, rfl, rfl⟩
    | true =>
        simp only [if_true, bind_eq_ok] at h
        obtain ⟨kva, hkva, h⟩ := h
        cases h
        have heq : kva = p := by
          unfold KADDR at hkva
          split at hkva <;> cases hkva
          rfl
        exact ⟨hlist, _, rfl, by rw [heq]; rfl⟩

/-- The facts `page_alloc` establishes about the page it hands out. -/
structure Fresh (K : Ppn → Prop) (dirs : Slot → Option Ppn) (held l : List Ppn) (m : Phys)
    (p : Ppn) : Prop where
  notMem : p ∉ l
  notKernel : ¬ K p
  unused : uses dirs m held p = 0
  bound : p.toNat < m.npages

theorem Fresh.not_isTab (h : Fresh K dirs held l m p) : ¬ IsTab dirs m p := by
  rintro ⟨r, -, hr⟩
  exact (total_eq_zero.mp h.unused).1 r hr

/-- Only the page `p` that is handed out is written. -/
structure Handed (dirs : Slot → Option Ppn) (m m' : Phys) (p : Ppn) : Prop where
  targets : target dirs m' = target dirs m
  entries : entry dirs m' = entry dirs m
  mem : ∀ q, q ≠ p → m'.mem q = m.mem q
  npages : m'.npages = m.npages
  kernPgdir : m'.kernPgdir = m.kernPgdir
  handed : m'.handed = p :: m.handed

theorem Handed.touches (h : Handed dirs m m' p) : Touches dirs m dirs m' [p] :=
  .of_target h.targets h.npages h.kernPgdir h.handed fun q hq _ => h.mem q (by simpa using hq)

theorem Ledger.pageAlloc {zero : Bool} (h : Ledger K dirs held l m)
    (halloc : pageAlloc m zero = .ok (some p, m')) :
    ∃ t, l = p :: t ∧ Ledger K dirs held t m' ∧ Fresh K dirs held t m' p ∧
      Handed dirs m m' p ∧ (zero = true → m'.mem p = fun _ => 0) := by
  obtain ⟨hlist, m1, hm1, hm'⟩ := pageAlloc_some halloc
  have hpool := h.pool
  rw [hlist] at hpool
  obtain ⟨t, rfl, hpt, hfixed, hzero, hpool'⟩ := hpool.alloc
  have hbound : p.toNat < m.npages := h.bound p (Or.inl List.mem_cons_self)
  have hnottab : ¬ IsTab dirs m p := fun ⟨r, _, hr⟩ => (total_eq_zero.mp hzero).1 r hr
  -- all that is written is the page itself
  have hmem : ∀ q, q ≠ p → m'.mem q = m.mem q := fun q hq => by
    rw [hm', hm1]
    cases zero with
    | false => rfl
    | true => simp [Function.update_of_ne hq]
  have hfields : m'.npages = m.npages ∧ m'.kernPgdir = m.kernPgdir ∧
      m'.handed = p :: m.handed ∧ m'.pageFreeList = (m.pages p).ppLink ∧
      m'.pages = (m.setLink p none).pages := by
    rw [hm', hm1]
    cases zero <;> exact ⟨rfl, rfl, rfl, rfl, rfl⟩
  obtain ⟨hn, hk, hh, hfl, hpages⟩ := hfields
  have hsame := entry_write_data dirs m m' fun q hq =>
    hmem q fun heq => hnottab (heq ▸ hq)
  have htgt := target_congr hsame.1 hsame.2
  refine ⟨t, rfl, ?_, ⟨hpt, hfixed, by rw [uses, htgt]; exact hzero, by rw [hn]; exact hbound⟩,
    ⟨htgt, hsame.2, hmem, hn, hk, hh⟩, ?_⟩
  · exact
      { h.toKernPart.congr hk (fun q hq => hmem q fun heq => hfixed (heq ▸ hq))
          fun e d i hd _ => by rw [hmem d fun heq => hnottab ⟨.dir e, trivial, heq ▸ hd⟩] with
        pool := by
          rw [htgt, hfl, hpages, setLink_ppRef, setLink_ppLink]
          exact hpool'
        bound := fun q hq => by
          rw [hn]
          rw [uses, htgt] at hq
          exact h.bound q (hq.imp_left (List.mem_cons_of_mem _)) }
  · rintro rfl
    rw [hm']
    simp

/-- A step in counters, links or list head only. -/
theorem Ledger.of_pool {held' l' : List Ppn} (h : Ledger K dirs held l m)
    (hpool : Pool K Ref.IsTable (target dirs m) held' (fun p => (m'.pages p).ppRef)
      (fun p => (m'.pages p).ppLink) m'.pageFreeList l')
    (hmem : m'.mem = m.mem) (hn : m'.npages = m.npages) (hk : m'.kernPgdir = m.kernPgdir)
    (hbound : ∀ p, p ∈ l' ∨ 0 < total (target dirs m) held' p → p.toNat < m.npages) :
    Ledger K dirs held' l' m' := by
  have hsame := entry_write_data dirs m m' fun q _ => by rw [hmem]
  have htgt := target_congr hsame.1 hsame.2
  exact
    { h.toKernPart.congr hk (fun q _ => by rw [hmem]) fun e d i _ _ => by rw [hmem] with
      pool := htgt ▸ hpool
      bound := fun p hp => by
        rw [hn]
        rw [uses, htgt] at hp
        exact hbound p hp }

/-- `pp->pp_ref++` for a reference about to be stored. -/
theorem Ledger.incref (h : Ledger K dirs held l m) (hl : p ∉ l) (hK : ¬ K p)
    (htab : ¬ IsTab dirs m p) (hb : p.toNat < m.npages) :
    Ledger K dirs (p :: held) l (m.incref p) := by
  refine h.of_pool ?_ rfl rfl rfl fun q hq => ?_
  · have hpool := h.pool.hold hl hK fun r hr hp => htab ⟨r, hr, hp⟩
    rw [Phys.incref, setRef_ppRef, setRef_ppLink]
    exact hpool
  · rcases hq with hq | hq
    · exact h.bound q (Or.inl hq)
    · rcases eq_or_ne p q with rfl | hne
      · exact hb
      · rw [total_cons_of_ne hne] at hq
        exact h.bound q (Or.inr hq)

theorem pageFree_ok (h : pageFree m p = .ok m') : (m.pages p).ppRef = 0 ∧
    m' = { m.setLink p m.pageFreeList with pageFreeList := some p } := by
  unfold pageFree at h
  split at h
  · cases h
  · rename_i href
    split at h
    · cases h
    · cases h
      exact ⟨not_not.mp href, rfl⟩

/-- `page_free` of a page nobody refers to. -/
theorem Ledger.pageFree (h : Ledger K dirs held l m) (hl : p ∉ l) (hK : ¬ K p)
    (h0 : uses dirs m held p = 0) (hb : p.toNat < m.npages) (hfree : pageFree m p = .ok m') :
    Ledger K dirs held (p :: l) m' := by
  obtain ⟨-, rfl⟩ := pageFree_ok hfree
  refine h.of_pool ?_ rfl rfl rfl fun q hq => ?_
  · have hpool := h.pool.push hl hK h0
    show Pool _ _ _ _ (fun q => ((m.setLink p m.pageFreeList).pages q).ppRef)
      (fun q => ((m.setLink p m.pageFreeList).pages q).ppLink) (some p) _
    rw [setLink_ppRef, setLink_ppLink]
    exact hpool
  · rcases hq with hq | hq
    · rcases List.mem_cons.mp hq with rfl | hq
      · exact hb
      · exact h.bound q (Or.inl hq)
    · exact h.bound q (Or.inr hq)

/-- `page_decref` of a held reference, as long as the references fit in the counter. -/
theorem Ledger.pageDecref (h : Ledger K dirs (p :: held) l m)
    (hfit : uses dirs m (p :: held) p < 2 ^ 16) (hdec : pageDecref m p = .ok m') :
    ∃ l', Ledger K dirs held l' m' ∧ m'.mem = m.mem ∧ m'.npages = m.npages ∧
      m'.kernPgdir = m.kernPgdir ∧ m'.handed = m.handed := by
  obtain ⟨hpool, hl, hK, hzero⟩ := h.pool.drop hfit
  have hb : p.toNat < m.npages := by
    refine h.bound p (Or.inr ?_)
    rw [uses, total_cons_self]
    omega
  have hdropped : Ledger K dirs held l (m.setRef p ((m.pages p).ppRef - 1)) := by
    refine h.of_pool ?_ rfl rfl rfl fun q hq => h.bound q (hq.imp_right fun hq => ?_)
    · rw [setRef_ppRef, setRef_ppLink]
      exact hpool
    · rw [uses, total_cons]
      omega
  unfold SisOp.Jos.pageDecref at hdec
  simp only at hdec
  split at hdec
  · rename_i h0
    rw [h0] at hdec
    rw [h0] at hdropped
    have hfields := (pageFree_ok hdec).2
    refine ⟨p :: l, hdropped.pageFree hl hK ?_ hb hdec, ?_⟩
    · exact hzero.mp h0
    · rw [hfields]
      exact ⟨rfl, rfl, rfl, rfl⟩
  · cases hdec
    exact ⟨l, hdropped, rfl, rfl, rfl, rfl⟩

/-! ## Stores to directories and page tables -/

/-- No page is referred to more often than before, a new one at most once. -/
def UsesKept (dirs : Slot → Option Ppn) (m : Phys) (held : List Ppn) (dirs' : Slot → Option Ppn)
    (m' : Phys) (held' hs : List Ppn) : Prop :=
  ∀ p, uses dirs' m' held' p ≤ uses dirs m held p ∨ p ∈ hs ∧ uses dirs' m' held' p ≤ 1

theorem UsesKept.of_eq {held' : List Ppn}
    (h : ∀ p, uses dirs' m' held' p = uses dirs m held p) :
    UsesKept dirs m held dirs' m' held' hs := fun p => Or.inl (h p).le

theorem UsesKept.trans {held' held'' : List Ppn}
    (h : UsesKept dirs m held dirs' m' held' hs)
    (h' : UsesKept dirs' m' held' dirs'' m'' held'' hs') :
    UsesKept dirs m held dirs'' m'' held'' (hs' ++ hs) := fun p => by
  rcases h' p with hle | ⟨hp, hle⟩
  · rcases h p with hle' | ⟨hp, hle'⟩
    · exact Or.inl (hle.trans hle')
    · exact Or.inr ⟨List.mem_append_right _ hp, hle.trans hle'⟩
  · exact Or.inr ⟨List.mem_append_left _ hp, hle⟩

/-- A store to a directory or a page table that keeps the total of references. -/
theorem Ledger.of_store {held' : List Ppn} {r : Ref} {q : PtePtr} (h : Ledger K dirs held l m)
    (hq : target dirs m r = some q.1) (hupper : ∀ e, dirs e = some q.1 → UserPdx q.2)
    (hpool : Pool K Ref.IsTable (target dirs (m.store q w)) held' (fun p => (m.pages p).ppRef)
      (fun p => (m.pages p).ppLink) m.pageFreeList l)
    (huses : ∀ p, uses dirs (m.store q w) held' p = uses dirs m held p) :
    Ledger K dirs held' l (m.store q w) :=
  { h.toKernPart.congr (show (m.store q w).kernPgdir = m.kernPgdir from rfl)
      (fun p hp => store_mem_of_ne' fun heq => h.not_kernel (heq ▸ hq) hp)
      (fun e d i hd hi => store_mem_of_ne (by
        by_cases heq : d = q.1
        · exact Or.inr fun hi' => hi (hi' ▸ hupper e (heq ▸ hd))
        · exact Or.inl heq)) with
    pool := hpool
    bound := fun p hp => h.bound p (by rwa [huses] at hp) }

theorem Touches.store {r : Ref} {q : PtePtr} (hr : r.IsTable) (hq : target dirs m r = some q.1)
    (htabs : ∀ p, IsTab dirs (m.store q w) p → IsTab dirs m p) :
    Touches dirs m dirs (m.store q w) [] where
  npages := rfl
  kernPgdir := rfl
  handed := rfl
  data := fun p _ hp => by
    have hne : p ≠ q.1 := fun heq => hp ⟨r, hr, heq ▸ hq⟩
    rw [store_mem, Function.update_of_ne hne]
  tabs := fun p hp => Or.inr (htabs p hp)

/-- Page table entries do not decide what is a directory or a page table. -/
theorem isTab_congr (htab : tableOf dirs m' = tableOf dirs m) (h : IsTab dirs m' p) :
    IsTab dirs m p := by
  obtain ⟨r, hr, hp⟩ := h
  refine ⟨r, hr, ?_⟩
  cases r with
  | dir e => exact hp
  | table e i =>
      rw [target, htab] at hp
      exact hp
  | user e i j => exact hr.elim

/-- What a store to the entry at `(e, i, j)` leaves: the free list, and this mapping. -/
structure PteStored (K : Ppn → Prop) (dirs : Slot → Option Ppn) (held held' l : List Ppn)
    (m m' : Phys) (e : Slot) (i j : Idx) (x : Option Word) : Prop where
  ledger : Ledger K dirs held' l m'
  entries : entry dirs m' = setEntry (entry dirs m) e i j x
  tables : tableOf dirs m' = tableOf dirs m
  touches : Touches dirs m dirs m' []
  total : ∀ p, uses dirs m' held' p = uses dirs m held p

/-- `*pte = 0` on an entry in use: the reference is held from now on. -/
theorem Ledger.clear_pte (h : Ledger K dirs held l m) (ht : tableOf dirs m e i = some t)
    (hw : entry dirs m e i j = some w) :
    PteStored K dirs held (PGNUM w :: held) l m (m.store (t, j) 0) e i j none := by
  have hsole : ∀ r : Ref, target dirs m r = some t → r = .table e i := fun r hr =>
    h.sole_ref (r := .table e i) trivial ht hr
  obtain ⟨htab, hent⟩ := entry_store_pte ht hsole (j := j) 0
  rw [if_neg not_PTE_VALID_zero] at hent
  have htgt := target_of_entry_update htab hent
  have huses : ∀ p, uses dirs (m.store (t, j) 0) (PGNUM w :: held) p = uses dirs m held p :=
    fun p => by
      rw [uses, htgt]
      exact total_unlink (target_user hw)
  have hupper : ∀ e', dirs e' = some t → UserPdx j := fun e' hd => by cases hsole (.dir e') hd
  refine ⟨h.of_store (r := .table e i) ht hupper ?_ huses, hent, htab,
    .store (r := .table e i) trivial ht fun p => isTab_congr htab, huses⟩
  rw [htgt]
  exact h.pool.unlink (target_user hw)

/-- `*pte = w` on an unused entry: a held reference is stored. -/
theorem Ledger.set_pte (h : Ledger K dirs (PGNUM w :: held) l m)
    (ht : tableOf dirs m e i = some t) (hnone : entry dirs m e i j = none) (hv : PTE_VALID w) :
    PteStored K dirs (PGNUM w :: held) held l m (m.store (t, j) w) e i j (some w) := by
  have hsole : ∀ r : Ref, target dirs m r = some t → r = .table e i := fun r hr =>
    h.sole_ref (r := .table e i) trivial ht hr
  obtain ⟨htab, hent⟩ := entry_store_pte ht hsole (j := j) w
  rw [if_pos hv] at hent
  have htgt := target_of_entry_update htab hent
  have hempty : target dirs m (.user e i j) = none := by
    rw [target, hnone]
    rfl
  have huses : ∀ p, uses dirs (m.store (t, j) w) held p = uses dirs m (PGNUM w :: held) p :=
    fun p => by
      rw [uses, htgt]
      exact total_link hempty
  have hupper : ∀ e', dirs e' = some t → UserPdx j := fun e' hd => by cases hsole (.dir e') hd
  refine ⟨h.of_store (r := .table e i) ht hupper ?_ huses, hent, htab,
    .store (r := .table e i) trivial ht fun p => isTab_congr htab, huses⟩
  rw [htgt]
  exact h.pool.link hempty fun hsole => hsole.elim

/-! ## Walking -/

theorem KADDR_ok {q : Ppn} (h : KADDR m p = .ok q) : q = p := by
  unfold KADDR at h
  split at h <;> cases h
  rfl

theorem pa2page_ok {q : Ppn} (h : pa2page m p = .ok q) : q = p := by
  unfold pa2page at h
  split at h <;> cases h
  rfl

/-- The walk through a present directory entry. -/
theorem pgdirWalk_present {create : Bool} {pte : Option PtePtr}
    (hv : PTE_VALID (m.mem d (PDX va))) (h : pgdirWalk m d va create = .ok (pte, m')) :
    pte = some (PGNUM (m.mem d (PDX va)), PTX va) ∧ m' = m := by
  simp only [pgdirWalk, Phys.load, hv, not_true_eq_false, if_false, bind_eq_ok] at h
  obtain ⟨kva, hkva, h⟩ := h
  cases h
  rw [KADDR_ok hkva, PGNUM_PTE_ADDR]
  exact ⟨rfl, rfl⟩

/-- The walk that allocates a page table. -/
theorem pgdirWalk_created {pte : PtePtr} (hv : ¬ PTE_VALID (m.mem d (PDX va)))
    (h : pgdirWalk m d va true = .ok (some pte, m')) :
    ∃ t m1, pageAlloc m true = .ok (some t, m1) ∧ pte = (t, PTX va) ∧
      m' = (m1.incref t).store (d, PDX va) (mkPte t (PTE_W ||| PTE_U)) := by
  simp only [pgdirWalk, Phys.load, hv, not_true_eq_false, not_false_eq_true, if_true, if_false,
    bind_eq_ok] at h
  obtain ⟨⟨p, m1⟩, halloc, h⟩ := h
  cases p with
  | none => cases h
  | some t =>
      simp only [bind_eq_ok] at h
      obtain ⟨kva, hkva, h⟩ := h
      cases h
      refine ⟨t, m1, halloc, by rw [KADDR_ok hkva], ?_⟩
      rw [mkPte, show page2pa t ||| (PTE_W ||| PTE_U) ||| PTE_P =
        page2pa t ||| PTE_P ||| PTE_W ||| PTE_U by ac_rfl]
      rfl

/-- What `pgdir_walk(pgdir, va, 1)` leaves when it finds or makes a page table `t`. -/
structure Walked (K : Ppn → Prop) (dirs : Slot → Option Ppn) (held l' : List Ppn) (m m' : Phys)
    (e : Slot) (i : Idx) (t : Ppn) (hs : List Ppn) : Prop where
  ledger : Ledger K dirs held l' m'
  table : tableOf dirs m' e i = some t
  entries : entry dirs m' = entry dirs m
  touches : Touches dirs m dirs m' hs
  kept : UsesKept dirs m held dirs m' held hs
  old : ∀ p, p ∉ hs → uses dirs m' held p = uses dirs m held p

/-- The directory entry of a new, cleared page table is stored. -/
theorem Ledger.set_pde (h : Ledger K dirs held l m) (hd : dirs e = some d) (hi : UserPdx i)
    (hpde : ¬ PTE_VALID (m.mem d i)) (hfresh : Fresh K dirs held l m t)
    (hzero : m.mem t = fun _ => 0) (hflags : FlagsOnly perm) :
    Ledger K dirs held l ((m.incref t).store (d, i) (mkPte t perm)) ∧
      entry dirs ((m.incref t).store (d, i) (mkPte t perm)) = entry dirs m ∧
      target dirs ((m.incref t).store (d, i) (mkPte t perm)) =
        Function.update (target dirs m) (.table e i) (some t) ∧
      ∀ p, uses dirs ((m.incref t).store (d, i) (mkPte t perm)) held p =
        uses dirs m (t :: held) p := by
  have hheld := h.incref hfresh.notMem hfresh.notKernel hfresh.not_isTab hfresh.bound
  have hdt : t ≠ d := fun heq => hfresh.not_isTab ⟨.dir e, trivial, heq ▸ hd⟩
  have hnone : tableOf dirs m e i = none := by
    rw [tableOf, if_pos hi, hd, Option.bind_some, if_neg hpde]
  have htab : tableOf dirs ((m.incref t).store (d, i) (mkPte t perm)) e i = some t := by
    rw [tableOf_some]
    exact ⟨hi, d, hd, by rw [store_mem_self]; exact PTE_VALID_mkPte t perm,
      by rw [store_mem_self, PGNUM_mkPte t hflags]⟩
  obtain ⟨hent, htgt⟩ := target_store_pde (m := m.incref t) (w := mkPte t perm) hd hi
    (fun r hr => h.sole_ref (r := .dir e) trivial hd hr) (fun j => entry_none_of_table hnone)
    fun j => by
      rw [entry_of_table htab, store_mem_of_ne (Or.inl hdt), incref_mem, hzero,
        if_neg not_PTE_VALID_zero]
  rw [if_pos (PTE_VALID_mkPte t perm), PGNUM_mkPte t hflags] at htgt
  have htgt' : target dirs ((m.incref t).store (d, i) (mkPte t perm)) =
      Function.update (target dirs m) (.table e i) (some t) := htgt
  have huses : ∀ p, uses dirs ((m.incref t).store (d, i) (mkPte t perm)) held p =
      uses dirs m (t :: held) p := fun p => by
    rw [uses, htgt']
    exact total_link hnone
  refine ⟨hheld.of_store (r := .dir e) hd (fun _ _ => hi) ?_ huses, hent, htgt', huses⟩
  rw [htgt']
  refine hheld.pool.link hnone fun _ => ?_
  have h0 := hfresh.unused
  rw [uses] at h0
  rw [show target dirs (m.incref t) = target dirs m from rfl, total_cons_self, h0]

/-- `hs` was taken from the free list for a page table, if `table` is not one. -/
structure Taken (table : Option Ppn) (l hs l' : List Ppn) : Prop where
  split : l = hs ++ l'
  one : hs.length ≤ 1
  none : table ≠ none → hs = []

theorem Taken.notMem {table : Option Ppn} {l' hs : List Ppn} (h : Taken table l hs l') (hp : p ∉ l) :
    p ∉ hs ∧ p ∉ l' := by
  rw [h.split] at hp
  exact not_or.mp fun hor => hp (List.mem_append.mpr hor)

theorem Ledger.pgdirWalk {pte : PtePtr} (h : Ledger K dirs held l m) (hd : dirs e = some d)
    (hi : UserPdx (PDX va)) (hwalk : pgdirWalk m d va true = .ok (some pte, m')) :
    ∃ l' hs t, pte = (t, PTX va) ∧ Taken (tableOf dirs m e (PDX va)) l hs l' ∧
      Walked K dirs held l' m m' e (PDX va) t hs := by
  by_cases hv : PTE_VALID (m.mem d (PDX va))
  · obtain ⟨heq, rfl⟩ := pgdirWalk_present hv hwalk
    cases heq
    exact ⟨l, [], _, rfl, ⟨rfl, by simp, fun _ => rfl⟩,
      { ledger := h
        table := tableOf_some.mpr ⟨hi, d, hd, hv, rfl⟩
        entries := rfl
        touches := .refl dirs m'
        kept := .of_eq fun _ => rfl
        old := fun _ _ => rfl }⟩
  · obtain ⟨t, m1, halloc, rfl, rfl⟩ := pgdirWalk_created hv hwalk
    obtain ⟨l', rfl, h1, hfresh, hhanded, hzero⟩ := h.pageAlloc halloc
    have hdt : d ≠ t := fun heq =>
      hfresh.not_isTab ⟨.dir e, trivial, show dirs e = some t from heq ▸ hd⟩
    obtain ⟨h2, hent2, htgt2, huses2⟩ := h1.set_pde hd hi
      (by rw [hhanded.mem d hdt]; exact hv) hfresh (hzero rfl)
      (show FlagsOnly (PTE_W ||| PTE_U) by decide)
    have huses : ∀ p, uses dirs ((m1.incref t).store (d, PDX va) (mkPte t (PTE_W ||| PTE_U))) held p =
        uses dirs m (t :: held) p := fun p => by
      rw [huses2, uses, hhanded.targets]
    have hzero' : uses dirs m held t = 0 := by
      rw [uses, ← hhanded.targets]
      exact hfresh.unused
    have hnone : tableOf dirs m e (PDX va) = none := by
      rw [tableOf, if_pos hi, hd, Option.bind_some, if_neg hv]
    refine ⟨l', [t], t, rfl, ⟨rfl, by simp, fun hne => absurd hnone hne⟩,
      { ledger := h2
        table := ?_
        entries := hent2.trans hhanded.entries
        touches :=
          { npages := hhanded.npages
            kernPgdir := hhanded.kernPgdir
            handed := hhanded.handed
            data := fun p hp hnot => ?_
            tabs := fun p hp => ?_ }
        kept := fun p => ?_
        old := fun p hp => ?_ }⟩
    · have hself : target dirs ((m1.incref t).store (d, PDX va) (mkPte t (PTE_W ||| PTE_U)))
          (.table e (PDX va)) = some t := by
        rw [htgt2, Function.update_self]
      exact hself
    · have hpd : p ≠ d := fun heq => hnot ⟨.dir e, trivial, heq ▸ hd⟩
      rw [store_mem_of_ne' hpd, incref_mem, hhanded.mem p (by simpa using hp)]
    · obtain ⟨r, hr, hrp⟩ := hp
      rw [htgt2, hhanded.targets] at hrp
      rcases eq_or_ne r (.table e (PDX va)) with rfl | hne
      · rw [Function.update_self] at hrp
        exact Or.inl (List.mem_singleton.mpr (Option.some.inj hrp).symm)
      · rw [Function.update_of_ne hne] at hrp
        exact Or.inr ⟨r, hr, hrp⟩
    · rw [huses]
      by_cases hpt : t = p
      · subst hpt
        refine Or.inr ⟨List.mem_singleton_self _, ?_⟩
        rw [uses, total_cons_self]
        exact (congrArg (· + 1) hzero').le
      · exact Or.inl (total_cons_of_ne hpt).le
    · have hpt : t ≠ p := fun heq => hp (List.mem_singleton.mpr heq.symm)
      rw [huses]
      exact total_cons_of_ne hpt

/-! ## Looking up, removing, inserting -/

theorem setEntry_of_eq {f : Slot → Idx → Idx → Option Word} {x : Option Word} (h : f e i j = x) :
    setEntry f e i j x = f := by
  funext e' i' j'
  by_cases heq : e' = e ∧ i' = i ∧ j' = j
  · obtain ⟨rfl, rfl, rfl⟩ := heq
    rw [setEntry_self, h]
  · rw [setEntry_of_ne heq]

theorem pageLookup_cases {res : Option (Ppn × PtePtr)} (hd : dirs e = some d)
    (hi : UserPdx (PDX va)) (h : pageLookup m d va = .ok res) :
    (res = none ∧ entry dirs m e (PDX va) (PTX va) = none) ∨
    ∃ t w, res = some (PGNUM w, (t, PTX va)) ∧ tableOf dirs m e (PDX va) = some t ∧
      entry dirs m e (PDX va) (PTX va) = some w ∧ m.mem t (PTX va) = w := by
  simp only [pageLookup, bind_eq_ok] at h
  obtain ⟨⟨pte, m1⟩, hwalk, h⟩ := h
  by_cases hv : PTE_VALID (m.mem d (PDX va))
  · obtain ⟨rfl, rfl⟩ := pgdirWalk_present hv hwalk
    have htab : tableOf dirs m1 e (PDX va) = some (PGNUM (m1.mem d (PDX va))) :=
      tableOf_some.mpr ⟨hi, d, hd, hv, rfl⟩
    have hent := entry_of_table (j := PTX va) htab
    simp only at h
    split at h
    · rename_i hinv
      cases h
      exact Or.inl ⟨rfl, by rw [hent]; exact if_neg hinv⟩
    · rename_i hval
      simp only [bind_eq_ok] at h
      obtain ⟨page, hpage, h⟩ := h
      cases h
      refine Or.inr ⟨_, _, ?_, htab, by rw [hent]; exact if_pos (not_not.mp hval), rfl⟩
      rw [pa2page_ok hpage, PGNUM_PTE_ADDR]
      rfl
  · have htab : tableOf dirs m e (PDX va) = none := by
      rw [tableOf, if_pos hi, hd, Option.bind_some, if_neg hv]
    simp only [pgdirWalk, Phys.load, hv, not_false_eq_true, if_true, Bool.false_eq_true] at hwalk
    cases hwalk
    cases h
    exact Or.inl ⟨rfl, entry_none_of_table htab⟩

/-- What a function that changes the entry at `(e, i, j)` leaves. -/
structure Remapped (K : Ppn → Prop) (dirs : Slot → Option Ppn) (held l' : List Ppn)
    (m m' : Phys) (e : Slot) (i j : Idx) (x : Option Word) (hs : List Ppn) : Prop where
  ledger : Ledger K dirs held l' m'
  entries : entry dirs m' = setEntry (entry dirs m) e i j x
  touches : Touches dirs m dirs m' hs

theorem Ledger.pageRemove (h : Ledger K dirs held l m) (hd : dirs e = some d)
    (hi : UserPdx (PDX va))
    (hfit : ∀ w, entry dirs m e (PDX va) (PTX va) = some w → uses dirs m held (PGNUM w) < 2 ^ 16)
    (hrem : pageRemove m d va = .ok m') :
    ∃ l', Remapped K dirs held l' m m' e (PDX va) (PTX va) none [] ∧
      tableOf dirs m' = tableOf dirs m ∧ ∀ p, uses dirs m' held p ≤ uses dirs m held p := by
  simp only [SisOp.Jos.pageRemove, bind_eq_ok] at hrem
  obtain ⟨res, hlook, hrem⟩ := hrem
  rcases pageLookup_cases hd hi hlook with ⟨rfl, hnone⟩ | ⟨t, w, rfl, ht, hw, hmem⟩
  · cases hrem
    exact ⟨l, ⟨h, (setEntry_of_eq hnone).symm, .refl dirs m⟩, rfl, fun _ => le_rfl⟩
  · have hstored := h.clear_pte ht hw
    obtain ⟨l', hl', hmem', hn, hk, hh⟩ :=
      hstored.ledger.pageDecref (by rw [hstored.total]; exact hfit w hw) hrem
    have hsame := entry_write_data dirs (m.store (t, PTX va) 0) m' fun q _ => by
      rw [hmem']
    have htgt := target_congr hsame.1 hsame.2
    refine ⟨l', ⟨hl', hsame.2.trans hstored.entries, ?_⟩, hsame.1.trans hstored.tables, fun p => ?_⟩
    · have htouch : Touches dirs (m.store (t, PTX va) 0) dirs m' [] :=
        .of_target htgt hn hk hh fun q _ _ => by rw [hmem']
      exact hstored.touches.trans htouch
    · have hle := hstored.total p
      rw [uses, total_cons] at hle
      rw [uses, htgt]
      omega

/-- A reference held besides is held after the walk. -/
theorem Walked.kept_cons {hs : List Ppn} (h : Walked K dirs held l m m' e i t hs) (hp : p ∉ hs) :
    UsesKept dirs m (p :: held) dirs m' (p :: held) hs := fun q => by
  by_cases hq : q ∈ hs
  · have hne : p ≠ q := fun heq => hp (heq ▸ hq)
    rw [uses, uses, total_cons_of_ne hne, total_cons_of_ne hne]
    exact h.kept q
  · have hold := h.old q hq
    rw [uses, uses] at hold
    rw [uses, uses, total_cons, total_cons, hold]
    exact Or.inl le_rfl

/-- `page_insert` of a page that is neither free nor a page table. -/
theorem Ledger.pageInsert {r : Int} (h : Ledger K dirs held l m) (hd : dirs e = some d)
    (hi : UserPdx (PDX va)) (hflags : FlagsOnly perm) (hl : p ∉ l) (hK : ¬ K p)
    (htab : ¬ IsTab dirs m p) (hb : p.toNat < m.npages)
    (hfit : ∀ w, entry dirs m e (PDX va) (PTX va) = some w →
      uses dirs m (p :: held) (PGNUM w) < 2 ^ 16)
    (hins : pageInsert m d p va perm = .ok (r, m')) :
    (r = -E_NO_MEM ∧ m' = m) ∨ ∃ l' hs, r = 0 ∧ p ∉ hs ∧
      (entry dirs m e (PDX va) (PTX va) = none → Taken (tableOf dirs m e (PDX va)) l hs l') ∧
      Remapped K dirs held l' m m' e (PDX va) (PTX va) (some (mkPte p perm)) hs ∧
      UsesKept dirs m (p :: held) dirs m' held hs := by
  simp only [SisOp.Jos.pageInsert, bind_eq_ok] at hins
  obtain ⟨⟨pte, m1⟩, hwalk, hins⟩ := hins
  cases pte with
  | none =>
      cases hins
      exact Or.inl ⟨rfl, (pgdirWalk_none hwalk).2.2⟩
  | some pte =>
      obtain ⟨l1, hs, t, rfl, hnew, hw⟩ := h.pgdirWalk hd hi hwalk
      have hp : p ∉ hs := (hnew.notMem hl).1
      have htab1 : ¬ IsTab dirs m1 p := fun h1 => (hw.touches.tabs p h1).elim hp htab
      have hb1 : p.toNat < m1.npages := hw.touches.npages ▸ hb
      have h1 := hw.ledger.incref (hnew.notMem hl).2 hK htab1 hb1
      have ht1 : tableOf dirs (m1.incref p) e (PDX va) = some t := hw.table
      -- what the walk found is taken out, if there is anything
      have hremoved : ∃ m2 l2, Remapped K dirs (p :: held) l2 (m1.incref p) m2 e (PDX va) (PTX va)
          none [] ∧ tableOf dirs m2 = tableOf dirs (m1.incref p) ∧
          (∀ q, uses dirs m2 (p :: held) q ≤ uses dirs m1 (p :: held) q) ∧
          (entry dirs m1 e (PDX va) (PTX va) = none → l2 = l1) ∧ r = 0 ∧
          m' = m2.store (t, PTX va) (mkPte p perm) := by
        simp only at hins
        split at hins
        · rename_i hval
          simp only [bind_eq_ok] at hins
          obtain ⟨m2, hrem, hins⟩ := hins
          cases hins
          have hsome : entry dirs m1 e (PDX va) (PTX va) ≠ none := by
            have hval' : PTE_VALID (m1.mem t (PTX va)) := hval
            rw [entry_of_table hw.table, if_pos hval']
            exact Option.some_ne_none _
          have hfit1 : ∀ w, entry dirs (m1.incref p) e (PDX va) (PTX va) = some w →
              uses dirs (m1.incref p) (p :: held) (PGNUM w) < 2 ^ 16 := fun w hentry => by
            have hentry0 : entry dirs m e (PDX va) (PTX va) = some w := hw.entries ▸ hentry
            have hwl : PGNUM w ∉ l := fun hmem =>
              h.free_unused hmem _ (target_user hentry0)
            have hold := hw.old _ (hnew.notMem hwl).1
            have hlt := hfit w hentry0
            rw [uses, total_cons] at hlt ⊢
            rw [uses, uses] at hold
            rwa [show target dirs (m1.incref p) = target dirs m1 from rfl, hold]
          obtain ⟨l2, hr2, ht2, hu2⟩ := h1.pageRemove hd hi hfit1 hrem
          exact ⟨m2, l2, hr2, ht2, hu2, fun hnone => absurd hnone hsome, rfl, rfl⟩
        · rename_i hinv
          simp only [bind_eq_ok] at hins
          obtain ⟨m2, hpure, hins⟩ := hins
          cases hpure
          cases hins
          have hnone : entry dirs (m1.incref p) e (PDX va) (PTX va) = none := by
            rw [entry_of_table ht1]
            exact if_neg hinv
          exact ⟨_, l1, ⟨h1, (setEntry_of_eq hnone).symm, .refl dirs _⟩, rfl, fun _ => le_rfl,
            fun _ => rfl, rfl, rfl⟩
      obtain ⟨m2, l2, hr2, ht2, hu2, hl2, rfl, rfl⟩ := hremoved
      have hnone2 : entry dirs m2 e (PDX va) (PTX va) = none := by
        rw [hr2.entries, setEntry_self]
      have h2 : Ledger K dirs (PGNUM (mkPte p perm) :: held) l2 m2 := by
        rw [PGNUM_mkPte p hflags]
        exact hr2.ledger
      have hset := h2.set_pte (ht2 ▸ ht1) hnone2 (PTE_VALID_mkPte p perm)
      refine Or.inr ⟨l2, hs, rfl, hp, fun hnone => ?_, ⟨hset.ledger, ?_, ?_⟩, fun q => ?_⟩
      · rw [hl2 (hw.entries ▸ hnone)]
        exact hnew
      · rw [hset.entries, hr2.entries, setEntry_setEntry]
        exact congrArg (setEntry · e (PDX va) (PTX va) _) hw.entries
      · have hinc : Touches dirs m1 dirs (m1.incref p) [] :=
          .of_target rfl rfl rfl rfl fun _ _ _ => rfl
        have h12 := ((hw.touches.trans hinc).trans hr2.touches).trans hset.touches
        simpa using h12
      · have htot := hset.total q
        rw [PGNUM_mkPte p hflags] at htot
        rw [htot]
        exact (hw.kept_cons hp q).imp (hu2 q).trans (And.imp_right (hu2 q).trans)

end

end SisOp.Jos
