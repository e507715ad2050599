/-
# `SisOp.Memory.Total` — the page functions do not fail

With the invariant, `page_alloc` hands out the head of the free list and
`page_insert` maps a page wherever nothing is mapped yet, as long as there is a
page table or a free page to make one of.
-/
import SisOp.Memory.Dirs

namespace SisOp.Jos

open SisOp.Lib

section

variable {K : Ppn → Prop} {dirs : Slot → Option Ppn} {held l : List Ppn} {m m' : Phys} {e : Slot}
  {a p d t : Ppn} {va perm : Word} {zero : Bool}

theorem KADDR_of_lt (h : p.toNat < m.npages) : KADDR m p = .ok p := if_neg (by omega)

theorem Ledger.alloc_total (h : Ledger K dirs held (a :: l) m) (zero : Bool) :
    ∃ m', SisOp.Jos.pageAlloc m zero = .ok (some a, m') := by
  have hhead : m.pageFreeList = some a := h.pool.chain.head_eq
  have hb : a.toNat < m.npages := h.bound a (Or.inl List.mem_cons_self)
  set m1 : Phys := { m with pageFreeList := (m.pages a).ppLink, handed := a :: m.handed }.setLink a
    none with hm1
  cases zero with
  | false =>
      refine ⟨m1, ?_⟩
      simp only [SisOp.Jos.pageAlloc, hhead]
      rfl
  | true =>
      refine ⟨m1.fill a fun _ => 0, ?_⟩
      have hk : KADDR m1 a = .ok a := KADDR_of_lt hb
      simp only [SisOp.Jos.pageAlloc, hhead, if_true, ← hm1, hk]
      rfl

theorem Ledger.walk_total (h : Ledger K dirs held l m) (hd : dirs e = some d)
    (hi : UserPdx (PDX va)) (hroom : tableOf dirs m e (PDX va) = none → l ≠ []) :
    ∃ t m', SisOp.Jos.pgdirWalk m d va true = .ok (some (t, PTX va), m') := by
  by_cases hv : PTE_VALID (m.mem d (PDX va))
  · have ht : tableOf dirs m e (PDX va) = some (PGNUM (m.mem d (PDX va))) :=
      tableOf_some.mpr ⟨hi, d, hd, hv, rfl⟩
    have hb : (PGNUM (m.mem d (PDX va))).toNat < m.npages :=
      h.bound _ (Or.inr (total_pos (r := Ref.table e (PDX va)) ht))
    refine ⟨PGNUM (m.mem d (PDX va)), m, ?_⟩
    simp only [SisOp.Jos.pgdirWalk, Phys.load, hv, not_true_eq_false, if_false, PGNUM_PTE_ADDR,
      KADDR_of_lt hb]
    rfl
  · have hnone : tableOf dirs m e (PDX va) = none := by
      rw [tableOf, if_pos hi, hd, Option.bind_some, if_neg hv]
    obtain ⟨a, l', rfl⟩ := List.exists_cons_of_ne_nil (hroom hnone)
    obtain ⟨m1, halloc⟩ := h.alloc_total true
    obtain ⟨l1, heq, -, hfresh, -, -⟩ := h.pageAlloc halloc
    have hk : KADDR ((m1.store (d, PDX va) (page2pa a ||| PTE_P ||| PTE_W ||| PTE_U)).incref a) a =
        .ok a := KADDR_of_lt (m := m1) hfresh.bound
    refine ⟨a, (m1.store (d, PDX va) (page2pa a ||| PTE_P ||| PTE_W ||| PTE_U)).incref a, ?_⟩
    simp only [SisOp.Jos.pgdirWalk, Phys.load, hv, not_false_eq_true, if_true, not_true_eq_false,
      if_false]
    exact bind_eq_ok.mpr ⟨_, halloc, bind_eq_ok.mpr ⟨a, hk, rfl⟩⟩

theorem Ledger.insert_total (h : Ledger K dirs held l m) (hd : dirs e = some d)
    (hi : UserPdx (PDX va)) (hnone : entry dirs m e (PDX va) (PTX va) = none)
    (hroom : tableOf dirs m e (PDX va) = none → l ≠ []) (p : Ppn) (perm : Word) :
    ∃ m', SisOp.Jos.pageInsert m d p va perm = .ok (0, m') := by
  obtain ⟨t, m1, hwalk⟩ := h.walk_total hd hi hroom
  obtain ⟨l', hs, t', heq, -, hw⟩ := h.pgdirWalk hd hi hwalk
  cases heq
  have hinv : ¬ PTE_VALID ((m1.incref p).load (t, PTX va)) := fun hv => by
    have hent := entry_of_table (j := PTX va) hw.table
    rw [hw.entries, hnone, if_pos (show PTE_VALID (m1.mem t (PTX va)) from hv)] at hent
    cases hent
  refine ⟨(m1.incref p).store (t, PTX va) (page2pa p ||| perm ||| PTE_P), ?_⟩
  refine bind_eq_ok.mpr ⟨_, hwalk, ?_⟩
  simp only [if_neg hinv]
  rfl

/-- Directories, page tables and new pages apart, memory is as it was. -/
theorem Touches.kernPgdir_mem {dirs' : Slot → Option Ppn} {hs : List Ppn}
    (h : Touches dirs m dirs' m' hs) (hl : Ledger K dirs [] (hs ++ l) m) :
    m'.mem m'.kernPgdir = m.mem m.kernPgdir := by
  rw [h.kernPgdir]
  refine h.data _ (fun hmem => ?_) fun ⟨r, _, hr⟩ => hl.kern_ne hr rfl
  exact (hl.pool.fixed _ hl.kern).1 (List.mem_append_left _ hmem)

/-- A new page table is the only one that changes. -/
theorem Ledger.walk_tables {pte : PtePtr} (h : Ledger K dirs held l m) (hd : dirs e = some d)
    (hi : UserPdx (PDX va)) (hwalk : SisOp.Jos.pgdirWalk m d va true = .ok (some pte, m'))
    {e' : Slot} {i : Idx} (hne : Ref.table e' i ≠ .table e (PDX va)) :
    tableOf dirs m' e' i = tableOf dirs m e' i := by
  by_cases hv : PTE_VALID (m.mem d (PDX va))
  · rw [(pgdirWalk_present hv hwalk).2]
  · obtain ⟨t, m1, halloc, -, rfl⟩ := pgdirWalk_created hv hwalk
    obtain ⟨l', -, h1, hfresh, hhanded, hzero⟩ := h.pageAlloc halloc
    have hdt : d ≠ t := fun heq =>
      hfresh.not_isTab ⟨.dir e, trivial, show dirs e = some t from heq ▸ hd⟩
    obtain ⟨-, -, htgt, -⟩ := h1.set_pde hd hi (by rw [hhanded.mem d hdt]; exact hv) hfresh
      (hzero rfl) (show FlagsOnly (PTE_W ||| PTE_U) by decide)
    have hnew := congrFun htgt (.table e' i)
    rw [Function.update_of_ne hne, hhanded.targets] at hnew
    exact hnew

/-- What `page_alloc` and `page_insert` leave where nothing was mapped. -/
structure NewMapping (K : Ppn → Prop) (dirs : Slot → Option Ppn) (l l' : List Ppn) (m m' : Phys)
    (e : Slot) (i j : Idx) (x : Word) : Prop where
  ledger : Ledger K dirs [] l' m'
  taken : ∃ hs, Taken (tableOf dirs m e i) l hs l'
  entries : entry dirs m' = setEntry (entry dirs m) e i j (some x)
  tables : ∀ e' i', Ref.table e' i' ≠ .table e i → tableOf dirs m' e' i' = tableOf dirs m e' i'
  kernPgdir : m'.mem m'.kernPgdir = m.mem m.kernPgdir

theorem Ledger.map_total (h : Ledger K dirs [] (p :: l) m) (zero : Bool) (hd : dirs e = some d)
    (hi : UserPdx (PDX va)) (hnone : entry dirs m e (PDX va) (PTX va) = none)
    (hroom : tableOf dirs m e (PDX va) = none → l ≠ []) (hflags : FlagsOnly perm) :
    ∃ m1 m2 l', SisOp.Jos.pageAlloc m zero = .ok (some p, m1) ∧
      SisOp.Jos.pageInsert m1 d p va perm = .ok (0, m2) ∧
      NewMapping K dirs l l' m m2 e (PDX va) (PTX va) (mkPte p perm) := by
  obtain ⟨m1, halloc⟩ := h.alloc_total zero
  obtain ⟨l1, heq, h1, hfresh, hhanded, -⟩ := h.pageAlloc halloc
  obtain ⟨-, rfl⟩ := List.cons.inj heq
  have htables : tableOf dirs m1 = tableOf dirs m := by
    funext e' i'
    exact congrFun hhanded.targets (.table e' i')
  have hnone1 : entry dirs m1 e (PDX va) (PTX va) = none := by
    rw [hhanded.entries]
    exact hnone
  obtain ⟨m2, hins⟩ := h1.insert_total hd hi hnone1 (htables ▸ hroom) p perm
  refine ⟨m1, m2, ?_⟩
  rcases h1.pageInsert hd hi hflags hfresh.notMem hfresh.notKernel hfresh.not_isTab hfresh.bound
    (fun w hw => by
      rw [hnone1] at hw
      cases hw) hins with ⟨h0, -⟩ | ⟨l2, hs, -, -, htaken, hr, -⟩
  · exact absurd h0 (by decide)
  · have htaken := htaken hnone1
    refine ⟨l2, halloc, hins, hr.ledger, ⟨hs, htables ▸ htaken⟩, ?_, fun e' i' hne => ?_, ?_⟩
    · rw [hr.entries, hhanded.entries]
    · -- the walk, and a store to the entry
      obtain ⟨⟨pte, m3⟩, hwalk, hins⟩ := bind_eq_ok.mp hins
      cases pte with
      | none =>
        cases hins
      | some pte =>
        obtain ⟨l3, hs3, t, rfl, hnew, hw⟩ := h1.pgdirWalk hd hi hwalk
        have hinv : ¬ PTE_VALID ((m3.incref p).load (t, PTX va)) := fun hv => by
          have hent := entry_of_table (j := PTX va) hw.table
          rw [hw.entries, hnone1, if_pos (show PTE_VALID (m3.mem t (PTX va)) from hv)] at hent
          cases hent
        simp only [if_neg hinv] at hins
        obtain ⟨m4, hpure, hins⟩ := bind_eq_ok.mp hins
        cases hpure
        cases hins
        have hsole : ∀ r : Ref, target dirs (m3.incref p) r = some t → r = .table e (PDX va) :=
          fun r hr => hw.ledger.sole_ref (r := .table e (PDX va)) trivial hw.table hr
        obtain ⟨htab, -⟩ := entry_store_pte (m := m3.incref p) hw.table hsole (j := PTX va)
          (page2pa p ||| perm ||| PTE_P)
        rw [congrFun (congrFun htab e') i']
        exact (h1.walk_tables hd hi hwalk hne).trans (congrFun (congrFun htables e') i')
    · have h1k := Touches.kernPgdir_mem hhanded.touches h
      exact (Touches.kernPgdir_mem hr.touches (htaken.split ▸ h1)).trans h1k

/-- What is mapped is found. -/
theorem Ledger.lookup_total {w : Word} (h : Ledger K dirs held l m) (hd : dirs e = some d)
    (hw : entry dirs m e (PDX va) (PTX va) = some w) :
    ∃ t, SisOp.Jos.pageLookup m d va = .ok (some (PGNUM w, (t, PTX va))) ∧
      m.load (t, PTX va) = w := by
  obtain ⟨t, ht, -, hmem⟩ := entry_some.mp hw
  obtain ⟨hi, d', hd', hpde, heq⟩ := tableOf_some.mp ht
  obtain rfl : d = d' := Option.some.inj (hd.symm.trans hd')
  have hbt : t.toNat < m.npages := h.bound t (Or.inr (total_pos (r := Ref.table e (PDX va)) ht))
  have hbp : (PGNUM w).toNat < m.npages := h.bound _ (Or.inr (total_pos (target_user hw)))
  have hwalk : SisOp.Jos.pgdirWalk m d va false = .ok (some (t, PTX va), m) := by
    simp only [SisOp.Jos.pgdirWalk, Phys.load, hpde, not_true_eq_false, if_false, PGNUM_PTE_ADDR,
      heq, KADDR_of_lt hbt]
    rfl
  have hload : m.load (t, PTX va) = w := hmem
  refine ⟨t, bind_eq_ok.mpr ⟨_, hwalk, ?_⟩, hload⟩
  have hpage : pa2page m (PGNUM w) = .ok (PGNUM w) := if_neg (by omega)
  simp only [hload, entry_valid hw, not_true_eq_false, if_false, PGNUM_PTE_ADDR, hpage]
  rfl

theorem Ledger.setupVm_total (h : Ledger K dirs held (a :: l) m) : ∃ m', SetupVm m a m' := by
  obtain ⟨m1, halloc⟩ := h.alloc_total true
  obtain ⟨l1, -, -, hfresh, -, -⟩ := h.pageAlloc halloc
  exact ⟨_, m1, halloc, KADDR_of_lt hfresh.bound, rfl⟩

/-- `env_free`'s loops find nothing in an address space without page tables. -/
theorem envFreePdes_bare (is : List Idx) (h : ∀ i ∈ is, ¬ PTE_VALID (m.mem d i)) :
    is.foldlM (fun m i => envFreePde m d i) m = .ok m := by
  induction is with
  | nil => rfl
  | cons i is ih =>
      have hno : m.load (d, i) &&& PTE_P = 0 := by_contra fun hv =>
        h i List.mem_cons_self (PTE_VALID_iff.mpr hv)
      have hone : envFreePde m d i = .ok m := by
        simp only [envFreePde, if_pos hno]
        rfl
      rw [List.foldlM_cons]
      exact bind_eq_ok.mpr ⟨m, hone, ih fun j hj => h j (List.mem_cons_of_mem _ hj)⟩

/-- `env_free` of an address space without page tables. -/
theorem Ledger.freeMem_bare (h : Ledger K dirs [] l m) (hd : dirs e = some d)
    (hbare : ∀ i, tableOf dirs m e i = none) : ∃ m', SisOp.Jos.freeMem m d = .ok m' := by
  have hone : total (target dirs m) [] d = 1 := h.pool.sole (.dir e) d trivial hd
  have hb : d.toNat < m.npages := h.bound d (Or.inr (by rw [uses, hone]; decide))
  have hnotK : ¬ K d := fun hK => by
    have hzero := (h.pool.fixed d hK).2
    omega
  have href : (m.pages d).ppRef = 1 := by
    rw [h.pool.count d hnotK, hone]
    rfl
  have hlink : (m.pages d).ppLink = none := h.pool.off d fun hmem => by
    have hzero := h.pool.free d hmem
    omega
  have hloop := envFreePdes_bare (m := m) (d := d) userPdxs fun i hi hv => by
    have ht := hbare i
    rw [tableOf, if_pos (mem_userPdxs.mp hi), hd, Option.bind_some, if_pos hv] at ht
    cases ht
  have hpage : pa2page m d = .ok d := if_neg (by omega)
  have hzero : (m.pages d).ppRef - 1 = 0 := by
    rw [href]
    decide
  set m1 := m.setRef d 0 with hm1
  have hdec : SisOp.Jos.pageDecref m d =
      .ok { m1.setLink d m1.pageFreeList with pageFreeList := some d } := by
    have hr1 : (m1.pages d).ppRef = 0 := by simp [hm1, Phys.setRef]
    have hl1 : (m1.pages d).ppLink = none := by simp [hm1, Phys.setRef, hlink]
    simp only [SisOp.Jos.pageDecref, hzero, if_true, SisOp.Jos.pageFree, ← hm1, hr1, hl1, ne_eq,
      not_true_eq_false, if_false]
  exact ⟨_, bind_eq_ok.mpr ⟨m, hloop, bind_eq_ok.mpr ⟨d, hpage, hdec⟩⟩⟩

/-- `env_alloc` as long as there is a free slot and a free page. -/
theorem envAlloc_total {k : Kernel} (hlist : k.envFreeList = some e) (hm : SetupVm k.phys a m)
    (parentId : Word) : envAlloc k parentId = .ok (.ok e, k.allocated e parentId a m) := by
  obtain ⟨m1, halloc, hk, rfl⟩ := hm
  set m2 := ((m1.incref a).fill a (m1.mem m1.kernPgdir)).store (a, PDX UVPT)
    (page2pa a ||| PTE_P ||| PTE_U)
  have hvm : envSetupVm k e =
      .ok (0, { k with phys := m2 }.setEnv e fun E => { E with envPgdir := some a }) := by
    refine bind_eq_ok.mpr ⟨_, halloc, ?_⟩
    exact bind_eq_ok.mpr ⟨a, hk, rfl⟩
  have hnneg : ¬ (0 : Int) < 0 := by decide
  simp only [envAlloc, hlist]
  refine bind_eq_ok.mpr ⟨_, hvm, ?_⟩
  simp only [if_neg hnneg]
  simp [Kernel.allocated, Kernel.setEnv, Kernel.log, Env.fresh]
  rfl

end

end SisOp.Jos
