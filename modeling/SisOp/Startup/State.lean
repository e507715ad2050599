/-
# `SisOp.Startup.State` — memory while `mem_init` runs

`Booting S held l m`: `S` are the pages `page_init` put on the free list, `l` is
what is on it now, `held` are pages a test has taken and will give back.  Every
page of `S` is in one of the two or has become a page table of `kern_pgdir`
(`kept`); there are at most 69 of those (`Booting.length`), and that is why the
static mappings never run out of memory.

The page tables of `kern_pgdir` are read through `kpte`, by virtual page number.
-/
import SisOp.Startup.Sort
import SisOp.Memory.Ops

namespace SisOp.Jos

open SisOp.Lib

/-! ## Virtual page numbers -/

section

variable {v p : Ppn} {perm : Word}

theorem page2pa_succ (v : Ppn) : page2pa v + PGSIZE = page2pa (v + 1) := by
  have hlt := v.isLt
  refine BitVec.eq_of_toNat_eq ?_
  rw [BitVec.toNat_add, page2pa_toNat, page2pa_toNat, PGSIZE_toNat, BitVec.toNat_add,
    show (1 : Ppn).toNat = 1 from rfl]
  omega

theorem PDX_page2pa (v : Ppn) : (PDX (page2pa v)).val = v.toNat / 1024 := by
  rw [PDX_val, page2pa_toNat]
  omega

theorem PTX_page2pa (v : Ppn) : (PTX (page2pa v)).val = v.toNat % 1024 := by
  rw [PTX_val, page2pa_toNat]
  omega

theorem eq_of_indices {v v' : Ppn} (hd : PDX (page2pa v) = PDX (page2pa v'))
    (ht : PTX (page2pa v) = PTX (page2pa v')) : v = v' := by
  have h1 := congrArg Fin.val hd
  have h2 := congrArg Fin.val ht
  rw [PDX_page2pa, PDX_page2pa] at h1
  rw [PTX_page2pa, PTX_page2pa] at h2
  refine BitVec.eq_of_toNat_eq ?_
  omega

theorem page2pa_and_low {flag : Word} (p : Ppn) (hf : PGNUM flag = 0) : page2pa p &&& flag = 0 := by
  refine BitVec.eq_of_getLsbD_eq fun i hi => ?_
  rw [BitVec.getLsbD_and, page2pa, BitVec.getLsbD_shiftLeft]
  by_cases hlow : i < 12
  · simp [hlow]
  · have hbit : flag.getLsbD i = false := by
      have hpg := congrArg (BitVec.getLsbD · (i - 12)) hf
      have hidx : 12 + (i - 12) = i := by omega
      have hlt : i - 12 < 20 := by omega
      simp only [PGNUM, BitVec.getLsbD_extractLsb', hidx, hlt, decide_true, Bool.true_and] at hpg
      exact hpg.trans BitVec.getLsbD_zero
    rw [hbit, Bool.and_false]
    exact BitVec.getLsbD_zero.symm

/-- The flags of an entry are those it was made with. -/
theorem mkPte_and {flag : Word} (p : Ppn) (perm : Word) (hf : PGNUM flag = 0) :
    mkPte p perm &&& flag = (perm ||| PTE_P) &&& flag := by
  rw [mkPte, BitVec.or_assoc, BitVec.and_comm, BitVec.and_or_distrib_left, BitVec.and_comm,
    page2pa_and_low p hf, BitVec.and_comm flag]
  exact BitVec.zero_or

/-- A static mapping is not writable in user mode unless its `perm` says so. -/
theorem mkPte_userWrite (p : Ppn) (hperm : (perm ||| PTE_P) &&& userWrite ≠ userWrite) :
    mkPte p perm &&& userWrite ≠ userWrite := by
  rw [mkPte_and p perm (by decide)]
  exact hperm

end

/-! ## The kernel's page tables -/

/-- The page table of `kern_pgdir` at index `i`; the entry at `UVPT` is the directory itself. -/
def kernTable (m : Phys) (i : Idx) : Option Ppn :=
  if i ≠ PDX UVPT ∧ PTE_VALID (m.mem m.kernPgdir i) then some (PGNUM (m.mem m.kernPgdir i)) else none

/-- The entry that maps the virtual page `v` in `kern_pgdir`. -/
def kpte (m : Phys) (v : Ppn) : Option Word :=
  (kernTable m (PDX (page2pa v))).bind fun t =>
    if PTE_VALID (m.mem t (PTX (page2pa v))) then some (m.mem t (PTX (page2pa v))) else none

structure Booting (S held l : List Ppn) (m : Phys) : Prop where
  chain : Chain m.link m.pageFreeList l
  off : ∀ p, p ∉ l → m.link p = none
  nodup : (held ++ l).Nodup
  unref : ∀ p ∈ held ++ l, (m.pages p).ppRef = 0
  bound : ∀ p ∈ held ++ l, p.toNat < m.npages
  sub : ∀ p ∈ held ++ l, p ∈ S
  kern : m.kernPgdir ∉ held ++ l
  self : m.mem m.kernPgdir (PDX UVPT) = page2pa m.kernPgdir ||| PTE_U ||| PTE_P
  blank : ∀ i, UserPdx i → ¬ PTE_VALID (m.mem m.kernPgdir i)
  table : ∀ i t, kernTable m i = some t →
    t ∉ held ++ l ∧ t ≠ m.kernPgdir ∧ t.toNat < m.npages ∧ ∀ j, m.mem t j &&& userWrite ≠ userWrite
  writable : ∀ i t, kernTable m i = some t → Writable (m.mem m.kernPgdir i)
  inj : ∀ i i' t, kernTable m i = some t → kernTable m i' = some t → i = i'
  kept : ∀ p ∈ S, p ∈ held ++ l ∨ ∃ i, kernTable m i = some p

section

variable {S held held' l : List Ppn} {m m' : Phys} {a p t v : Ppn} {i j : Idx} {w : Word}

theorem kernTable_some : kernTable m i = some t ↔
    i ≠ PDX UVPT ∧ PTE_VALID (m.mem m.kernPgdir i) ∧ PGNUM (m.mem m.kernPgdir i) = t := by
  rw [kernTable]
  split
  · rename_i h
    simp [h]
  · rename_i h
    constructor
    · intro hnone
      cases hnone
    · rintro ⟨h1, h2, -⟩
      exact absurd ⟨h1, h2⟩ h

theorem kernTable_congr (hk : m'.kernPgdir = m.kernPgdir)
    (hmem : m'.mem m.kernPgdir = m.mem m.kernPgdir) : kernTable m' = kernTable m := by
  funext i
  rw [kernTable, kernTable, hk, hmem]

theorem kpte_congr (htab : kernTable m' = kernTable m)
    (hmem : ∀ i t, kernTable m i = some t → m'.mem t = m.mem t) : kpte m' = kpte m := by
  funext v
  rw [kpte, kpte, htab]
  cases ht : kernTable m (PDX (page2pa v)) with
  | none => rfl
  | some t => simp only [Option.bind_some, hmem _ t ht]

namespace Booting

/-- The page tables of `kern_pgdir`: there are at most 69. -/
theorem tables (h : Booting S held l m) : ∃ ts : List Ppn, ts.length ≤ 69 ∧
    ∀ i t, kernTable m i = some t → t ∈ ts := by
  refine ⟨(List.range' 955 69).filterMap fun n => kernTable m (Fin.ofNat 1024 n), ?_,
    fun i t hi => List.mem_filterMap.mpr ⟨i.val, ?_, ?_⟩⟩
  · have hle := List.length_filterMap_le (fun n => kernTable m (Fin.ofNat 1024 n)) (List.range' 955 69)
    rwa [List.length_range'] at hle
  · have huser : ¬ UserPdx i := fun hu => h.blank i hu (kernTable_some.mp hi).2.1
    have hlt := i.isLt
    rw [UserPdx] at huser
    rw [List.mem_range'_1]
    omega
  · rw [show Fin.ofNat 1024 i.val = i from Fin.ext (Nat.mod_eq_of_lt i.isLt)]
    exact hi

/-- All but 69 pages of `S` are still there. -/
theorem length (h : Booting S held l m) (hS : S.Nodup) :
    S.length ≤ held.length + l.length + 69 := by
  obtain ⟨ts, hts, hmem⟩ := h.tables
  have hsub : S ⊆ held ++ l ++ ts := fun p hp => by
    rcases h.kept p hp with hp | ⟨i, hi⟩
    · exact List.mem_append_left _ hp
    · exact List.mem_append_right _ (hmem i p hi)
  have hle := (hS.subperm hsub).length_le
  simp only [List.length_append] at hle
  omega

/-- Among 70 pages of `S` one is free. -/
theorem exists_free (h : Booting S [] l m) {T : List Ppn} (hT : T.Nodup) (hsub : ∀ p ∈ T, p ∈ S)
    (hlen : 69 < T.length) : ∃ p ∈ T, p ∈ l := by
  by_contra hnone
  obtain ⟨ts, hts, hmem⟩ := h.tables
  have htab : T ⊆ ts := fun p hp => by
    rcases h.kept p (hsub p hp) with hl | ⟨i, hi⟩
    · exact absurd ⟨p, hp, hl⟩ hnone
    · exact hmem i p hi
  have hle := (hT.subperm htab).length_le
  omega

theorem perm (h : Booting S held l m) (hp : held.Perm held') : Booting S held' l m := by
  have hmem : ∀ p, p ∈ held' ++ l ↔ p ∈ held ++ l := fun p => (hp.append_right l).mem_iff.symm
  exact
    { h with
      nodup := (hp.append_right l).nodup_iff.mp h.nodup
      unref := fun p hp => h.unref p ((hmem p).mp hp)
      bound := fun p hp => h.bound p ((hmem p).mp hp)
      sub := fun p hp => h.sub p ((hmem p).mp hp)
      kern := fun hk => h.kern ((hmem _).mp hk)
      table := fun i t ht => by
        obtain ⟨h1, h2⟩ := h.table i t ht
        exact ⟨fun hmem' => h1 ((hmem t).mp hmem'), h2⟩
      kept := fun p hp => (h.kept p hp).imp_left (hmem p).mpr }

/-- Pages that are free or held may be written. -/
theorem write (h : Booting S held l m) (hmem : ∀ q, q ∉ held ++ l → m'.mem q = m.mem q)
    (hpages : m'.pages = m.pages) (hlist : m'.pageFreeList = m.pageFreeList)
    (hn : m'.npages = m.npages) (hk : m'.kernPgdir = m.kernPgdir) :
    Booting S held l m' ∧ kpte m' = kpte m := by
  have hlink : m'.link = m.link := by
    funext q
    rw [Phys.link, Phys.link, hpages]
  have htab : kernTable m' = kernTable m := kernTable_congr hk (hmem _ h.kern)
  refine ⟨?_, kpte_congr htab fun i t ht => hmem t (h.table i t ht).1⟩
  exact
    { chain := by
        rw [hlink, hlist]
        exact h.chain
      off := by
        rw [hlink]
        exact h.off
      nodup := h.nodup
      unref := by
        rw [hpages]
        exact h.unref
      bound := by
        rw [hn]
        exact h.bound
      sub := h.sub
      kern := by
        rw [hk]
        exact h.kern
      self := by
        rw [hk, hmem _ h.kern]
        exact h.self
      blank := by
        rw [hk, hmem _ h.kern]
        exact h.blank
      table := fun i t ht => by
        rw [htab] at ht
        rw [hk, hn, hmem t (h.table i t ht).1]
        exact h.table i t ht
      writable := fun i t ht => by
        rw [htab] at ht
        rw [hk, hmem _ h.kern]
        exact h.writable i t ht
      inj := by
        rw [htab]
        exact h.inj
      kept := by
        rw [htab]
        exact h.kept }

theorem fill (h : Booting S held l m) (ha : a ∈ held ++ l) (ws : Idx → Word) :
    Booting S held l (m.fill a ws) ∧ kpte (m.fill a ws) = kpte m :=
  h.write (fun q hq => by
    have hne : q ≠ a := fun heq => hq (heq ▸ ha)
    rw [fill_mem, Function.update_of_ne hne]) rfl rfl rfl rfl

/-! ## Taking a page and giving it back -/

/-- `page_alloc` succeeds as long as the list is not empty. -/
theorem alloc (h : Booting S held (a :: l) m) (zero : Bool) :
    ∃ m', pageAlloc m zero = .ok (some a, m') ∧ Booting S (a :: held) l m' ∧ kpte m' = kpte m ∧
      m'.npages = m.npages ∧ m'.kernPgdir = m.kernPgdir ∧ kernTable m' = kernTable m ∧
      (∀ q, q ≠ a → m'.mem q = m.mem q) ∧ (zero = true → m'.mem a = fun _ => 0) := by
  have hhead : m.pageFreeList = some a := h.chain.head_eq
  have hal : a ∉ l := (List.nodup_cons.mp h.chain.nodup).1
  have hmoved : (held ++ a :: l).Perm (a :: held ++ l) := List.perm_middle
  set m1 : Phys := { m with pageFreeList := (m.pages a).ppLink, handed := a :: m.handed }.setLink a
    none with hm1
  have hlink : m1.link = Function.update m.link a none := link_setLink _ a none
  have hmem1 : ∀ q, q ∈ a :: held ++ l ↔ q ∈ held ++ a :: l := fun q => hmoved.mem_iff.symm
  have h1 : Booting S (a :: held) l m1 :=
    { chain := by
        rw [hlink]
        exact h.chain.tail.update hal
      off := fun q hq => by
        rw [hlink]
        rcases eq_or_ne q a with rfl | hne
        · exact Function.update_self ..
        · rw [Function.update_of_ne hne]
          exact h.off q (by simp [hne, hq])
      nodup := hmoved.nodup_iff.mp h.nodup
      unref := fun q hq => by
        have hsame : (m1.pages q).ppRef = (m.pages q).ppRef :=
          congrFun (setLink_ppRef { m with pageFreeList := (m.pages a).ppLink, handed := a :: m.handed } a none) q
        rw [hsame]
        exact h.unref q ((hmem1 q).mp hq)
      bound := fun q hq => h.bound q ((hmem1 q).mp hq)
      sub := fun q hq => h.sub q ((hmem1 q).mp hq)
      kern := fun hk => h.kern ((hmem1 _).mp hk)
      self := h.self
      blank := h.blank
      table := fun i t ht => by
        obtain ⟨h1, h2⟩ := h.table i t ht
        exact ⟨fun hq => h1 ((hmem1 t).mp hq), h2⟩
      writable := h.writable
      inj := h.inj
      kept := fun q hq => (h.kept q hq).imp_left (hmem1 q).mpr }
  have hkaddr : KADDR m1 a = .ok a := by
    have hb : a.toNat < m.npages := h.bound a (by simp)
    exact if_neg (by show ¬ m.npages ≤ a.toNat; omega)
  cases zero with
  | false =>
      refine ⟨m1, ?_, h1, rfl, rfl, rfl, rfl, fun _ _ => rfl, nofun⟩
      simp only [pageAlloc, hhead]
      rfl
  | true =>
      obtain ⟨h2, hk2⟩ := h1.fill (a := a) (by simp) fun _ => 0
      refine ⟨m1.fill a fun _ => 0, ?_, h2, hk2, rfl, rfl, ?_, fun q hq => ?_, fun _ => ?_⟩
      · simp only [pageAlloc, hhead, if_true, ← hm1]
        rw [hkaddr]
        rfl
      · refine kernTable_congr (m := m) rfl ?_
        have hne : m.kernPgdir ≠ a := fun heq => h.kern (heq ▸ by simp)
        rw [fill_mem, Function.update_of_ne hne]
        rfl
      · rw [fill_mem, Function.update_of_ne hq]
        rfl
      · rw [fill_mem, Function.update_self]

/-- `page_free` of a held page. -/
theorem free (h : Booting S (a :: held) l m) :
    ∃ m', pageFree m a = .ok m' ∧ Booting S held (a :: l) m' ∧ kpte m' = kpte m ∧
      m'.npages = m.npages ∧ m'.kernPgdir = m.kernPgdir := by
  have hnodup : (a :: (held ++ l)).Nodup := h.nodup
  obtain ⟨ha, -⟩ := List.nodup_cons.mp hnodup
  have hal : a ∉ l := fun hmem => ha (List.mem_append_right _ hmem)
  have hmoved : (a :: held ++ l).Perm (held ++ a :: l) := List.perm_middle.symm
  have hmem1 : ∀ q, q ∈ held ++ a :: l ↔ q ∈ a :: held ++ l := fun q => hmoved.mem_iff.symm
  have hlink : (m.setLink a m.pageFreeList).link = Function.update m.link a m.pageFreeList :=
    link_setLink m a _
  refine ⟨{ m.setLink a m.pageFreeList with pageFreeList := some a }, ?_, ?_, rfl, rfl, rfl⟩
  · have hlinka : (m.pages a).ppLink = none := h.off a hal
    simp [pageFree, h.unref a (by simp), hlinka]
  · exact
      { chain := by
          show Chain (m.setLink a m.pageFreeList).link (some a) (a :: l)
          rw [hlink]
          exact h.chain.push hal
        off := fun q hq => by
          have hne : q ≠ a := fun heq => hq (heq ▸ List.mem_cons_self)
          show (m.setLink a m.pageFreeList).link q = none
          rw [hlink, Function.update_of_ne hne]
          exact h.off q fun hmem => hq (List.mem_cons_of_mem _ hmem)
        nodup := hmoved.nodup_iff.mp h.nodup
        unref := fun q hq => by
          have hsame := congrFun (setLink_ppRef m a m.pageFreeList) q
          exact hsame.trans (h.unref q ((hmem1 q).mp hq))
        bound := fun q hq => h.bound q ((hmem1 q).mp hq)
        sub := fun q hq => h.sub q ((hmem1 q).mp hq)
        kern := fun hk => h.kern ((hmem1 _).mp hk)
        self := h.self
        blank := h.blank
        table := fun i t ht => by
          obtain ⟨h1, h2⟩ := h.table i t ht
          exact ⟨fun hq => h1 ((hmem1 t).mp hq), h2⟩
        writable := h.writable
        inj := h.inj
        kept := fun q hq => (h.kept q hq).imp_left (hmem1 q).mpr }

/-! ## Mapping a page -/

/-- A cleared page becomes the page table at index `i`. -/
theorem setTable (h : Booting S [t] l m) (hi : ¬ UserPdx i) (hu : i ≠ PDX UVPT)
    (hnone : kernTable m i = none) (hzero : m.mem t = fun _ => 0) :
    Booting S [] l ((m.incref t).store (m.kernPgdir, i) (mkPte t (PTE_W ||| PTE_U))) ∧
      kpte ((m.incref t).store (m.kernPgdir, i) (mkPte t (PTE_W ||| PTE_U))) = kpte m ∧
      kernTable ((m.incref t).store (m.kernPgdir, i) (mkPte t (PTE_W ||| PTE_U))) =
        Function.update (kernTable m) i (some t) := by
  set m1 := (m.incref t).store (m.kernPgdir, i) (mkPte t (PTE_W ||| PTE_U)) with hm1
  have hkt : m.kernPgdir ≠ t := fun heq => h.kern (heq ▸ by simp)
  have htl : t ∉ l := (List.nodup_cons.mp h.nodup).1
  have hmem : ∀ q, q ≠ m.kernPgdir → m1.mem q = m.mem q := fun q hq => by
    rw [hm1, store_mem_of_ne' hq, incref_mem]
  have hword : ∀ i', i' ≠ i → m1.mem m.kernPgdir i' = m.mem m.kernPgdir i' := fun i' hne => by
    rw [hm1, store_mem_of_ne (Or.inr hne), incref_mem]
  have htab : kernTable m1 = Function.update (kernTable m) i (some t) := by
    funext i'
    rcases eq_or_ne i' i with rfl | hne
    · rw [Function.update_self, kernTable_some]
      have hself : m1.mem m1.kernPgdir i' = mkPte t (PTE_W ||| PTE_U) := store_mem_self ..
      rw [hself]
      exact ⟨hu, PTE_VALID_mkPte t _, PGNUM_mkPte t (by decide)⟩
    · rw [Function.update_of_ne hne, kernTable, kernTable,
        show m1.kernPgdir = m.kernPgdir from rfl, hword i' hne]
  have hold : ∀ i' t', kernTable m1 i' = some t' → t' ≠ t → kernTable m i' = some t' :=
    fun i' t' ht' hne => by
      rw [htab] at ht'
      rcases eq_or_ne i' i with rfl | hne'
      · rw [Function.update_self] at ht'
        exact absurd (Option.some.inj ht').symm hne
      · rwa [Function.update_of_ne hne'] at ht'
  refine ⟨?_, ?_, htab⟩
  · exact
      { chain := by
          have hlink : m1.link = m.link := setRef_ppLink m t _
          rw [hlink]
          exact h.chain
        off := by
          have hlink : m1.link = m.link := setRef_ppLink m t _
          rw [hlink]
          exact h.off
        nodup := (List.nodup_cons.mp h.nodup).2
        unref := fun p hp => by
          have hne : p ≠ t := fun heq => htl (heq ▸ hp)
          have href := congrFun (setRef_ppRef m t ((m.pages t).ppRef + 1)) p
          rw [Function.update_of_ne hne] at href
          exact href.trans (h.unref p (List.mem_cons_of_mem _ hp))
        bound := fun p hp => h.bound p (List.mem_cons_of_mem _ hp)
        sub := fun p hp => h.sub p (List.mem_cons_of_mem _ hp)
        kern := fun hp => h.kern (List.mem_cons_of_mem _ hp)
        self := by
          rw [show m1.kernPgdir = m.kernPgdir from rfl, hword _ hu.symm]
          exact h.self
        blank := fun i' hi' => by
          have hne : i' ≠ i := fun heq => hi (heq ▸ hi')
          rw [show m1.kernPgdir = m.kernPgdir from rfl, hword i' hne]
          exact h.blank i' hi'
        table := fun i' t' ht' => by
          rcases eq_or_ne t' t with rfl | hne
          · refine ⟨htl, hkt.symm, h.bound t' (by simp), fun j => ?_⟩
            rw [hmem t' hkt.symm, hzero]
            show (0 : Word) &&& userWrite ≠ userWrite
            decide
          · obtain ⟨h1, h2, h3, h4⟩ := h.table i' t' (hold i' t' ht' hne)
            refine ⟨fun hp => h1 (List.mem_cons_of_mem _ hp), h2, h3, fun j => ?_⟩
            rw [hmem t' h2]
            exact h4 j
        writable := fun i' t' ht' => by
          rcases eq_or_ne i' i with rfl | hne
          · rw [show m1.kernPgdir = m.kernPgdir from rfl, hm1, store_mem_self, writable_mkPte]
            decide
          · rw [htab, Function.update_of_ne hne] at ht'
            rw [show m1.kernPgdir = m.kernPgdir from rfl, hword i' hne]
            exact h.writable i' t' ht'
        inj := fun i1 i2 t' h1 h2 => by
          have hfresh : ∀ i', kernTable m i' ≠ some t := fun i' hsome =>
            (h.table i' t hsome).1 (by simp)
          rw [htab] at h1 h2
          rcases eq_or_ne i1 i with rfl | hne1
          · rcases eq_or_ne i2 i1 with rfl | hne2
            · rfl
            · rw [Function.update_self] at h1
              rw [Function.update_of_ne hne2] at h2
              cases h1
              exact absurd h2 (hfresh i2)
          · rw [Function.update_of_ne hne1] at h1
            rcases eq_or_ne i2 i with rfl | hne2
            · rw [Function.update_self] at h2
              cases h2
              exact absurd h1 (hfresh i1)
            · rw [Function.update_of_ne hne2] at h2
              exact h.inj i1 i2 t' h1 h2
        kept := fun p hp => by
          rcases h.kept p hp with hp | ⟨i', hi'⟩
          · rcases List.mem_cons.mp hp with rfl | hp
            · exact Or.inr ⟨i, by rw [htab, Function.update_self]⟩
            · exact Or.inl hp
          · have hne : i' ≠ i := fun heq => by
              rw [heq, hnone] at hi'
              cases hi'
            exact Or.inr ⟨i', by rw [htab, Function.update_of_ne hne]; exact hi'⟩ }
  · funext v
    rw [kpte, kpte, htab]
    by_cases hv : PDX (page2pa v) = i
    · rw [hv, Function.update_self, hnone]
      simp only [Option.bind_some, Option.bind_none]
      rw [hmem t hkt.symm, hzero, if_neg not_PTE_VALID_zero]
    · rw [Function.update_of_ne hv]
      cases ht : kernTable m (PDX (page2pa v)) with
      | none => rfl
      | some t' => simp only [Option.bind_some, hmem t' (h.table _ t' ht).2.1]

/-- A store to a page table of the kernel. -/
theorem setPte (h : Booting S held l m) (ht : kernTable m (PDX (page2pa v)) = some t)
    (hw : w &&& userWrite ≠ userWrite) :
    Booting S held l (m.store (t, PTX (page2pa v)) w) ∧
      kpte (m.store (t, PTX (page2pa v)) w) =
        Function.update (kpte m) v (if PTE_VALID w then some w else none) ∧
      kernTable (m.store (t, PTX (page2pa v)) w) = kernTable m := by
  obtain ⟨hout, hkt, -, -⟩ := h.table _ t ht
  have hmem : ∀ q, q ≠ t → (m.store (t, PTX (page2pa v)) w).mem q = m.mem q := fun q hq =>
    store_mem_of_ne' hq
  have htab : kernTable (m.store (t, PTX (page2pa v)) w) = kernTable m :=
    kernTable_congr rfl (hmem _ hkt.symm)
  refine ⟨?_, ?_, htab⟩
  · exact
      { h with
        self := by
          rw [show (m.store (t, PTX (page2pa v)) w).kernPgdir = m.kernPgdir from rfl,
            hmem _ hkt.symm]
          exact h.self
        blank := by
          rw [show (m.store (t, PTX (page2pa v)) w).kernPgdir = m.kernPgdir from rfl,
            hmem _ hkt.symm]
          exact h.blank
        table := fun i t' ht' => by
          rw [htab] at ht'
          obtain ⟨h1, h2, h3, h4⟩ := h.table i t' ht'
          refine ⟨h1, h2, h3, fun j => ?_⟩
          by_cases hj : t' = t ∧ j = PTX (page2pa v)
          · rw [hj.1, hj.2, store_mem_self]
            exact hw
          · rw [store_mem_of_ne (not_and_or.mp hj)]
            exact h4 j
        writable := fun i t' ht' => by
          rw [htab] at ht'
          rw [show (m.store (t, PTX (page2pa v)) w).kernPgdir = m.kernPgdir from rfl, hmem _ hkt.symm]
          exact h.writable i t' ht'
        inj := by
          rw [htab]
          exact h.inj
        kept := by
          rw [htab]
          exact h.kept }
  · funext v'
    rw [kpte, htab]
    rcases eq_or_ne v' v with rfl | hne
    · rw [Function.update_self, ht, Option.bind_some, store_mem_self]
    · rw [Function.update_of_ne hne, kpte]
      cases ht' : kernTable m (PDX (page2pa v')) with
      | none => rfl
      | some t' =>
          simp only [Option.bind_some]
          rw [store_mem_of_ne]
          by_cases htt : t' = t
          · subst htt
            exact Or.inr fun hj => hne (eq_of_indices (h.inj _ _ t' ht' ht) hj)
          · exact Or.inl htt

end Booting

end

end SisOp.Jos
