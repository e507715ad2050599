/-
# `SisOp.Memory.Faults` — the page functions fail only for want of a page

With the invariant, `page_alloc`, `page_insert` and `page_remove` never panic, and what
they report is that memory ran out.  Page tables are open to user stores (`TablesOpen`), so
a store through an entry that allows it does not fault.
-/
import SisOp.Memory.Contents
import SisOp.Memory.Total

namespace SisOp.Jos

open SisOp.Lib

/-- The directory entries of page tables allow what the table entries do. -/
def TablesOpen (dirs : Slot → Option Ppn) (m : Phys) : Prop :=
  ∀ e d i, dirs e = some d → UserPdx i → PTE_VALID (m.mem d i) → m.mem d i &&& userWrite = userWrite

section

variable {K : Ppn → Prop} {dirs : Slot → Option Ppn} {held l : List Ppn} {m m' : Phys} {e : Slot} {va w : Word}
  {d p : Ppn} {b : Byte}

/-- Directories that keep their contents. -/
theorem TablesOpen.congr (h : TablesOpen dirs m) (hmem : ∀ e d, dirs e = some d → m'.mem d = m.mem d) :
    TablesOpen dirs m' := fun e d i hd hi hv => by
  rw [hmem e d hd] at hv ⊢
  exact h e d i hd hi hv

theorem pageAlloc_cases (h : Ledger K dirs held l m) (zero : Bool) :
    pageAlloc m zero = .ok (none, m) ∨ ∃ p m', pageAlloc m zero = .ok (some p, m') := by
  cases l with
  | nil =>
      have hnone : m.pageFreeList = none := h.pool.chain.head_eq
      exact .inl (by simp only [pageAlloc, hnone])
  | cons p l =>
      obtain ⟨m', halloc⟩ := h.alloc_total zero
      exact .inr ⟨p, m', halloc⟩

/-- A new page is not a directory. -/
theorem pageAlloc_open {zero : Bool} (h : Ledger K dirs held l m) (hopen : TablesOpen dirs m)
    (halloc : pageAlloc m zero = .ok (some p, m')) : TablesOpen dirs m' := by
  obtain ⟨l', -, -, hfresh, hhanded, -⟩ := h.pageAlloc halloc
  refine hopen.congr fun e d hd => hhanded.mem d fun heq => hfresh.not_isTab ⟨.dir e, trivial, ?_⟩
  exact (congrFun hhanded.targets (.dir e)).trans (heq ▸ hd)

theorem setRef_pages_self (m : Phys) (p : Ppn) (r : BitVec 16) :
    (m.setRef p r).pages p = { m.pages p with ppRef := r } := Function.update_self ..

/-- A page table is not a directory. -/
theorem table_ne_dir {e' : Slot} {i : Idx} {t d' : Ppn} (h : Ledger K dirs held l m)
    (ht : tableOf dirs m e i = some t) (hd : dirs e' = some d') : d' ≠ t := fun heq => by
  have hdir : target dirs m (.dir e') = some t := heq ▸ hd
  have hr : Ref.dir e' = .table e i := h.sole_ref trivial ht hdir
  cases hr

/-- `page_remove` does what it should. -/
theorem pageRemove_total (h : Ledger K dirs held l m) (hopen : TablesOpen dirs m) (hd : dirs e = some d)
    (hi : UserPdx (PDX va)) (hw : entry dirs m e (PDX va) (PTX va) = some w) :
    ∃ m', pageRemove m d va = .ok m' ∧ TablesOpen dirs m' := by
  obtain ⟨t, hlook, -⟩ := h.lookup_total hd hw
  have ht : tableOf dirs m e (PDX va) = some t := by
    rcases pageLookup_cases hd hi hlook with ⟨hnone, -⟩ | ⟨t', w', hsome, ht', -, -⟩
    · cases hnone
    · rw [(Prod.mk.inj (Prod.mk.inj (Option.some.inj hsome)).2).1]
      exact ht'
  have hlink : (m.pages (PGNUM w)).ppLink = none :=
    h.pool.off _ (h.pool.not_free (total_pos (target_user hw)))
  set m1 := m.store (t, PTX va) 0 with hm1
  have hdec : ∃ m', pageDecref m1 (PGNUM w) = .ok m' ∧ m'.mem = m1.mem := by
    unfold pageDecref
    simp only
    split
    · rename_i h0
      have href : ((m1.setRef (PGNUM w) 0).pages (PGNUM w)).ppRef = 0 := by rw [setRef_pages_self]
      have hlink1 : ((m1.setRef (PGNUM w) 0).pages (PGNUM w)).ppLink = none := by
        rw [setRef_pages_self]
        exact hlink
      rw [h0, pageFree, if_neg (not_not.mpr href), if_neg (not_not.mpr hlink1)]
      exact ⟨_, rfl, rfl⟩
    · exact ⟨_, rfl, rfl⟩
  obtain ⟨m', hdec, hmem⟩ := hdec
  refine ⟨m', bind_eq_ok.mpr ⟨_, hlook, hdec⟩, hopen.congr fun e' d' hd' => ?_⟩
  rw [hmem, hm1, store_mem_of_ne' (table_ne_dir h ht hd')]

/-- A new page table gets an open directory entry. -/
theorem pgdirWalk_open {pte : PtePtr} (h : Ledger K dirs held l m) (hopen : TablesOpen dirs m)
    (hwalk : pgdirWalk m d va true = .ok (some pte, m')) : TablesOpen dirs m' := by
  by_cases hv : PTE_VALID (m.mem d (PDX va))
  · rw [(pgdirWalk_present hv hwalk).2]
    exact hopen
  · obtain ⟨t, m1, halloc, -, rfl⟩ := pgdirWalk_created hv hwalk
    have hopen1 := pageAlloc_open h hopen halloc
    intro e' d' i' hd' hi' hv'
    by_cases hat : d' = d ∧ i' = PDX va
    · obtain ⟨rfl, rfl⟩ := hat
      rw [store_mem_self]
      exact mkPte_writes t (by decide)
    · rw [store_mem_of_ne (not_and_or.mp hat)] at hv' ⊢
      exact hopen1 e' d' i' hd' hi' hv'

/-- `page_insert` maps the page, or finds no page for a page table. -/
theorem pageInsert_cases (h : Ledger K dirs held l m) (hopen : TablesOpen dirs m) (hd : dirs e = some d)
    (hi : UserPdx (PDX va)) (hl : p ∉ l) (hK : ¬ K p) (htab : ¬ IsTab dirs m p) (hb : p.toNat < m.npages)
    (perm : Word) : pageInsert m d p va perm = .ok (-E_NO_MEM, m) ∧ l = [] ∨
      ∃ m', pageInsert m d p va perm = .ok (0, m') ∧ TablesOpen dirs m' := by
  by_cases hroom : tableOf dirs m e (PDX va) = none ∧ l = []
  · obtain ⟨hnone, rfl⟩ := hroom
    have hv : ¬ PTE_VALID (m.load (d, PDX va)) := fun hv => by
      rw [tableOf, if_pos hi, hd, Option.bind_some, if_pos (show PTE_VALID (m.mem d (PDX va)) from hv)] at hnone
      cases hnone
    have halloc : pageAlloc m true = .ok (none, m) := by
      rcases pageAlloc_cases h true with halloc | ⟨p, m', halloc⟩
      · exact halloc
      · obtain ⟨t, heq, -⟩ := h.pageAlloc halloc
        cases heq
    have hwalk : pgdirWalk m d va true = .ok (none, m) := by
      simp only [pgdirWalk, hv, not_false_eq_true, if_true, not_true_eq_false, if_false]
      exact bind_eq_ok.mpr ⟨_, halloc, rfl⟩
    exact .inl ⟨bind_eq_ok.mpr ⟨_, hwalk, rfl⟩, rfl⟩
  · obtain ⟨t, m1, hwalk⟩ := h.walk_total hd hi fun hnone hl => hroom ⟨hnone, hl⟩
    obtain ⟨l1, hs, t', heq, hnew, hw⟩ := h.pgdirWalk hd hi hwalk
    cases heq
    refine .inr ?_
    have hopen1 : TablesOpen dirs m1 := pgdirWalk_open h hopen hwalk
    have htab1 : ¬ IsTab dirs m1 p := fun h1 => (hw.touches.tabs p h1).elim (hnew.notMem hl).1 htab
    have h1 := hw.ledger.incref (hnew.notMem hl).2 hK htab1 (hw.touches.npages ▸ hb)
    by_cases hv : PTE_VALID ((m1.incref p).load (t, PTX va))
    · have hsome : entry dirs (m1.incref p) e (PDX va) (PTX va) = some (m1.mem t (PTX va)) := by
        have hv' : PTE_VALID (m1.mem t (PTX va)) := hv
        exact (entry_of_table hw.table).trans (if_pos hv')
      obtain ⟨m2, hrem, hopen2⟩ := pageRemove_total h1 (hopen1.congr fun _ _ _ => rfl) hd hi hsome
      refine ⟨m2.store (t, PTX va) (page2pa p ||| perm ||| PTE_P), ?_, hopen2.congr fun e' d' hd' =>
        store_mem_of_ne' (table_ne_dir hw.ledger hw.table hd')⟩
      refine bind_eq_ok.mpr ⟨_, hwalk, ?_⟩
      simp only [if_pos hv]
      exact bind_eq_ok.mpr ⟨_, hrem, rfl⟩
    · refine ⟨(m1.incref p).store (t, PTX va) (page2pa p ||| perm ||| PTE_P), ?_, hopen1.congr fun e' d' hd' =>
        store_mem_of_ne' (table_ne_dir hw.ledger hw.table hd')⟩
      refine bind_eq_ok.mpr ⟨_, hwalk, ?_⟩
      simp only [if_neg hv]
      rfl

/-! ## Stores -/

/-- A page that is mapped writable can be written to. -/
theorem storeByte_total {flags : Word} (h : Ledger K dirs [] l m) (hopen : TablesOpen dirs m) (hd : dirs e = some d)
    (hflags : ∀ w : Word, w &&& userWrite = userWrite → w &&& flags = flags) (hsolo : Solo dirs m e va) :
    ∃ m', storeByte m d va flags b = some m' ∧ TablesOpen dirs m' := by
  obtain ⟨w, hw, -, hwrite⟩ := hsolo
  obtain ⟨t, ht, -, rfl⟩ := entry_some.mp hw
  obtain ⟨hi, d', hd', hv, rfl⟩ := tableOf_some.mp ht
  obtain rfl : d = d' := Option.some.inj (hd.symm.trans hd')
  have htrans : translate m d va flags =
      some (PGNUM (m.mem (PGNUM (m.mem d (PDX va))) (PTX va)), wordIdx va) :=
    if_pos ⟨hflags _ (hopen e d _ hd hi hv), hflags _ hwrite⟩
  refine ⟨_, by rw [storeByte, htrans]; rfl, hopen.congr fun e' d' hd' => store_mem_of_ne' fun heq => ?_⟩
  exact h.not_isTab_of_user (target_user hw) ⟨.dir e', trivial, hd'.trans (congrArg some heq)⟩

theorem storeBytes_total {flags : Word} (hd : dirs e = some d) (hf : flags &&& PTE_P = PTE_P)
    (hflags : ∀ w : Word, w &&& userWrite = userWrite → w &&& flags = flags) (bs : List Byte) :
    ∀ {m : Phys} {va : Word}, Ledger K dirs [] l m → TablesOpen dirs m → va.toNat + bs.length ≤ UTOP.toNat →
      (∀ a, Among va bs.length a → Solo dirs m e a) →
      ∃ m', storeBytes m d flags va bs = some m' ∧ TablesOpen dirs m' := by
  induction bs with
  | nil =>
      intro m va _ hopen _ _
      exact ⟨m, rfl, hopen⟩
  | cons b bs ih =>
      intro m va h hopen hle hsolo
      rw [List.length_cons, UTOP_toNat] at hle
      have hi : UserPdx (PDX va) := by
        rw [userPdx_iff, BitVec.lt_def, UTOP_toNat]
        omega
      have hself : Among va (b :: bs).length va := ⟨le_rfl, by simp⟩
      obtain ⟨m1, hstore, hopen1⟩ := storeByte_total (b := b) h hopen hd hflags (hsolo va hself)
      obtain ⟨hpoked, -, -, hkept⟩ := h.storeByte_keeps hd hf hi (hsolo va hself) hstore
      have hnext : (va + 1).toNat = va.toNat + 1 := by
        rw [BitVec.toNat_add]
        exact Nat.mod_eq_of_lt (by simp; omega)
      obtain ⟨m2, hstores, hopen2⟩ := ih hpoked.ledger hopen1 (by rw [hnext, UTOP_toNat]; omega) fun a ha =>
        hkept e a (hsolo a (by
          unfold Among at *
          rw [List.length_cons]
          omega))
      exact ⟨m2, by rw [storeBytes, hstore, Option.bind_some, hstores], hopen2⟩

end

end SisOp.Jos
