/-
# `SisOp.Startup.FreeList` — what `page_init` makes and what is checked of it

`page_init` chains the pages that `incluir_en_paginas_libres` lets through; the
first `check_page_free_list` sorts and scribbles over them.  Whether a check
passes depends on the pages of the list alone (`FreeOk`).
-/
import SisOp.Startup.Mapping

namespace SisOp.Jos

open SisOp.Lib

section

variable {S held l l' : List Ppn} {m m' : Phys} {a p t v : Ppn} {nf : Word} {low : Bool}

/-! ## The check -/

/-- What `check_page_free_list` asserts of the pages of the list. -/
structure FreeOk (l : List Ppn) (m : Phys) (nf : Word) : Prop where
  each : ∀ p ∈ l, freePageOk m nf p = true
  basemem : ∃ p ∈ l, page2pa p < EXTPHYSMEM
  extmem : ∃ p ∈ l, EXTPHYSMEM ≤ page2pa p

theorem FreeOk.perm (h : FreeOk l m nf) (hp : l.Perm l') (hn : m'.npages = m.npages) :
    FreeOk l' m' nf where
  each := fun p hp' => by
    have hok := h.each p (hp.mem_iff.mpr hp')
    unfold freePageOk at hok ⊢
    rw [hn]
    exact hok
  basemem := by
    obtain ⟨p, hp', hlt⟩ := h.basemem
    exact ⟨p, hp.mem_iff.mp hp', hlt⟩
  extmem := by
    obtain ⟨p, hp', hle⟩ := h.extmem
    exact ⟨p, hp.mem_iff.mp hp', hle⟩

theorem freeCells_chain {h : Option Ppn} (hc : Chain m.link h l) :
    ∀ {fuel : Nat}, l.length ≤ fuel → freeCells m fuel h = l := by
  induction hc with
  | nil => intro fuel _; cases fuel <;> rfl
  | @cons a l _ ih =>
      intro fuel hle
      obtain ⟨fuel, rfl⟩ : ∃ n, fuel = n + 1 := ⟨fuel - 1, by simp at hle; omega⟩
      have hrest : freeCells m fuel (m.pages a).ppLink = l := ih (by simpa using hle)
      rw [freeCells, hrest]

theorem Booting.length_le (h : Booting S held l m) : l.length ≤ m.npages := by
  have hnodup : (l.map BitVec.toNat).Nodup :=
    (List.Nodup.of_append_right h.nodup).map (fun _ _ => BitVec.eq_of_toNat_eq)
  have hsub : l.map BitVec.toNat ⊆ List.range m.npages := fun n hn => by
    obtain ⟨p, hp, rfl⟩ := List.mem_map.mp hn
    exact List.mem_range.mpr (h.bound p (List.mem_append_right _ hp))
  have hle := (hnodup.subperm hsub).length_le
  simpa using hle

/-- Another order of the same list. -/
theorem Booting.relinked (h : Booting S [] l m) (hp : l.Perm l') (hc : Chain m'.link m'.pageFreeList l')
    (hre : Relinked m { m' with pageFreeList := m.pageFreeList } l) :
    Booting S [] l' m' ∧ kpte m' = kpte m := by
  obtain ⟨pages, hpages⟩ := hre.same
  simp only [Phys.mk.injEq] at hpages
  obtain ⟨hn, hk, -, -, hmem', -⟩ := hpages
  have htab : kernTable m' = kernTable m := kernTable_congr hk (by rw [hmem'])
  have hin : ∀ p, p ∈ l' ↔ p ∈ l := fun p => hp.mem_iff.symm
  refine ⟨?_, kpte_congr htab fun _ _ _ => by rw [hmem']⟩
  exact
    { chain := hc
      off := fun p hp' => by
        have hpl : p ∉ l := fun hmem => hp' ((hin p).mpr hmem)
        exact (hre.link p hpl).trans (h.off p hpl)
      nodup := hp.nodup_iff.mp h.nodup
      unref := fun p hp' => (hre.ref p).trans (h.unref p ((hin p).mp hp'))
      bound := fun p hp' => by
        rw [hn]
        exact h.bound p ((hin p).mp hp')
      sub := fun p hp' => h.sub p ((hin p).mp hp')
      kern := fun hp' => h.kern (hk ▸ (hin _).mp hp')
      self := by
        rw [hmem', hk]
        exact h.self
      blank := by
        rw [hmem', hk]
        exact h.blank
      table := fun i t ht => by
        rw [htab] at ht
        obtain ⟨h1, h2⟩ := h.table i t ht
        rw [hmem', hk, hn]
        exact ⟨fun hp' => h1 ((hin t).mp hp'), h2⟩
      writable := fun i t ht => by
        rw [htab] at ht
        rw [hmem', hk]
        exact h.writable i t ht
      inj := by
        rw [htab]
        exact h.inj
      kept := fun p hp' => by
        rw [htab]
        exact (h.kept p hp').imp_left (hin p).mpr }

/-- Scribbling over free pages. -/
theorem Booting.poison (cells : List Ppn) : ∀ {m : Phys}, Booting S [] l m → (∀ p ∈ cells, p ∈ l) →
    Booting S [] l (cells.foldl poison m) ∧ kpte (cells.foldl poison m) = kpte m ∧
      (cells.foldl poison m).npages = m.npages ∧
      (cells.foldl poison m).kernPgdir = m.kernPgdir := by
  induction cells with
  | nil => exact fun h _ => ⟨h, rfl, rfl, rfl⟩
  | cons a cells ih =>
      intro m h hsub
      obtain ⟨h1, hk1⟩ := h.fill (a := a) (hsub a List.mem_cons_self)
        fun i => if i.val < 32 then 0x97979797 else m.mem a i
      obtain ⟨h2, hk2, hn2, hp2⟩ := ih h1 fun p hp => hsub p (List.mem_cons_of_mem _ hp)
      exact ⟨h2, hk2.trans hk1, hn2, hp2⟩

/-- The state the check works on, and its cells. -/
theorem Booting.sorted (h : Booting S [] l m) (low : Bool) :
    ∃ l1, l.Perm l1 ∧ Booting S [] l1 (if low then lowFirst m else m) ∧
      kpte (if low then lowFirst m else m) = kpte m ∧
      (if low then lowFirst m else m).npages = m.npages ∧
      (if low then lowFirst m else m).kernPgdir = m.kernPgdir := by
  cases low with
  | false => exact ⟨l, .refl l, h, rfl, rfl, rfl⟩
  | true =>
      obtain ⟨hc, hre⟩ := lowFirst_chain h.chain h.length_le
      have hperm : l.Perm (l.filter (!isHigh ·) ++ l.filter isHigh) :=
        (List.perm_append_comm.trans (List.filter_append_perm isHigh l)).symm
      obtain ⟨h1, hk1⟩ := h.relinked hperm hc hre
      obtain ⟨pages, hpages⟩ := hre.same
      simp only [Phys.mk.injEq] at hpages
      exact ⟨_, hperm, h1, hk1, hpages.1, hpages.2.1⟩

/-- `check_page_free_list` passes if and only if the list is as it asserts. -/
theorem Booting.check (h : Booting S [] l m) (nf : Word) (low : Bool) :
    (FreeOk l m nf ∧ ∃ m', checkPageFreeList m nf low = .ok m' ∧ Shuffled S l m m') ∨
      (¬ FreeOk l m nf ∧ ∀ m', checkPageFreeList m nf low ≠ .ok m') := by
  obtain ⟨l1, hperm, h1, hk1, hn1, hp1⟩ := h.sorted low
  unfold checkPageFreeList
  set m1 := if low then lowFirst m else m
  have hcells : freeCells m1 m1.npages m1.pageFreeList = l1 := freeCells_chain h1.chain h1.length_le
  set xs := if low then l1.filter fun pp => (PDX (page2pa pp)).val < 1 else l1 with hxs
  have hsub : ∀ p ∈ xs, p ∈ l1 := fun p hp => by
    rw [hxs] at hp
    split at hp
    · exact (List.mem_filter.mp hp).1
    · exact hp
  obtain ⟨h2, hk2, hn2, hp2⟩ := Booting.poison xs h1 hsub
  have hiff : FreeOk l m nf ↔ FreeOk l1 (xs.foldl SisOp.Jos.poison m1) nf :=
    ⟨fun hok => hok.perm hperm (hn2.trans hn1), fun hok => hok.perm hperm.symm (hn2.trans hn1).symm⟩
  by_cases hnone : m.pageFreeList = none
  · rw [if_pos hnone]
    have hl : l = [] := Chain.of_none (hnone ▸ h.chain)
    refine Or.inr ⟨fun hok => ?_, nofun⟩
    obtain ⟨p, hp, -⟩ := hok.basemem
    rw [hl] at hp
    cases hp
  · rw [if_neg hnone]
    simp only [hcells]
    by_cases hall : l1.all (freePageOk (xs.foldl SisOp.Jos.poison m1) nf) = true
    · rw [if_neg (not_not.mpr hall)]
      by_cases hbase : l1.any (fun pp => decide (page2pa pp < EXTPHYSMEM)) = true
      · rw [if_neg (not_not.mpr hbase)]
        by_cases hext : l1.any (fun pp => decide (EXTPHYSMEM ≤ page2pa pp)) = true
        · rw [if_neg (not_not.mpr hext)]
          refine Or.inl ⟨hiff.mpr ⟨List.all_eq_true.mp hall, ?_, ?_⟩, _, rfl,
            ⟨l1, hperm, h2⟩, hn2.trans hn1, hp2.trans hp1, hk2.trans hk1⟩
          · simpa using hbase
          · simpa using hext
        · rw [if_pos hext]
          refine Or.inr ⟨fun hok => hext ?_, nofun⟩
          simpa using (hiff.mp hok).extmem
      · rw [if_pos hbase]
        refine Or.inr ⟨fun hok => hbase ?_, nofun⟩
        simpa using (hiff.mp hok).basemem
    · rw [if_pos hall]
      exact Or.inr ⟨fun hok => hall (List.all_eq_true.mpr (hiff.mp hok).each), nofun⟩

/-! ## `page_init` -/

/-- The pages from `x` on, `n` of them. -/
def pageRange (x n : Nat) : List Ppn := (List.range' x n).map (BitVec.ofNat 20)

theorem mem_pageRange {x n : Nat} (hn : x + n ≤ 2 ^ 20) :
    p ∈ pageRange x n ↔ x ≤ p.toNat ∧ p.toNat < x + n := by
  rw [pageRange, List.mem_map]
  constructor
  · rintro ⟨i, hi, rfl⟩
    rw [List.mem_range'_1] at hi
    rw [BitVec.toNat_ofNat]
    omega
  · rintro ⟨h1, h2⟩
    refine ⟨p.toNat, List.mem_range'_1.mpr ⟨h1, h2⟩, BitVec.eq_of_toNat_eq ?_⟩
    rw [BitVec.toNat_ofNat]
    exact Nat.mod_eq_of_lt p.isLt

theorem nodup_pageRange {x n : Nat} (hn : x + n ≤ 2 ^ 20) : (pageRange x n).Nodup := by
  refine List.Nodup.map_on (fun i hi j hj heq => ?_) List.nodup_range'
  rw [List.mem_range'_1] at hi hj
  have hval := congrArg BitVec.toNat heq
  rw [BitVec.toNat_ofNat, BitVec.toNat_ofNat] at hval
  omega

theorem length_pageRange (x n : Nat) : (pageRange x n).length = n := by
  rw [pageRange, List.length_map, List.length_range']

/-- The pages from 1 to `npages - 1`, in the order of the loop. -/
def pagesFrom1 (n : Nat) : List Ppn := pageRange 1 (n - 1)

theorem mem_pagesFrom1 {n : Nat} (hn : n ≤ 2 ^ 20) :
    p ∈ pagesFrom1 n ↔ 1 ≤ p.toNat ∧ p.toNat < n := by
  by_cases hzero : n = 0
  · subst hzero
    simp [pagesFrom1, pageRange]
  · rw [pagesFrom1, mem_pageRange (by omega)]
    omega

theorem nodup_pagesFrom1 {n : Nat} (hn : n ≤ 2 ^ 20) : (pagesFrom1 n).Nodup := by
  by_cases hzero : n = 0
  · subst hzero
    exact List.nodup_nil
  · exact nodup_pageRange (by omega)

/-- The free list `page_init` makes. -/
def initialFree (firstFree : Word) (n : Nat) : List Ppn :=
  ((pagesFrom1 n).filter (incluirEnPaginasLibres firstFree)).reverse

/-- The loop of `page_init` pushes the pages it lets through. -/
theorem pageInit_fold (firstFree : Word) (ps : List Ppn) : ∀ {l : List Ppn} {m : Phys},
    Chain m.link m.pageFreeList l → (∀ p, p ∉ l → m.link p = none) → (ps ++ l).Nodup →
    Chain (ps.foldl (pageInitTurn firstFree) m).link (ps.foldl (pageInitTurn firstFree) m).pageFreeList
        ((ps.filter (incluirEnPaginasLibres firstFree)).reverse ++ l) ∧
      (∀ p, p ∉ (ps.filter (incluirEnPaginasLibres firstFree)).reverse ++ l →
        (ps.foldl (pageInitTurn firstFree) m).link p = none) ∧
      (∀ p, ((ps.foldl (pageInitTurn firstFree) m).pages p).ppRef = (m.pages p).ppRef) ∧
      (ps.foldl (pageInitTurn firstFree) m).mem = m.mem ∧
      (ps.foldl (pageInitTurn firstFree) m).npages = m.npages ∧
      (ps.foldl (pageInitTurn firstFree) m).kernPgdir = m.kernPgdir := by
  induction ps with
  | nil => exact fun hc hoff _ => ⟨hc, hoff, fun _ => rfl, rfl, rfl, rfl⟩
  | cons a ps ih =>
      intro l m hc hoff hnodup
      obtain ⟨ha, hnodup'⟩ := List.nodup_cons.mp hnodup
      cases hin : incluirEnPaginasLibres firstFree a with
      | false =>
          have hturn : pageInitTurn firstFree m a = m := by simp [pageInitTurn, hin]
          rw [List.foldl_cons, hturn, List.filter_cons_of_neg (by simp [hin])]
          exact ih hc hoff hnodup'
      | true =>
          have hal : a ∉ l := fun hmem => ha (List.mem_append_right _ hmem)
          have hturn : pageInitTurn firstFree m a =
              { m.setLink a m.pageFreeList with pageFreeList := some a } := by
            simp [pageInitTurn, hin]
          have hlink : Phys.link { m.setLink a m.pageFreeList with pageFreeList := some a } =
              Function.update m.link a m.pageFreeList := link_setLink m a _
          rw [List.foldl_cons, hturn, List.filter_cons_of_pos hin, List.reverse_cons,
            List.append_assoc]
          obtain ⟨h1, h2, h3, h4⟩ := ih (l := a :: l)
            (m := { m.setLink a m.pageFreeList with pageFreeList := some a })
            (by
              rw [hlink]
              exact hc.push hal)
            (fun p hp => by
              have hne : p ≠ a := fun heq => hp (heq ▸ List.mem_cons_self)
              rw [hlink, Function.update_of_ne hne]
              exact hoff p fun hmem => hp (List.mem_cons_of_mem _ hmem))
            (List.perm_middle.symm.nodup_iff.mp hnodup)
          exact ⟨h1, h2, fun p => (h3 p).trans (congrFun (setLink_ppRef m a _) p), h4⟩

/-- The memory `mem_init` works on once the page directory is there. -/
def dirPhys (hw : Machine) (kp : Ppn) : Phys :=
  ((bootPhys hw kp).fill kp fun _ => 0).store (kp, PDX UVPT) (page2pa kp ||| PTE_U ||| PTE_P)

theorem pageInit_npages (firstFree : Word) (m : Phys) : (pageInit firstFree m).npages = m.npages := by
  have hturn : ∀ (ps : List Ppn) (m : Phys), (ps.foldl (pageInitTurn firstFree) m).npages = m.npages := by
    intro ps
    induction ps with
    | nil => exact fun _ => rfl
    | cons a ps ih =>
        intro m
        rw [List.foldl_cons, ih]
        unfold pageInitTurn
        split <;> rfl
  exact hturn _ m

/-- The state after `page_init`: everything it let through is free. -/
theorem Booting.initial {hw : Machine} {kp : Ppn} {firstFree : Word}
    (hn : (i386DetectMemory hw).toNat ≤ 2 ^ 20)
    (hkp : incluirEnPaginasLibres firstFree kp = false) :
    Booting (initialFree firstFree (i386DetectMemory hw).toNat) []
      (initialFree firstFree (i386DetectMemory hw).toNat)
      (pageInit firstFree (dirPhys hw kp)) := by
  set n := (i386DetectMemory hw).toNat
  set m := dirPhys hw kp with hm
  have hfold := pageInit_fold firstFree (pagesFrom1 n) (l := []) (m := m) .nil (fun _ _ => rfl)
    (by simpa using nodup_pagesFrom1 hn)
  rw [List.append_nil] at hfold
  obtain ⟨hchain, hoff, href, hmem, hnp, hk⟩ := hfold
  have hin : ∀ p, p ∈ initialFree firstFree n ↔
      p ∈ pagesFrom1 n ∧ incluirEnPaginasLibres firstFree p = true := fun p => by
    rw [initialFree, List.mem_reverse, List.mem_filter]
  have hself : m.mem kp (PDX UVPT) = page2pa kp ||| PTE_U ||| PTE_P := store_mem_self ..
  have hother : ∀ i, i ≠ PDX UVPT → m.mem kp i = 0 := fun i hi => by
    rw [hm, dirPhys, store_mem_of_ne (Or.inr hi), fill_mem, Function.update_self]
  have htab : ∀ i, kernTable (pageInit firstFree m) i = none := fun i => by
    rw [kernTable, if_neg]
    rintro ⟨hi, hv⟩
    have hk' : (pageInit firstFree m).kernPgdir = kp := hk
    have hmem' : (pageInit firstFree m).mem = m.mem := hmem
    rw [hk', hmem', hother i hi] at hv
    exact not_PTE_VALID_zero hv
  have hnone : ∀ {i t}, kernTable (pageInit firstFree m) i = some t → False := fun {i t} ht => by
    rw [htab] at ht
    cases ht
  exact
    { chain := hchain
      off := hoff
      nodup := by
        rw [List.nil_append, initialFree, List.nodup_reverse]
        exact (nodup_pagesFrom1 hn).filter _
      unref := fun p _ => href p
      bound := fun p hp => by
        have hlt := ((mem_pagesFrom1 hn).mp ((hin p).mp hp).1).2
        exact hnp ▸ hlt
      sub := fun p hp => hp
      kern := fun hp => by
        have htrue := ((hin _).mp hp).2
        rw [show (pageInit firstFree m).kernPgdir = kp from hk, hkp] at htrue
        cases htrue
      self := by
        rw [show (pageInit firstFree m).mem = m.mem from hmem,
          show (pageInit firstFree m).kernPgdir = kp from hk]
        exact hself
      blank := fun i hi => by
        have hne : i ≠ PDX UVPT := fun heq => absurd (heq ▸ hi) (by decide)
        rw [show (pageInit firstFree m).mem = m.mem from hmem,
          show (pageInit firstFree m).kernPgdir = kp from hk, hother i hne]
        exact not_PTE_VALID_zero
      table := fun i t ht => (hnone ht).elim
      writable := fun i t ht => (hnone ht).elim
      inj := fun i i' t ht => (hnone ht).elim
      kept := fun p hp => Or.inl hp }

end

end SisOp.Jos
