/-
# `SisOp.Startup.LargePages` — `boot_map_region` with and without 4 MiB pages

Both versions of `boot_map_region` leave the translation they are asked for, when the
directory is one the kernel could have made (`Mappable`): the page tables in the range
are its own, they allow what `perm` allows, and there is memory for those that are
missing.  A turn of the loop maps one page (`Mappable.small`) or 1024 pages
(`Mappable.large`) and leaves the rest of the range mappable.

An entry that points back at the directory makes a window onto its entries, as `UVPT`
does: what is seen through it changes with them, and is left out.
-/
import SisOp.Jos.LargePages
import SisOp.Startup.Windows

namespace SisOp.Jos

open SisOp.Lib

section

variable {m m' m1 : Phys} {pgdir a p t v x : Ppn} {i i' : Idx} {w perm va : Word} {n : Nat}
  {l : List Ppn}

/-! ## The walk, by page numbers -/

/-- The page table at index `i`. -/
def tableAt (m : Phys) (pgdir : Ppn) (i : Idx) : Option Ppn :=
  if PTE_VALID (m.mem pgdir i) ∧ m.mem pgdir i &&& PTE_PS = 0 then some (PGNUM (m.mem pgdir i))
  else none

/-- `va2pa` of a virtual page. -/
def pageWalk (m : Phys) (pgdir x : Ppn) : Option (Ppn × Word) :=
  let pde := m.mem pgdir (PDX (page2pa x))
  if ¬ PTE_VALID pde then none
  else if pde &&& PTE_PS ≠ 0 then
    some (PGNUM (PGADDR (PDX pde) (PTX (page2pa x))), pde &&& accessBits)
  else
    let pte := m.mem (PGNUM pde) (PTX (page2pa x))
    if ¬ PTE_VALID pte then none else some (PGNUM pte, effective pde pte)

theorem page2pa_PGNUM_eq (w : Word) : page2pa (PGNUM w) = PTE_ADDR w := by
  rw [← PGNUM_PTE_ADDR]
  refine page2pa_PGNUM ?_
  have hlow : PTE_ADDR w &&& 0xFFF = 0 := by
    rw [PTE_ADDR, BitVec.and_assoc]
    simp
  have hnat := congrArg BitVec.toNat hlow
  rw [BitVec.toNat_and, show (0xFFF : Word).toNat = 2 ^ 12 - 1 from rfl,
    Nat.and_two_pow_sub_one_eq_mod] at hnat
  exact hnat

theorem PDX_PGNUM (va : Word) : PDX (page2pa (PGNUM va)) = PDX va := by
  refine Fin.ext ?_
  rw [PDX_val, PDX_val, page2pa_toNat, PGNUM_toNat]
  omega

theorem PTX_PGNUM (va : Word) : PTX (page2pa (PGNUM va)) = PTX va := by
  refine Fin.ext ?_
  rw [PTX_val, PTX_val, page2pa_toNat, PGNUM_toNat]
  omega

theorem page2pa_PGNUM_PGADDR (d t : Idx) : page2pa (PGNUM (PGADDR d t)) = PGADDR d t := by
  refine page2pa_PGNUM ?_
  rw [PGADDR_toNat]
  omega

theorem va2pa_eq (m : Phys) (pgdir : Ppn) (va : Word) :
    va2pa m pgdir va =
      (pageWalk m pgdir (PGNUM va)).map fun r => (page2pa r.1 ||| PGOFF va, r.2) := by
  simp only [va2pa, pageWalk, Phys.load, PDX_PGNUM, PTX_PGNUM]
  simp only [apply_ite (Option.map _), Option.map_none, Option.map_some, page2pa_PGNUM_PGADDR,
    page2pa_PGNUM_eq (m.mem _ _)]
  rfl

/-- Only the directory and the page table are read. -/
theorem pageWalk_congr (hdir : m'.mem pgdir (PDX (page2pa x)) = m.mem pgdir (PDX (page2pa x)))
    (htab : ∀ t, tableAt m pgdir (PDX (page2pa x)) = some t →
      m'.mem t (PTX (page2pa x)) = m.mem t (PTX (page2pa x))) :
    pageWalk m' pgdir x = pageWalk m pgdir x := by
  simp only [pageWalk, hdir]
  by_cases hv : PTE_VALID (m.mem pgdir (PDX (page2pa x)))
  · by_cases hps : m.mem pgdir (PDX (page2pa x)) &&& PTE_PS = 0
    · rw [htab _ (if_pos ⟨hv, hps⟩)]
    · rw [if_neg (not_not.mpr hv), if_pos hps, if_neg (not_not.mpr hv), if_pos hps]
  · rw [if_pos hv, if_pos hv]

/-! ## Directories that can be mapped -/

/-- Directory index `i` has pages among the `n` from `v` on. -/
def InRange (v : Ppn) (n : Nat) (i : Idx) : Prop :=
  i.val * 1024 < v.toNat + n ∧ v.toNat < (i.val + 1) * 1024 ∧ 0 < n

instance decidableInRange (v : Ppn) (n : Nat) : DecidablePred (InRange v n) := fun i =>
  inferInstanceAs (Decidable (i.val * 1024 < v.toNat + n ∧ v.toNat < (i.val + 1) * 1024 ∧ 0 < n))

/-- The page tables that are missing. -/
def missing (m : Phys) (pgdir v : Ppn) (n : Nat) : Finset Idx :=
  Finset.univ.filter fun i => InRange v n i ∧ ¬ PTE_VALID (m.mem pgdir i)

/-- The directory is ready for `n` pages from `v` on, `l` being the free pages. -/
structure Mappable (m : Phys) (pgdir v : Ppn) (n : Nat) (perm : Word) (l : List Ppn) : Prop where
  chain : Chain m.link m.pageFreeList l
  bound : ∀ p ∈ l, p.toNat < m.npages
  dir : pgdir ∉ l
  used : ∀ i t, tableAt m pgdir i = some t → t ∉ l
  small : ∀ i, InRange v n i → PTE_VALID (m.mem pgdir i) → m.mem pgdir i &&& PTE_PS = 0
  /-- A page table in the range is a page of its own. -/
  own : ∀ i t, InRange v n i → tableAt m pgdir i = some t →
    t ≠ pgdir ∧ t.toNat < m.npages ∧ ∀ i', tableAt m pgdir i' = some t → i' = i
  /-- It allows what is asked for. -/
  allows : ∀ i t, InRange v n i → tableAt m pgdir i = some t →
    perm &&& (PTE_W ||| PTE_U) &&& ~~~(m.mem pgdir i) = 0
  /-- `page_alloc` does not fail. -/
  enough : (missing m pgdir v n).card ≤ l.length

theorem InRange.mono {v' : Ppn} {n' : Nat} (h : InRange v' n' i) (hv : v.toNat ≤ v'.toNat)
    (hn : v'.toNat + n' ≤ v.toNat + n) : InRange v n i := by
  obtain ⟨h1, h2, h3⟩ := h
  exact ⟨by omega, by omega, by omega⟩

/-- A part of the range. -/
theorem Mappable.mono {v' : Ppn} {n' : Nat} (h : Mappable m pgdir v n perm l)
    (hv : v.toNat ≤ v'.toNat) (hn : v'.toNat + n' ≤ v.toNat + n) :
    Mappable m pgdir v' n' perm l :=
  { h with
    small := fun i hi => h.small i (hi.mono hv hn)
    own := fun i t hi => h.own i t (hi.mono hv hn)
    allows := fun i t hi => h.allows i t (hi.mono hv hn)
    enough := by
      refine (Finset.card_le_card ?_).trans h.enough
      intro i hi
      obtain ⟨hr, hinv⟩ := (Finset.mem_filter.mp hi).2
      exact Finset.mem_filter.mpr ⟨Finset.mem_univ i, hr.mono hv hn, hinv⟩ }

/-! ## A page table for the next page -/

/-- The walk of a turn that maps one page. -/
structure Ready (m m1 : Phys) (pgdir v : Ppn) (n : Nat) (perm : Word) (t : Ppn) : Prop where
  walk : pgdirWalk m pgdir (page2pa v) true = .ok (some (t, PTX (page2pa v)), m1)
  mappable : ∃ l, Mappable m1 pgdir v n perm l
  table : tableAt m1 pgdir (PDX (page2pa v)) = some t
  windows : ∀ i, tableAt m1 pgdir i = some pgdir ↔ tableAt m pgdir i = some pgdir
  same : ∀ x, tableAt m pgdir (PDX (page2pa x)) ≠ some pgdir → pageWalk m1 pgdir x = pageWalk m pgdir x

theorem inRange_self (hn : 0 < n) : InRange v n (PDX (page2pa v)) := by
  rw [InRange, PDX_page2pa]
  omega

/-- The entry `pgdir_walk` makes for a new page table. -/
def newPde (a : Ppn) : Word := page2pa a ||| PTE_P ||| PTE_W ||| PTE_U

theorem newPde_eq (a : Ppn) : newPde a = mkPte a (PTE_W ||| PTE_U) := by
  rw [newPde, mkPte]
  ac_rfl

theorem newPde_small (a : Ppn) : newPde a &&& PTE_PS = 0 := by
  rw [newPde_eq, mkPte_and a _ (by decide)]
  decide

theorem newPde_allows (a : Ppn) (perm : Word) : perm &&& (PTE_W ||| PTE_U) &&& ~~~(newPde a) = 0 := by
  have hbits : newPde a &&& (PTE_W ||| PTE_U) = PTE_W ||| PTE_U := by
    rw [newPde_eq, mkPte_and a _ (by decide)]
    decide
  have hcompl : (PTE_W ||| PTE_U) &&& ~~~(newPde a) = 0 := by
    rw [← hbits, BitVec.and_comm (newPde a), BitVec.and_assoc]
    simp
  rw [BitVec.and_assoc, hcompl]
  exact BitVec.and_zero

/-- A page table that is already there. -/
theorem Mappable.walk_present (h : Mappable m pgdir v n perm l) (hn : 0 < n)
    (hv : PTE_VALID (m.mem pgdir (PDX (page2pa v)))) : ∃ t, Ready m m pgdir v n perm t := by
  have hr := inRange_self (v := v) hn
  have ht : tableAt m pgdir (PDX (page2pa v)) = some (PGNUM (m.mem pgdir (PDX (page2pa v)))) :=
    if_pos ⟨hv, h.small _ hr hv⟩
  have hb := (h.own _ _ hr ht).2.1
  have hk : KADDR m (PGNUM (m.mem pgdir (PDX (page2pa v)))) =
      .ok (PGNUM (m.mem pgdir (PDX (page2pa v)))) := if_neg (by omega)
  refine ⟨_, ?_, ⟨l, h⟩, ht, fun _ => Iff.rfl, fun _ _ => rfl⟩
  simp only [pgdirWalk, Phys.load, hv, not_true_eq_false, if_false, PGNUM_PTE_ADDR, hk]
  rfl

/-- What `pgdir_walk` leaves when it makes the page table `a`. -/
structure Made (m m1 : Phys) (pgdir v a : Ppn) : Prop where
  walk : pgdirWalk m pgdir (page2pa v) true = .ok (some (a, PTX (page2pa v)), m1)
  mem : m1.mem = Function.update (Function.update m.mem a fun _ => 0) pgdir
    (Function.update (m.mem pgdir) (PDX (page2pa v)) (newPde a))
  link : m1.link = Function.update m.link a none
  pageFreeList : m1.pageFreeList = m.link a
  npages : m1.npages = m.npages

theorem pgdirWalk_makes (hv : ¬ PTE_VALID (m.mem pgdir (PDX (page2pa v))))
    (hhead : m.pageFreeList = some a) (hb : a.toNat < m.npages) (hne : pgdir ≠ a) :
    ∃ m1, Made m m1 pgdir v a := by
  set m0 : Phys := { m with pageFreeList := (m.pages a).ppLink, handed := a :: m.handed }.setLink a
    none with hm0
  have hk0 : KADDR m0 a = .ok a := if_neg (by show ¬ m.npages ≤ a.toNat; omega)
  have halloc : pageAlloc m true = .ok (some a, m0.fill a fun _ => 0) := by
    simp only [pageAlloc, hhead, if_true, ← hm0]
    rw [hk0]
    rfl
  have hk1 : KADDR (((m0.fill a fun _ => 0).store (pgdir, PDX (page2pa v)) (newPde a)).incref a) a =
      .ok a := if_neg (by show ¬ m.npages ≤ a.toNat; omega)
  refine ⟨((m0.fill a fun _ => 0).store (pgdir, PDX (page2pa v)) (newPde a)).incref a, ?_, ?_, ?_,
    rfl, rfl⟩
  · simp only [pgdirWalk, Phys.load, hv, not_false_eq_true, if_true, not_true_eq_false, if_false,
      halloc]
    show (do
      let kva ← KADDR (((m0.fill a fun _ => 0).store (pgdir, PDX (page2pa v)) (newPde a)).incref a) a
      pure (some (kva, PTX (page2pa v)), _)) = _
    rw [hk1]
    rfl
  · rw [incref_mem, store_mem, fill_mem, Function.update_of_ne hne]
    rfl
  · have hlink : m0.link = Function.update m.link a none := link_setLink _ a none
    rw [← hlink]
    exact setRef_ppLink _ a _

namespace Made

variable (h : Made m m1 pgdir v a)
include h

theorem dir_mem : m1.mem pgdir = Function.update (m.mem pgdir) (PDX (page2pa v)) (newPde a) := by
  rw [h.mem, Function.update_self]

theorem other_mem (hx : x ≠ pgdir) (hxa : x ≠ a) : m1.mem x = m.mem x := by
  rw [h.mem, Function.update_of_ne hx, Function.update_of_ne hxa]

theorem tableAt_eq : tableAt m1 pgdir = Function.update (tableAt m pgdir) (PDX (page2pa v)) (some a) := by
  funext i
  rw [tableAt, h.dir_mem]
  by_cases hi : i = PDX (page2pa v)
  · subst hi
    have hvalid : PTE_VALID (newPde a) := newPde_eq a ▸ PTE_VALID_mkPte a _
    rw [Function.update_self, Function.update_self, if_pos ⟨hvalid, newPde_small a⟩, newPde_eq,
      PGNUM_mkPte a (by decide)]
  · rw [Function.update_of_ne hi, Function.update_of_ne hi]
    rfl

end Made

theorem tableAt_none (hv : ¬ PTE_VALID (m.mem pgdir i)) : tableAt m pgdir i = none :=
  if_neg fun h => hv h.1

/-- A page table that is missing. -/
theorem Mappable.walk_missing (h : Mappable m pgdir v n perm l) (hn : 0 < n)
    (hv : ¬ PTE_VALID (m.mem pgdir (PDX (page2pa v)))) : ∃ m1 t, Ready m m1 pgdir v n perm t := by
  have hr := inRange_self (v := v) hn
  have hnone := tableAt_none hv
  have hmiss : PDX (page2pa v) ∈ missing m pgdir v n :=
    Finset.mem_filter.mpr ⟨Finset.mem_univ _, hr, hv⟩
  obtain ⟨a, l1, rfl⟩ : ∃ a l1, l = a :: l1 := by
    cases l with
    | nil =>
      have hcard := h.enough
      have hpos := Finset.card_pos.mpr ⟨_, hmiss⟩
      rw [List.length_nil] at hcard
      omega
    | cons a l1 => exact ⟨a, l1, rfl⟩
  have hne : pgdir ≠ a := fun heq => h.dir (heq ▸ List.mem_cons_self)
  have hal : a ∉ l1 := (List.nodup_cons.mp h.chain.nodup).1
  obtain ⟨m1, hmade⟩ := pgdirWalk_makes hv h.chain.head_eq (h.bound a List.mem_cons_self) hne
  have hold : ∀ i t, tableAt m pgdir i = some t → t ≠ a := by
    rintro i t ht rfl
    exact h.used i t ht List.mem_cons_self
  have htab : ∀ i t, tableAt m1 pgdir i = some t → i = PDX (page2pa v) ∧ t = a ∨
      i ≠ PDX (page2pa v) ∧ tableAt m pgdir i = some t := by
    intro i t ht
    rw [hmade.tableAt_eq] at ht
    by_cases hi : i = PDX (page2pa v)
    · subst hi
      rw [Function.update_self] at ht
      exact Or.inl ⟨rfl, (Option.some.inj ht).symm⟩
    · rw [Function.update_of_ne hi] at ht
      exact Or.inr ⟨hi, ht⟩
  refine ⟨m1, a, hmade.walk, ⟨l1, ?_⟩, ?_, ?_, ?_⟩
  · refine ⟨?_, ?_, ?_, ?_, ?_, ?_, ?_, ?_⟩
    · rw [hmade.link, hmade.pageFreeList]
      exact h.chain.tail.update hal
    · intro p hp
      rw [hmade.npages]
      exact h.bound p (List.mem_cons_of_mem a hp)
    · exact fun hmem => h.dir (List.mem_cons_of_mem a hmem)
    · intro i t ht hmem
      rcases htab i t ht with ⟨-, rfl⟩ | ⟨-, ht'⟩
      · exact hal hmem
      · exact h.used i t ht' (List.mem_cons_of_mem a hmem)
    · intro i hi hvalid
      rw [hmade.dir_mem] at hvalid ⊢
      by_cases hid : i = PDX (page2pa v)
      · subst hid
        rw [Function.update_self]
        exact newPde_small a
      · rw [Function.update_of_ne hid] at hvalid ⊢
        exact h.small i hi hvalid
    · intro i t hi ht
      rw [hmade.npages]
      rcases htab i t ht with ⟨rfl, rfl⟩ | ⟨hid, ht'⟩
      · refine ⟨hne.symm, h.bound t List.mem_cons_self, ?_⟩
        intro i' ht''
        rcases htab i' t ht'' with ⟨rfl, -⟩ | ⟨-, hbad⟩
        · rfl
        · exact absurd rfl (hold i' t hbad)
      · obtain ⟨h1, h2, h3⟩ := h.own i t hi ht'
        refine ⟨h1, h2, ?_⟩
        intro i' ht''
        rcases htab i' t ht'' with ⟨-, rfl⟩ | ⟨-, hsame⟩
        · exact absurd rfl (hold i t ht')
        · exact h3 i' hsame
    · intro i t hi ht
      rw [hmade.dir_mem]
      rcases htab i t ht with ⟨rfl, rfl⟩ | ⟨hid, ht'⟩
      · rw [Function.update_self]
        exact newPde_allows t perm
      · rw [Function.update_of_ne hid]
        exact h.allows i t hi ht'
    · have hsub : missing m1 pgdir v n ⊆ (missing m pgdir v n).erase (PDX (page2pa v)) := by
        intro i hi
        obtain ⟨hri, hinv⟩ := (Finset.mem_filter.mp hi).2
        rw [hmade.dir_mem] at hinv
        have hid : i ≠ PDX (page2pa v) := by
          rintro rfl
          rw [Function.update_self, newPde_eq] at hinv
          exact hinv (PTE_VALID_mkPte a _)
        rw [Function.update_of_ne hid] at hinv
        exact Finset.mem_erase.mpr ⟨hid, Finset.mem_filter.mpr ⟨Finset.mem_univ i, hri, hinv⟩⟩
      have hcard := Finset.card_le_card hsub
      rw [Finset.card_erase_of_mem hmiss] at hcard
      have henough := h.enough
      rw [List.length_cons] at henough
      omega
  · rw [hmade.tableAt_eq, Function.update_self]
  · intro i
    rw [hmade.tableAt_eq]
    by_cases hid : i = PDX (page2pa v)
    · subst hid
      rw [Function.update_self, hnone]
      constructor
      · intro heq
        exact absurd (Option.some.inj heq).symm hne
      · intro heq
        cases heq
    · rw [Function.update_of_ne hid]
  · intro x hx
    by_cases hid : PDX (page2pa x) = PDX (page2pa v)
    · -- nothing was mapped there, and the new page table is empty
      have hzero : m1.mem a = fun _ => 0 := by
        rw [hmade.mem, Function.update_of_ne hne.symm, Function.update_self]
      have hvalid : PTE_VALID (newPde a) := newPde_eq a ▸ PTE_VALID_mkPte a _
      have hpg : PGNUM (newPde a) = a := by rw [newPde_eq, PGNUM_mkPte a (by decide)]
      simp only [pageWalk, hid, hmade.dir_mem, Function.update_self, hpg, hzero]
      rw [if_neg (not_not.mpr hvalid), if_neg (not_not.mpr (newPde_small a)), if_pos (by decide),
        if_pos hv]
    · refine pageWalk_congr ?_ ?_
      · rw [hmade.dir_mem, Function.update_of_ne hid]
      · intro t ht
        rw [hmade.other_mem ?_ (hold _ t ht)]
        rintro rfl
        exact hx ht

/-- The walk of a turn that maps one page finds a page table, or makes one. -/
theorem Mappable.walk (h : Mappable m pgdir v n perm l) (hn : 0 < n) :
    ∃ m1 t, Ready m m1 pgdir v n perm t := by
  by_cases hv : PTE_VALID (m.mem pgdir (PDX (page2pa v)))
  · obtain ⟨t, hready⟩ := h.walk_present hn hv
    exact ⟨m, t, hready⟩
  · exact h.walk_missing hn hv

/-! ## Turns -/

/-- What a region is mapped with. -/
def granted (perm : Word) : Word := (perm ||| PTE_P) &&& accessBits

/-- `k` pages from `v` on are mapped to those from `p` on, and the `n` pages after them are
still to be mapped. -/
structure Mapped (m m' : Phys) (pgdir v p : Ppn) (perm : Word) (k n : Nat) : Prop where
  rest : ∃ l, Mappable m' pgdir (v + BitVec.ofNat 20 k) n perm l
  windows : ∀ i, tableAt m' pgdir i = some pgdir ↔ tableAt m pgdir i = some pgdir
  walk : ∀ x, tableAt m pgdir (PDX (page2pa x)) ≠ some pgdir → pageWalk m' pgdir x =
    if (x - v).toNat < k then some (p + (x - v), granted perm) else pageWalk m pgdir x

theorem Mappable.rest {k : Nat} (h : Mappable m pgdir v (k + n) perm l)
    (hle : v.toNat + (k + n) ≤ 2 ^ 20) : Mappable m pgdir (v + BitVec.ofNat 20 k) n perm l := by
  rcases Nat.eq_zero_or_pos n with rfl | hpos
  · refine { h with small := ?_, own := ?_, allows := ?_, enough := ?_ }
    · exact fun i hi => absurd hi.2.2 (Nat.lt_irrefl 0)
    · exact fun i t hi => absurd hi.2.2 (Nat.lt_irrefl 0)
    · exact fun i t hi => absurd hi.2.2 (Nat.lt_irrefl 0)
    · have hempty : missing m pgdir (v + BitVec.ofNat 20 k) 0 = ∅ :=
        Finset.filter_eq_empty_iff.mpr fun i _ hi => absurd hi.1.2.2 (Nat.lt_irrefl 0)
      rw [hempty]
      exact Nat.zero_le _
  · have hv : (v + BitVec.ofNat 20 k).toNat = v.toNat + k := by
      rw [BitVec.toNat_add, BitVec.toNat_ofNat]
      omega
    exact h.mono (by omega) (by omega)

theorem Mapped.trans {m2 : Phys} {k k' : Nat} (h : Mapped m m1 pgdir v p perm k (k' + n))
    (h' : Mapped m1 m2 pgdir (v + BitVec.ofNat 20 k) (p + BitVec.ofNat 20 k) perm k' n)
    (hle : v.toNat + (k + k') ≤ 2 ^ 20) : Mapped m m2 pgdir v p perm (k + k') n where
  rest := by
    rw [BitVec.ofNat_add, ← BitVec.add_assoc]
    exact h'.rest
  windows := fun i => (h'.windows i).trans (h.windows i)
  walk := by
    intro x hx
    rw [h'.walk x (mt (h.windows _).mp hx), h.walk x hx]
    have hlt := x.isLt
    have hlv := v.isLt
    have hd : (x - v).toNat = (2 ^ 20 - v.toNat + x.toNat) % 2 ^ 20 := BitVec.toNat_sub ..
    have hd' : (x - (v + BitVec.ofNat 20 k)).toNat =
        (2 ^ 20 - (v.toNat + k % 2 ^ 20) % 2 ^ 20 + x.toNat) % 2 ^ 20 := by
      rw [BitVec.toNat_sub, BitVec.toNat_add, BitVec.toNat_ofNat]
    by_cases h1 : (x - v).toNat < k
    · have h2 : ¬ (x - (v + BitVec.ofNat 20 k)).toNat < k' := by omega
      have h3 : (x - v).toNat < k + k' := by omega
      rw [if_neg h2, if_pos h1, if_pos h3]
    · rw [if_neg h1]
      by_cases h2 : (x - v).toNat < k + k'
      · have hsum : p + BitVec.ofNat 20 k + (x - (v + BitVec.ofNat 20 k)) = p + (x - v) := by
          refine BitVec.eq_of_toNat_eq ?_
          rw [BitVec.toNat_add, BitVec.toNat_add, BitVec.toNat_add, BitVec.toNat_ofNat, hd, hd']
          omega
        rw [if_pos h2, if_pos (by omega), hsum]
      · rw [if_neg h2, if_neg (by omega)]

/-! ## One page -/

theorem and_granted {pde : Word} (h : perm &&& (PTE_W ||| PTE_U) &&& ~~~pde = 0) :
    effective pde (mkPte p perm) = granted perm := by
  have hsplit : mkPte p perm &&& (pde ||| ~~~(PTE_W ||| PTE_U)) &&& accessBits =
      mkPte p perm &&& accessBits &&& (pde ||| ~~~(PTE_W ||| PTE_U)) := by ac_rfl
  rw [effective, hsplit, mkPte_and p perm (by decide), granted]
  refine BitVec.eq_of_getLsbD_eq fun i hi => ?_
  have hbit := congrArg (BitVec.getLsbD · i) h
  have hp : PTE_P.getLsbD i = true → (PTE_W ||| PTE_U).getLsbD i = false := by
    intro hP
    rw [PTE_P_getLsbD hi, decide_eq_true_iff] at hP
    subst hP
    rfl
  simp only [BitVec.getLsbD_and, BitVec.getLsbD_or, BitVec.getLsbD_not, hi, decide_true,
    Bool.true_and] at hbit hp ⊢
  cases hperm : perm.getLsbD i <;> cases hpde : pde.getLsbD i <;> cases hP : PTE_P.getLsbD i <;>
    cases hW : PTE_W.getLsbD i <;> cases hU : PTE_U.getLsbD i <;> simp_all

/-- A turn that maps one page. -/
theorem Mappable.one (h : Mappable m pgdir v (1 + n) perm l) (hle : v.toNat + (1 + n) ≤ 2 ^ 20)
    (hperm : FlagsOnly perm) (p : Ppn) : ∃ m1 t,
    pgdirWalk m pgdir (page2pa v) true = .ok (some (t, PTX (page2pa v)), m1) ∧
      Mapped m (m1.store (t, PTX (page2pa v)) (mkPte p perm)) pgdir v p perm 1 n := by
  obtain ⟨m1, t, hready⟩ := h.walk (by omega)
  obtain ⟨l1, h1⟩ := hready.mappable
  have hr := inRange_self (v := v) (n := 1 + n) (by omega)
  obtain ⟨hne, hb, hown⟩ := h1.own _ t hr hready.table
  refine ⟨m1, t, hready.walk, ?_⟩
  generalize hm2 : m1.store (t, PTX (page2pa v)) (mkPte p perm) = m2
  have hdir : m2.mem pgdir = m1.mem pgdir := by
    rw [← hm2, store_mem, Function.update_of_ne hne.symm]
  have htab : tableAt m2 pgdir = tableAt m1 pgdir := by
    funext i
    rw [tableAt, tableAt, hdir]
  have h2 : Mappable m2 pgdir v (1 + n) perm l1 :=
    { h1 with
      used := htab ▸ h1.used
      small := hdir ▸ h1.small
      own := by
        have hn : m2.npages = m1.npages := by
          rw [← hm2]
          rfl
        rw [htab, hn]
        exact h1.own
      allows := by
        rw [htab, hdir]
        exact h1.allows
      chain := by
        rw [← hm2]
        exact h1.chain
      bound := by
        rw [← hm2]
        exact h1.bound
      enough := by
        have hmiss : missing m2 pgdir v (1 + n) = missing m1 pgdir v (1 + n) := by
          rw [missing, missing, hdir]
        rw [hmiss]
        exact h1.enough }
  refine ⟨⟨l1, h2.rest hle⟩, ?_, ?_⟩
  · intro i
    rw [htab]
    exact hready.windows i
  · intro x hx
    have hx1 := mt (hready.windows _).mp hx
    by_cases hxv : x = v
    · obtain ⟨⟨hvalid, hps⟩, hpg⟩ : (PTE_VALID (m1.mem pgdir (PDX (page2pa v))) ∧
          m1.mem pgdir (PDX (page2pa v)) &&& PTE_PS = 0) ∧
          PGNUM (m1.mem pgdir (PDX (page2pa v))) = t := by
        have ht := hready.table
        rw [tableAt] at ht
        split at ht
        · next hboth => exact ⟨hboth, Option.some.inj ht⟩
        · cases ht
      have hentry : m2.mem t (PTX (page2pa v)) = mkPte p perm := by
        rw [← hm2, store_mem, Function.update_self, Function.update_self]
      rw [hxv, if_pos (by simp)]
      simp only [pageWalk, hdir, hpg, hentry]
      rw [if_neg (not_not.mpr hvalid), if_neg (not_not.mpr hps),
        if_neg (not_not.mpr (PTE_VALID_mkPte p perm)), PGNUM_mkPte p hperm,
        and_granted (h1.allows _ t hr hready.table)]
      simp
    · have hfar : ¬ (x - v).toNat < 1 := by
        intro hlt
        have hltx := x.isLt
        have hltv := v.isLt
        rw [BitVec.toNat_sub] at hlt
        exact hxv (BitVec.eq_of_toNat_eq (by omega))
      rw [if_neg hfar, ← hready.same x hx]
      refine pageWalk_congr (congrFun hdir _) ?_
      intro t' ht'
      rw [← hm2, store_mem]
      by_cases htt : t' = t
      · subst htt
        -- the same page table, but another entry of it
        have hidx := hown _ ht'
        have hne' : PTX (page2pa x) ≠ PTX (page2pa v) := fun heq => hxv (eq_of_indices hidx heq)
        rw [Function.update_self, Function.update_of_ne hne']
      · rw [Function.update_of_ne htt]

/-! ## 1024 pages at once -/

/-- The entry a large page is mapped with. -/
theorem large_entry (p : Ppn) (perm : Word) :
    PTE_ADDR (page2pa p) ||| perm ||| PTE_P ||| PTE_PS = mkPte p (perm ||| PTE_PS) := by
  rw [← page2pa_PGNUM_eq, PGNUM_page2pa, mkPte]
  ac_rfl

theorem mkPte_large (p : Ppn) (perm : Word) : mkPte p (perm ||| PTE_PS) &&& PTE_PS ≠ 0 := by
  rw [mkPte_and p _ (by decide)]
  intro h
  have hbit := congrArg (BitVec.getLsbD · 7) h
  simp [PTE_PS] at hbit

theorem mkPte_large_access (p : Ppn) (perm : Word) :
    mkPte p (perm ||| PTE_PS) &&& accessBits = granted perm := by
  have hzero : PTE_PS &&& accessBits = 0 := by decide
  rw [mkPte_and p _ (by decide), granted, BitVec.and_comm, BitVec.and_comm (perm ||| PTE_P),
    BitVec.or_assoc, BitVec.or_comm PTE_PS, ← BitVec.or_assoc, BitVec.and_or_distrib_left,
    BitVec.and_comm accessBits PTE_PS, hzero]
  exact BitVec.or_zero

/-- A turn that maps a large page. -/
theorem Mappable.large (h : Mappable m pgdir v (1024 + n) perm l)
    (hle : v.toNat + (1024 + n) ≤ 2 ^ 20) (hv : v.toNat % 1024 = 0) (hp : p.toNat % 1024 = 0)
    (hperm : FlagsOnly perm) :
    Mapped m (m.store (pgdir, PDX (page2pa v))
      (PTE_ADDR (page2pa p) ||| perm ||| PTE_P ||| PTE_PS)) pgdir v p perm 1024 n := by
  rw [large_entry]
  generalize hm2 : m.store (pgdir, PDX (page2pa v)) (mkPte p (perm ||| PTE_PS)) = m2
  have hr := inRange_self (v := v) (n := 1024 + n) (by omega)
  have hdir : m2.mem pgdir =
      Function.update (m.mem pgdir) (PDX (page2pa v)) (mkPte p (perm ||| PTE_PS)) := by
    rw [← hm2, store_mem, Function.update_self]
  have hother : ∀ q, q ≠ pgdir → m2.mem q = m.mem q := by
    intro q hq
    rw [← hm2, store_mem, Function.update_of_ne hq]
  have htab : ∀ i, tableAt m2 pgdir i = if i = PDX (page2pa v) then none else tableAt m pgdir i := by
    intro i
    rw [tableAt, hdir]
    by_cases hi : i = PDX (page2pa v)
    · subst hi
      rw [Function.update_self, if_neg (fun h => mkPte_large p perm h.2), if_pos rfl]
    · rw [Function.update_of_ne hi, if_neg hi]
      rfl
  have hold : ∀ i t, tableAt m2 pgdir i = some t → i ≠ PDX (page2pa v) ∧ tableAt m pgdir i = some t := by
    intro i t ht
    rw [htab] at ht
    split at ht
    · cases ht
    · next hi => exact ⟨hi, ht⟩
  -- the pages that are left begin in another entry
  have hnext : ∀ i, InRange (v + BitVec.ofNat 20 1024) n i →
      i ≠ PDX (page2pa v) ∧ InRange v (1024 + n) i := by
    intro i hi
    obtain ⟨h1, h2, h3⟩ := hi
    have hsum : (v + BitVec.ofNat 20 1024).toNat = v.toNat + 1024 := by
      rw [BitVec.toNat_add, BitVec.toNat_ofNat]
      omega
    rw [hsum] at h1 h2
    refine ⟨?_, ⟨by omega, by omega, by omega⟩⟩
    intro heq
    have hval := congrArg Fin.val heq
    rw [PDX_page2pa] at hval
    omega
  refine ⟨⟨l, ?_⟩, ?_, ?_⟩
  · refine ⟨?_, ?_, h.dir, ?_, ?_, ?_, ?_, ?_⟩
    · rw [← hm2]
      exact h.chain
    · rw [← hm2]
      exact h.bound
    · exact fun i t ht => h.used i t (hold i t ht).2
    · intro i hi hvalid
      obtain ⟨hne, hri⟩ := hnext i hi
      rw [hdir, Function.update_of_ne hne] at hvalid ⊢
      exact h.small i hri hvalid
    · intro i t hi ht
      obtain ⟨h1, h2, h3⟩ := h.own i t (hnext i hi).2 (hold i t ht).2
      refine ⟨h1, ?_, fun i' ht' => h3 i' (hold i' t ht').2⟩
      rw [← hm2]
      exact h2
    · intro i t hi ht
      obtain ⟨hne, hri⟩ := hnext i hi
      rw [hdir, Function.update_of_ne hne]
      exact h.allows i t hri (hold i t ht).2
    · refine (Finset.card_le_card ?_).trans h.enough
      intro i hi
      obtain ⟨hri, hinv⟩ := (Finset.mem_filter.mp hi).2
      obtain ⟨hne, hri'⟩ := hnext i hri
      rw [hdir, Function.update_of_ne hne] at hinv
      exact Finset.mem_filter.mpr ⟨Finset.mem_univ i, hri', hinv⟩
  · intro i
    rw [htab]
    split
    · next hi =>
      subst hi
      constructor
      · intro heq
        cases heq
      · intro heq
        exact absurd rfl (h.own _ _ hr heq).1
    · exact Iff.rfl
  · intro x hx
    have hltx := x.isLt
    have hltv := v.isLt
    have hltp := p.isLt
    have hd : (x - v).toNat = (2 ^ 20 - v.toNat + x.toNat) % 2 ^ 20 := BitVec.toNat_sub ..
    have hidx : PDX (page2pa x) = PDX (page2pa v) ↔ x.toNat / 1024 = v.toNat / 1024 := by
      rw [← PDX_page2pa, ← PDX_page2pa]
      exact Fin.ext_iff
    by_cases hin : PDX (page2pa x) = PDX (page2pa v)
    · have hdiv := hidx.mp hin
      have hpage : PGNUM (PGADDR (PDX (mkPte p (perm ||| PTE_PS))) (PTX (page2pa x))) = p + (x - v) := by
        have hps : FlagsOnly (perm ||| PTE_PS) := by
          rw [FlagsOnly, PGNUM_or, hperm]
          decide
        refine BitVec.eq_of_toNat_eq ?_
        rw [← PDX_PGNUM, PGNUM_mkPte p hps, PGNUM_toNat, PGADDR_toNat, PDX_page2pa, PTX_page2pa,
          BitVec.toNat_add, hd]
        omega
      have hvalid := PTE_VALID_mkPte p (perm ||| PTE_PS)
      rw [if_pos (by omega)]
      simp only [pageWalk, hin, hdir, Function.update_self]
      rw [if_neg (not_not.mpr hvalid), if_pos (mkPte_large p perm), hpage, mkPte_large_access]
    · have hdiv := mt hidx.mpr hin
      rw [if_neg (by omega)]
      refine pageWalk_congr ?_ ?_
      · rw [hdir, Function.update_of_ne hin]
      · intro t ht
        rw [hother t]
        rintro rfl
        exact hx ht

/-! ## The two loops -/

theorem Mappable.nothing (h : Mappable m pgdir v 0 perm l) (p : Ppn) :
    Mapped m m pgdir v p perm 0 0 where
  rest := ⟨l, by simpa using h⟩
  windows := fun _ => Iff.rfl
  walk := fun _ _ => (if_neg (Nat.not_lt_zero _)).symm

/-- The loop without `TP1_PSE`. -/
theorem Mappable.loop (h : Mappable m pgdir v n perm l) (hle : v.toNat + n ≤ 2 ^ 20)
    (hperm : FlagsOnly perm) (p : Ppn) :
    ∃ m', bootMapLoop pgdir perm n m (page2pa v) (page2pa p) = .ok m' ∧
      Mapped m m' pgdir v p perm n 0 := by
  induction n generalizing m v p l with
  | zero => exact ⟨m, rfl, h.nothing p⟩
  | succ n ih =>
    rw [Nat.add_comm] at h
    obtain ⟨m1, t, hwalk, hmapped⟩ := h.one (by omega) hperm p
    obtain ⟨l', hrest⟩ := hmapped.rest
    have hv1 : (v + BitVec.ofNat 20 1).toNat + n ≤ 2 ^ 20 := by
      rw [BitVec.toNat_add]
      have hmod := Nat.mod_le (v.toNat + (BitVec.ofNat 20 1).toNat) (2 ^ 20)
      have hone : (BitVec.ofNat 20 1).toNat = 1 := rfl
      omega
    obtain ⟨m', hloop, hmapped'⟩ := ih hrest hv1 (p + BitVec.ofNat 20 1)
    refine ⟨m', ?_, ?_⟩
    · rw [bootMapLoop, hwalk]
      simp only [bind, Except.bind]
      rw [page2pa_succ, page2pa_succ]
      exact hloop
    · rw [Nat.add_comm]
      exact hmapped.trans hmapped' (by omega)

theorem page2pa_PTSIZE (v : Ppn) : page2pa v + PTSIZE = page2pa (v + BitVec.ofNat 20 1024) := by
  have hlt := v.isLt
  refine BitVec.eq_of_toNat_eq ?_
  rw [BitVec.toNat_add, page2pa_toNat, page2pa_toNat, PTSIZE_toNat, BitVec.toNat_add,
    show (BitVec.ofNat 20 1024).toNat = 1024 from rfl]
  omega

theorem page2pa_aligned (v : Ppn) : page2pa v % PTSIZE = 0 ↔ v.toNat % 1024 = 0 := by
  have hlt := v.isLt
  constructor
  · intro h
    have hnat := congrArg BitVec.toNat h
    rw [BitVec.toNat_umod, page2pa_toNat, PTSIZE_toNat] at hnat
    change v.toNat * 4096 % 4194304 = 0 at hnat
    omega
  · intro h
    refine BitVec.eq_of_toNat_eq ?_
    rw [BitVec.toNat_umod, page2pa_toNat, PTSIZE_toNat]
    change v.toNat * 4096 % 4194304 = 0
    omega

/-- `size`, as a number of pages. -/
def sizeOf (n : Nat) : Word := BitVec.ofNat 32 (n * 4096)

theorem sizeOf_toNat (hn : n < 2 ^ 20) : (sizeOf n).toNat = n * 4096 := by
  rw [sizeOf, BitVec.toNat_ofNat]
  omega

theorem sizeOf_sub {k : Nat} (hn : k + n < 2 ^ 20) : sizeOf (k + n) - sizeOf k = sizeOf n := by
  refine BitVec.eq_of_toNat_eq ?_
  rw [BitVec.toNat_sub, sizeOf_toNat hn, sizeOf_toNat (by omega), sizeOf_toNat (by omega)]
  omega

/-- The loop with `TP1_PSE`: `n` turns are enough for `n` pages. -/
theorem Mappable.pseLoop {fuel : Nat} (h : Mappable m pgdir v n perm l)
    (hle : v.toNat + n ≤ 2 ^ 20) (hn : n < 2 ^ 20) (hfuel : n ≤ fuel) (hperm : FlagsOnly perm)
    (p : Ppn) :
    ∃ m', bootMapPseLoop pgdir perm fuel m (page2pa v) (sizeOf n) (page2pa p) = .ok m' ∧
      Mapped m m' pgdir v p perm n 0 := by
  induction fuel generalizing m v p l n with
  | zero =>
    obtain rfl : n = 0 := Nat.le_zero.mp hfuel
    exact ⟨m, rfl, h.nothing p⟩
  | succ fuel ih =>
    rcases Nat.eq_zero_or_pos n with rfl | hpos
    · exact ⟨m, rfl, h.nothing p⟩
    have hsize : 0 < sizeOf n := by
      rw [BitVec.lt_def, sizeOf_toNat hn]
      exact Nat.mul_pos hpos (by decide)
    have hbound : ∀ k, k ≤ n → (v + BitVec.ofNat 20 k).toNat + (n - k) ≤ 2 ^ 20 := by
      intro k hk
      rw [BitVec.toNat_add, BitVec.toNat_ofNat]
      omega
    by_cases hbig : PTSIZE ≤ sizeOf n ∧ page2pa v % PTSIZE = 0 ∧ page2pa p % PTSIZE = 0
    · obtain ⟨hsz, hv, hp⟩ := hbig
      have hge : 1024 ≤ n := by
        rw [BitVec.le_def, sizeOf_toNat hn, PTSIZE_toNat] at hsz
        omega
      obtain ⟨k, rfl⟩ := Nat.exists_eq_add_of_le hge
      have hmapped := h.large hle ((page2pa_aligned v).mp hv) ((page2pa_aligned p).mp hp) hperm
      obtain ⟨l', hrest⟩ := hmapped.rest
      have hb := hbound 1024 (by omega)
      rw [Nat.add_sub_cancel_left] at hb
      obtain ⟨m', hloop, hmapped'⟩ := ih hrest hb (by omega) (by omega) (p + BitVec.ofNat 20 1024)
      refine ⟨m', ?_, hmapped.trans hmapped' (by omega)⟩
      rw [bootMapPseLoop, if_pos hsize, if_pos ⟨hsz, hv, hp⟩, page2pa_PTSIZE, page2pa_PTSIZE,
        show sizeOf (1024 + k) - PTSIZE = sizeOf k from sizeOf_sub hn]
      exact hloop
    · obtain ⟨k, rfl⟩ := Nat.exists_eq_add_of_le (show 1 ≤ n by omega)
      obtain ⟨m1, t, hwalk, hmapped⟩ := h.one hle hperm p
      obtain ⟨l', hrest⟩ := hmapped.rest
      have hb := hbound 1 (by omega)
      rw [Nat.add_sub_cancel_left] at hb
      obtain ⟨m', hloop, hmapped'⟩ := ih hrest hb (by omega) (by omega) (p + BitVec.ofNat 20 1)
      refine ⟨m', ?_, hmapped.trans hmapped' (by omega)⟩
      rw [bootMapPseLoop, if_pos hsize, if_neg hbig, hwalk]
      simp only [bind, Except.bind]
      rw [page2pa_succ, page2pa_succ, show sizeOf (1 + k) - PGSIZE = sizeOf k from sizeOf_sub hn]
      exact hloop

/-! ## Addresses -/

/-- What a region is to be translated to: the bytes of `[va, va + size)` to those from `pa` on,
the others as before. -/
def translated (m : Phys) (pgdir : Ppn) (va size pa perm v : Word) : Option (Word × Word) :=
  if v - va < size then some (pa + (v - va), granted perm) else va2pa m pgdir v

/-- Both versions of `boot_map_region` end, with that translation at the addresses in `At`. -/
def MapsRegion (m : Phys) (pgdir : Ppn) (va size pa perm : Word) (At : Word → Prop) : Prop :=
  ∃ m1 m2, bootMapRegion m pgdir va size pa perm = .ok m1 ∧
    bootMapRegionPse m pgdir va size pa perm = .ok m2 ∧
    ∀ v, At v → va2pa m1 pgdir v = translated m pgdir va size pa perm v ∧
      va2pa m2 pgdir v = translated m pgdir va size pa perm v

theorem page2pa_or_PGOFF (q : Ppn) (v : Word) :
    (page2pa q ||| PGOFF v).toNat = q.toNat * 4096 + v.toNat % 4096 := by
  have hoff : (PGOFF v).toNat = v.toNat % 4096 := by
    rw [PGOFF, BitVec.toNat_and, show (0xFFF : Word).toNat = 2 ^ 12 - 1 from rfl,
      Nat.and_two_pow_sub_one_eq_mod]
  rw [BitVec.toNat_or, page2pa_toNat, hoff, show q.toNat * 4096 = q.toNat <<< 12 by
    rw [Nat.shiftLeft_eq], Nat.shiftLeft_add_eq_or_of_lt (Nat.mod_lt _ (by decide))]

/-- The translation of a region, from that of its pages. -/
theorem Mapped.va2pa_eq {size pa v : Word}
    (h : Mapped m m' pgdir (PGNUM va) (PGNUM pa) perm (size.toNat / 4096) 0)
    (hva : va.toNat % 4096 = 0) (hpa : pa.toNat % 4096 = 0) (hsize : size.toNat % 4096 = 0)
    (hv : tableAt m pgdir (PDX v) ≠ some pgdir) :
    va2pa m' pgdir v = translated m pgdir va size pa perm v := by
  have hltv := v.isLt
  have hlta := va.isLt
  have hltp := pa.isLt
  have hd : (PGNUM v - PGNUM va).toNat = (2 ^ 20 - va.toNat / 4096 + v.toNat / 4096) % 2 ^ 20 := by
    rw [BitVec.toNat_sub, PGNUM_toNat, PGNUM_toNat]
  have hd' : (v - va).toNat = (2 ^ 32 - va.toNat + v.toNat) % 2 ^ 32 := BitVec.toNat_sub ..
  rw [Jos.va2pa_eq, h.walk _ (PDX_PGNUM v ▸ hv), translated]
  by_cases hin : v - va < size
  · have hlt := BitVec.lt_def.mp hin
    have hpage : (PGNUM v - PGNUM va).toNat < size.toNat / 4096 := by omega
    rw [if_pos hin, if_pos hpage, Option.map_some]
    refine congrArg some (Prod.ext (BitVec.eq_of_toNat_eq ?_) rfl)
    rw [page2pa_or_PGOFF, BitVec.toNat_add, BitVec.toNat_add, PGNUM_toNat, hd, hd']
    omega
  · have hlt := mt BitVec.lt_def.mpr hin
    have hpage : ¬ (PGNUM v - PGNUM va).toNat < size.toNat / 4096 := by omega
    rw [if_neg hin, if_neg hpage, Jos.va2pa_eq]

/-- With and without `TP1_PSE`, `boot_map_region` maps the region it is asked to map and leaves
the other translations as they are, save what is seen through a window onto the directory. -/
theorem boot_map_region_large {size pa : Word} (hva : va.toNat % 4096 = 0)
    (hpa : pa.toNat % 4096 = 0) (hsize : size.toNat % 4096 = 0)
    (hle : va.toNat + size.toNat ≤ 2 ^ 32) (hperm : FlagsOnly perm)
    (h : Mappable m pgdir (PGNUM va) (size.toNat / 4096) perm l) :
    MapsRegion m pgdir va size pa perm fun v => tableAt m pgdir (PDX v) ≠ some pgdir := by
  have hlts := size.isLt
  have hle' : (PGNUM va).toNat + size.toNat / 4096 ≤ 2 ^ 20 := by
    rw [PGNUM_toNat]
    omega
  have hsz : size = sizeOf (size.toNat / 4096) := by
    refine BitVec.eq_of_toNat_eq ?_
    rw [sizeOf_toNat (by omega)]
    omega
  obtain ⟨m1, hloop1, hmapped1⟩ := h.loop hle' hperm (PGNUM pa)
  obtain ⟨m2, hloop2, hmapped2⟩ := h.pseLoop hle' (by omega) (le_refl _) hperm (PGNUM pa)
  rw [page2pa_PGNUM hva, page2pa_PGNUM hpa] at hloop1 hloop2
  rw [← hsz] at hloop2
  refine ⟨m1, m2, hloop1, hloop2, ?_⟩
  intro v hv
  exact ⟨hmapped1.va2pa_eq hva hpa hsize hv, hmapped2.va2pa_eq hva hpa hsize hv⟩

theorem not_mapsRegion {size pa v : Word} {At : Word → Prop} (hv : At v)
    (hne : (bootMapRegion m pgdir va size pa perm).toOption.map (va2pa · pgdir v) ≠
      some (translated m pgdir va size pa perm v)) : ¬ MapsRegion m pgdir va size pa perm At := by
  rintro ⟨m1, m2, h1, -, h⟩
  rw [h1] at hne
  exact hne (congrArg some (h v hv).1)

end

/-- 64 KiB of memory: page 1 is a directory with the entries `pdes`, page 4 an empty page table,
and pages 2 and 3 are free. -/
def smallPhys (pdes : Idx → Word) : Phys where
  npages := 16
  kernPgdir := 1
  pages := fun p => if p = 2 then ⟨some 3, 0⟩ else ⟨none, 0⟩
  pageFreeList := some 2
  mem := fun p i => if p = 1 then pdes i else 0
  handed := []

theorem smallPhys_chain (pdes : Idx → Word) :
    Chain (smallPhys pdes).link (smallPhys pdes).pageFreeList [2, 3] :=
  .cons (.cons .nil)

/-- The directory as `mem_init` begins it, with the window at `UVPT`. -/
def windowPdes (i : Idx) : Word := if i = PDX UVPT then page2pa 1 ||| PTE_U ||| PTE_P else 0

theorem windowPdes_table {i : Idx} {t : Ppn} (h : tableAt (smallPhys windowPdes) 1 i = some t) :
    i = PDX UVPT ∧ t = 1 := by
  have hmem : (smallPhys windowPdes).mem 1 i = windowPdes i := rfl
  rw [tableAt, hmem, windowPdes] at h
  by_cases hi : i = PDX UVPT
  · rw [if_pos hi, if_pos (by decide)] at h
    exact ⟨hi, (Option.some.inj h).symm⟩
  · rw [if_neg hi, if_neg (by decide)] at h
    cases h

/-- The window is not in the way of a region at `KERNBASE`. -/
theorem windowPdes_mappable :
    Mappable (smallPhys windowPdes) 1 (PGNUM KERNBASE) 1025 PTE_W [2, 3] := by
  have hout : ∀ i, InRange (PGNUM KERNBASE) 1025 i → i ∈ ({960, 961} : Finset Idx) := by
    intro i hi
    obtain ⟨h1, h2, -⟩ := hi
    have hbase : (PGNUM KERNBASE).toNat = 983040 := rfl
    rw [hbase] at h1 h2
    have hval : i.val = 960 ∨ i.val = 961 := by omega
    rw [Finset.mem_insert, Finset.mem_singleton]
    exact hval.imp (fun h => Fin.ext h) (fun h => Fin.ext h)
  have hnone : ∀ i t, InRange (PGNUM KERNBASE) 1025 i →
      tableAt (smallPhys windowPdes) 1 i ≠ some t := by
    intro i t hi ht
    have hmem := hout i hi
    rw [(windowPdes_table ht).1] at hmem
    exact absurd hmem (by decide)
  refine ⟨smallPhys_chain windowPdes, ?_, by decide, ?_, ?_, ?_, ?_, ?_⟩
  · intro p hp
    simp only [List.mem_cons, List.not_mem_nil, or_false] at hp
    rcases hp with rfl | rfl <;> decide
  · intro i t ht
    rw [(windowPdes_table ht).2]
    decide
  · intro i hi hvalid
    have hmem : (smallPhys windowPdes).mem 1 i = windowPdes i := rfl
    rw [hmem, windowPdes]
    split <;> decide
  · exact fun i t hi ht => absurd ht (hnone i t hi)
  · exact fun i t hi ht => absurd ht (hnone i t hi)
  · refine (Finset.card_le_card (t := {960, 961}) ?_).trans (by decide)
    intro i hi
    exact hout i (Finset.mem_filter.mp hi).2.1

/-- A large page and a small one at `KERNBASE`. -/
theorem boot_map_region_large_kernbase :
    MapsRegion (smallPhys windowPdes) 1 KERNBASE (PTSIZE + PGSIZE) 0 PTE_W
      fun v => tableAt (smallPhys windowPdes) 1 (PDX v) ≠ some 1 :=
  boot_map_region_large (by decide) (by decide) (by decide) (by decide) (by decide)
    windowPdes_mappable

/-- A directory whose first entry does not allow writing. -/
def readOnlyPdes (i : Idx) : Word := if i = 0 then page2pa 4 ||| PTE_U ||| PTE_P else 0

/-- A directory whose first two entries have the same page table. -/
def sharedPdes (i : Idx) : Word := if i = 0 ∨ i = 1 then newPde 4 else 0

/-- One page, with memory for its page table: through the window at `UVPT` the page table becomes
visible; an entry that does not allow writing makes the page read-only; a page table that is
shared maps the page twice; and a `perm` with more than flags in it maps another page. -/
theorem boot_map_region_elsewhere :
    (∀ i, windowPdes i &&& PTE_PS = 0) ∧ (∀ i, readOnlyPdes i &&& PTE_PS = 0) ∧
      (∀ i, sharedPdes i &&& PTE_PS = 0) ∧
      ¬ MapsRegion (smallPhys windowPdes) 1 KERNBASE PGSIZE 0 PTE_W (fun _ => True) ∧
      ¬ MapsRegion (smallPhys readOnlyPdes) 1 0 PGSIZE 0 (PTE_W ||| PTE_U) (fun _ => True) ∧
      ¬ MapsRegion (smallPhys sharedPdes) 1 0 PGSIZE 0 (PTE_W ||| PTE_U) (fun _ => True) ∧
      ¬ MapsRegion (smallPhys fun _ => 0) 1 0 PGSIZE 0 0x1000 (fun _ => True) := by
  refine ⟨?_, ?_, ?_, ?_, ?_, ?_, ?_⟩
  · intro i
    unfold windowPdes
    split <;> decide
  · intro i
    unfold readOnlyPdes
    split <;> decide
  · intro i
    unfold sharedPdes
    split <;> decide
  · exact not_mapsRegion (v := PGADDR (PDX UVPT) (PDX KERNBASE)) trivial (by decide)
  · exact not_mapsRegion (v := 0) trivial (by decide)
  · exact not_mapsRegion (v := PTSIZE) trivial (by decide)
  · exact not_mapsRegion (v := 0) trivial (by decide)

end SisOp.Jos
