/-
# `SisOp.User.Dup` — `dup` and the descriptors it touches

`dup` checks the number it copies from and not the one it copies to, and closes the
second before it maps anything.  The address space is the mapping of the pages below
`UTOP` with what the system calls look at: the flags, the page tables and the counters of
the physical pages.  `none` stands for a kernel panic.
-/
import SisOp.User.Descriptors

namespace SisOp.User

open SisOp.Jos

/-! ## The address space -/

/-- A present entry of a page table below `UTOP`. -/
structure Pte where
  page : Nat
  flags : Word
  user : flags &&& maskMust = maskMust

/-- The page directory index of a page. -/
def pdx (va : Vpn) : BitVec 10 := va.extractLsb' 10 10

structure Space where
  pte : Vpn → Option Pte
  /-- The page tables that there are. -/
  table : BitVec 10 → Bool
  /-- `pp_ref`. -/
  ppRef : Nat → Nat
  /-- The number of free pages. -/
  free : Nat
  /-- The `fd_dev_id` that stands in an `Fd` page. -/
  devId : Nat → Word
  table_of_pte : ∀ va, (pte va).isSome = true → table (pdx va) = true

theorem must_of_permOk {perm : Word} (h : PermOk perm) : perm &&& maskMust = maskMust := by
  simp only [PermOk, not_or, ne_eq, Decidable.not_not] at h
  exact h.1

/-- The flags of an entry are a permission that `sys_page_map` accepts. -/
theorem permOk_flags (x : Pte) : PermOk (x.flags &&& PTE_SYSCALL) := by
  have hmust : (x.flags &&& PTE_SYSCALL) &&& maskMust = maskMust := by
    rw [BitVec.and_assoc, show PTE_SYSCALL &&& maskMust = maskMust from by decide, x.user]
  have hmay : (x.flags &&& PTE_SYSCALL) &&& ~~~maskMust &&& ~~~maskMay = 0 := by
    rw [BitVec.and_assoc, BitVec.and_assoc, ← BitVec.and_assoc PTE_SYSCALL,
      show PTE_SYSCALL &&& ~~~maskMust &&& ~~~maskMay = 0 from by decide]
    exact BitVec.and_zero
  simp [PermOk, hmust, hmay]

/-- The entry that `dup` makes from one. -/
def Pte.copied (x : Pte) : Pte :=
  ⟨x.page, x.flags &&& PTE_SYSCALL, must_of_permOk (permOk_flags x)⟩

namespace Space

/-- `page_remove`. -/
def remove (s : Space) (va : Vpn) : Space :=
  match s.pte va with
  | none => s
  | some old =>
    { s with
      pte := Function.update s.pte va none
      ppRef := Function.update s.ppRef old.page (s.ppRef old.page - 1)
      free := if s.ppRef old.page = 1 then s.free + 1 else s.free
      table_of_pte := fun a ha => by
        rcases eq_or_ne a va with rfl | hne
        · rw [Function.update_self] at ha
          cases ha
        · rw [Function.update_of_ne hne] at ha
          exact s.table_of_pte a ha }

/-- `pgdir_walk` with `create`; `none` when there is no page for the table. -/
def walk (s : Space) (va : Vpn) : Option Space :=
  if s.table (pdx va) then some s
  else if s.free = 0 then none
  else some { s with
    table := Function.update s.table (pdx va) true
    free := s.free - 1
    table_of_pte := fun a ha => by
      rcases eq_or_ne (pdx a) (pdx va) with heq | hne
      · rw [heq, Function.update_self]
      · rw [Function.update_of_ne hne]
        exact s.table_of_pte a ha }

/-- The store of `page_insert`. -/
def setPte (s : Space) (va : Vpn) (x : Pte) (h : s.table (pdx va) = true) : Space :=
  { s with
    pte := Function.update s.pte va (some x)
    table_of_pte := fun a ha => by
      rcases eq_or_ne a va with rfl | hne
      · exact h
      · rw [Function.update_of_ne hne] at ha
        exact s.table_of_pte a ha }

theorem remove_table (s : Space) (va : Vpn) : (s.remove va).table = s.table := by
  unfold remove
  split <;> rfl

theorem remove_pte (s : Space) (va : Vpn) : (s.remove va).pte = Function.update s.pte va none := by
  unfold remove
  split
  · rename_i hnone
    rw [← hnone, Function.update_eq_self]
  · rfl

theorem remove_devId (s : Space) (va : Vpn) : (s.remove va).devId = s.devId := by
  unfold remove
  split <;> rfl

section

variable {s s' : Space} {va : Vpn}

theorem walk_table (h : s.walk va = some s') : s'.table (pdx va) = true := by
  unfold walk at h
  split at h
  · rename_i htable
    cases h
    exact htable
  · split at h
    · cases h
    · cases h
      exact Function.update_self ..

theorem walk_pte (h : s.walk va = some s') : s'.pte = s.pte := by
  unfold walk at h
  split at h
  · cases h
    rfl
  · split at h
    · cases h
    · cases h
      rfl

/-- The table is there, or there is a page for it. -/
theorem walk_isSome : (s.walk va).isSome = true ↔ s.table (pdx va) = true ∨ s.free ≠ 0 := by
  unfold walk
  by_cases htable : s.table (pdx va) = true
  · simp [htable]
  · by_cases hfree : s.free = 0 <;> simp [htable, hfree]

end

/-- `page_insert`. -/
def insert (s : Space) (x : Pte) (va : Vpn) : Option Space :=
  match h : s.walk va with
  | none => none
  | some s' =>
    have htable : s'.table (pdx va) = true := walk_table h
    some ((remove { s' with ppRef := Function.update s'.ppRef x.page (s'.ppRef x.page + 1) } va).setPte va x
      (by rw [remove_table]; exact htable))

theorem insert_pte {s s' : Space} {x : Pte} {va : Vpn} (h : s.insert x va = some s') :
    s'.pte = Function.update s.pte va (some x) := by
  unfold insert at h
  split at h
  · cases h
  · rename_i s1 hwalk
    cases h
    change Function.update (remove _ va).pte va (some x) = _
    rw [remove_pte, Function.update_idem]
    exact congrArg (Function.update · va (some x)) (walk_pte hwalk)

theorem insert_isSome {s : Space} {x : Pte} {va : Vpn} :
    (s.insert x va).isSome = true ↔ s.table (pdx va) = true ∨ s.free ≠ 0 := by
  rw [← walk_isSome]
  unfold insert
  split
  · rename_i hnone
    simp [hnone]
  · rename_i s1 hwalk
    simp [hwalk]

/-! ## System calls -/

/-- `sys_page_map(0, src, 0, dst, perm)`; a failed `page_insert` ends in `page_free` of a page in use, which
panics. -/
def pageMap (s : Space) (src dst : Vpn) (perm : Word) : Option (Int × Space) :=
  if hperm : PermOk perm then
    if src < UTOPPN ∧ dst < UTOPPN then
      match s.pte src with
      | none => some (-E_INVAL, s)
      | some x =>
        if ¬ Writable x.flags ∧ Writable perm then some (-E_INVAL, s)
        else (s.insert ⟨x.page, perm, must_of_permOk hperm⟩ dst).map fun s' => (0, s')
    else some (-E_INVAL, s)
  else some (-E_INVAL, s)

/-- `sys_page_unmap(0, va)`. -/
def pageUnmap (s : Space) (va : Vpn) : Space := if va < UTOPPN then s.remove va else s

/-- `uvpt[va]`. -/
def uvpt (s : Space) (va : Vpn) : Word := (s.pte va).elim 0 Pte.flags

/-! ## Descriptors -/

/-- `fd_lookup`. -/
def fdLookup (s : Space) (fdnum : Int) : Option Vpn :=
  if fdnum < 0 ∨ fdnum ≥ MAXFD then none
  else if (s.pte (INDEX2FD fdnum)).isSome then some (INDEX2FD fdnum) else none

/-- `devpipe.dev_id`. -/
def devpipe : Word := 0x70

/-- `devpipe_close`. -/
def devpipeClose (s : Space) (fd : Vpn) : Space := (s.pageUnmap fd).pageUnmap (fd2data fd)

/-- `fd_close` of a descriptor that `fd_lookup` found: `devfile_flush` and `devcons_close` unmap nothing. -/
def fdClose (s : Space) (fd : Vpn) : Space :=
  let dev := (s.pte fd).elim 0 fun x => s.devId x.page
  (if dev = devpipe then s.devpipeClose fd else s).pageUnmap fd

/-- `close`. -/
def close (s : Space) (fdnum : Int) : Space :=
  match s.fdLookup fdnum with
  | none => s
  | some fd => s.fdClose fd

/-- The end of `dup` at its label `err`. -/
def dupErr (s : Space) (r : Int) (newfd nva : Vpn) : Option (Int × Space) :=
  some (r, (s.pageUnmap newfd).pageUnmap nva)

/-- The second half of `dup`. -/
def dupFd (s : Space) (oldfd newfd nva : Vpn) (newfdnum : Int) : Option (Int × Space) := do
  let (r, s) ← s.pageMap oldfd newfd (s.uvpt oldfd &&& PTE_SYSCALL)
  if r < 0 then s.dupErr r newfd nva else some (newfdnum, s)

/-- `dup`. -/
def dup (s : Space) (oldfdnum newfdnum : Int) : Option (Int × Space) :=
  match s.fdLookup oldfdnum with
  | none => some (-E_INVAL, s)
  | some oldfd => do
    let s := s.close newfdnum
    let newfd := INDEX2FD newfdnum
    let ova := fd2data oldfd
    let nva := fd2data newfd
    if (s.pte ova).isSome then
      let (r, s) ← s.pageMap ova nva (s.uvpt ova &&& PTE_SYSCALL)
      if r < 0 then s.dupErr r newfd nva else s.dupFd oldfd newfd nva newfdnum
    else s.dupFd oldfd newfd nva newfdnum

/-! ## What the calls do -/

section

variable {s s' : Space} {src dst fd va : Vpn} {x : Pte} {r old new : Int}

theorem pageUnmap_pte (s : Space) (va : Vpn) :
    (s.pageUnmap va).pte = if va < UTOPPN then Function.update s.pte va none else s.pte := by
  unfold pageUnmap
  split
  · exact remove_pte s va
  · rfl

theorem pageUnmap_table (s : Space) (va : Vpn) : (s.pageUnmap va).table = s.table := by
  unfold pageUnmap
  split
  · exact remove_table s va
  · rfl

theorem pageUnmap_devId (s : Space) (va : Vpn) : (s.pageUnmap va).devId = s.devId := by
  unfold pageUnmap
  split
  · exact remove_devId s va
  · rfl

theorem writable_flags (h : Writable (x.flags &&& PTE_SYSCALL)) : Writable x.flags := by
  intro hzero
  refine h ?_
  rw [BitVec.and_assoc, BitVec.and_comm PTE_SYSCALL, ← BitVec.and_assoc, hzero]
  exact BitVec.zero_and

/-- `sys_page_map` of a page with its own permissions, below `UTOP`. -/
theorem pageMap_own (hx : s.pte src = some x) (hsrc : src < UTOPPN) (hdst : dst < UTOPPN) :
    s.pageMap src dst (s.uvpt src &&& PTE_SYSCALL) = (s.insert x.copied dst).map fun s' => (0, s') := by
  have hflags : s.uvpt src = x.flags := by rw [uvpt, hx]; rfl
  unfold pageMap
  rw [hflags, dif_pos (permOk_flags x), if_pos ⟨hsrc, hdst⟩, hx]
  exact if_neg fun h => h.1 (writable_flags h.2)

/-- To a page at `UTOP` or above it fails. -/
theorem pageMap_above (hdst : ¬ dst < UTOPPN) (perm : Word) : s.pageMap src dst perm = some (-E_INVAL, s) := by
  unfold pageMap
  split
  · exact if_neg fun h => hdst h.2
  · rfl

/-- Of a page that is not there it fails. -/
theorem pageMap_none (hx : s.pte src = none) (perm : Word) : s.pageMap src dst perm = some (-E_INVAL, s) := by
  unfold pageMap
  rw [hx]
  split
  · split <;> rfl
  · rfl

end

/-! ## Addresses of descriptors -/

/-- The data page that `dup` computes for a number. -/
def INDEX2DATA (i : Int) : Vpn := fd2data (INDEX2FD i)

def ValidFd (n : Int) : Prop := 0 ≤ n ∧ n < MAXFD

section

variable {s s' : Space} {i j : Fin MAXFD} {n m : Int}

theorem ValidFd.exists_fin (h : ValidFd n) : ∃ i : Fin MAXFD, (i : Int) = n :=
  ⟨⟨n.toNat, by have h2 := h.2; have h1 := h.1; omega⟩, Int.toNat_of_nonneg h.1⟩

theorem va_lt : ∀ i : Fin MAXFD, fdVa i < UTOPPN ∧ dataVa i < UTOPPN := by decide

/-- One page table holds them all. -/
theorem pdx_va : ∀ i j : Fin MAXFD, pdx (fdVa i) = pdx (fdVa j) ∧ pdx (dataVa i) = pdx (fdVa j) := by decide

theorem fdLookup_fin (s : Space) (i : Fin MAXFD) :
    s.fdLookup i = if (s.pte (fdVa i)).isSome then some (fdVa i) else none := by
  have hrange : ¬ ((i : Int) < 0 ∨ (i : Int) ≥ MAXFD) := by
    have hlt := i.isLt
    omega
  exact if_neg hrange

theorem fdLookup_out (s : Space) (h : ¬ ValidFd n) : s.fdLookup n = none := by
  refine if_pos ?_
  unfold ValidFd at h
  omega

end

/-! ## `close` -/

/-- Descriptor `n` is an open pipe. -/
def IsPipe (s : Space) (n : Int) : Prop := ∃ x, s.pte (INDEX2FD n) = some x ∧ s.devId x.page = devpipe

/-- What `close` leaves of a descriptor table. -/
structure Closed (s : Space) (i : Fin MAXFD) (s' : Space) : Prop where
  table : s'.table = s.table
  fd : s'.pte (fdVa i) = none
  data : s'.pte (dataVa i) = none ↔ s.pte (dataVa i) = none ∨ s.IsPipe i
  others : ∀ va, va ≠ fdVa i → va ≠ dataVa i → s'.pte va = s.pte va

theorem closed_close (s : Space) (i : Fin MAXFD) : Closed s i (s.close i) := by
  have hva := va_lt i
  have hne : dataVa i ≠ fdVa i := (fdVa_ne_dataVa i i).symm
  unfold close
  rw [fdLookup_fin]
  by_cases hopen : (s.pte (fdVa i)).isSome = true
  · rw [if_pos hopen]
    obtain ⟨x, hx⟩ := Option.isSome_iff_exists.mp hopen
    have hdev : (s.pte (fdVa i)).elim 0 (fun x => s.devId x.page) = s.devId x.page := by rw [hx]; rfl
    change Closed s i (fdClose s (fdVa i))
    unfold fdClose
    rw [hdev]
    by_cases hpipe : s.devId x.page = devpipe
    · have hisPipe : s.IsPipe i := ⟨x, hx, hpipe⟩
      dsimp only
      rw [if_pos hpipe]
      have hpte : ((s.devpipeClose (fdVa i)).pageUnmap (fdVa i)).pte =
          Function.update (Function.update (Function.update s.pte (fdVa i) none) (dataVa i) none) (fdVa i) none := by
        unfold devpipeClose
        have hdata : fd2data (fdVa i) < UTOPPN := hva.2
        rw [pageUnmap_pte, if_pos hva.1, pageUnmap_pte, if_pos hdata, pageUnmap_pte, if_pos hva.1]
        rfl
      constructor
      · unfold devpipeClose
        rw [pageUnmap_table, pageUnmap_table, pageUnmap_table]
      · rw [hpte, Function.update_self]
      · rw [hpte, Function.update_of_ne hne, Function.update_self]
        exact iff_of_true rfl (.inr hisPipe)
      · intro va hfd hdata
        rw [hpte, Function.update_of_ne hfd, Function.update_of_ne hdata, Function.update_of_ne hfd]
    · have hnotPipe : ¬ s.IsPipe i := by
        rintro ⟨y, hy, hdev'⟩
        cases hx.symm.trans hy
        exact hpipe hdev'
      dsimp only
      rw [if_neg hpipe]
      have hpte : (s.pageUnmap (fdVa i)).pte = Function.update s.pte (fdVa i) none := by
        rw [pageUnmap_pte, if_pos hva.1]
      refine ⟨pageUnmap_table s _, by rw [hpte, Function.update_self], ?_, fun va hfd _ => ?_⟩
      · rw [hpte, Function.update_of_ne hne, or_iff_left hnotPipe]
      · rw [hpte, Function.update_of_ne hfd]
  · rw [if_neg hopen]
    have hnone : s.pte (fdVa i) = none := by simpa using hopen
    refine ⟨rfl, hnone, ⟨.inl, fun h => h.elim id ?_⟩, fun _ _ _ => rfl⟩
    rintro ⟨x, hx, -⟩
    cases hnone.symm.trans hx

theorem close_out {s : Space} {n : Int} (h : ¬ ValidFd n) : s.close n = s := by
  unfold close
  rw [fdLookup_out s h]

/-! ## `dup` -/

/-- The descriptor is open. -/
def IsOpen (s : Space) (n : Int) : Prop := ValidFd n ∧ (s.pte (INDEX2FD n)).isSome = true

/-- The physical page behind an address. -/
def pageAt (s : Space) (va : Vpn) : Option Nat := (s.pte va).map Pte.page

/-- `dup(old, new)` does what it is for: a copy of `old` at `new`, or an error, and nothing else. -/
structure Duplicates (s : Space) (old new : Int) (res : Option (Int × Space)) : Prop where
  returns : ∀ s', res = some (new, s') → ValidFd new ∧
    s'.pageAt (INDEX2FD new) = s.pageAt (INDEX2FD old) ∧
    s'.pageAt (INDEX2DATA new) = s.pageAt (INDEX2DATA old) ∧
    ∀ i : Fin MAXFD, (i : Int) ≠ new → s'.pte (fdVa i) = s.pte (fdVa i) ∧ s'.pte (dataVa i) = s.pte (dataVa i)
  same : s.IsOpen old → old = new → ∃ s', res = some (new, s') ∧ s'.pte = s.pte
  refused : ¬ s.IsOpen old ∨ ¬ ValidFd new → ∃ r s', res = some (r, s') ∧ r < 0 ∧ s'.pte = s.pte

/-- No page below `UTOP` is mapped there. -/
def Unmapped (s : Space) (va : Vpn) : Prop := va < UTOPPN → s.pte va = none

/-- `sys_page_map` finds a page table for the address, or makes one. -/
def HasTable (s : Space) (va : Vpn) : Prop := s.table (pdx va) = true ∨ s.free ≠ 0

/-- A number out of range for which `dup` gets to its error without touching a page. -/
structure Refuses (s : Space) (old new : Int) : Prop where
  fd : s.Unmapped (INDEX2FD new)
  data : s.Unmapped (INDEX2DATA new)
  above : ¬ INDEX2FD new < UTOPPN ∨ (s.pte (INDEX2DATA old)).isSome = true ∧ ¬ INDEX2DATA new < UTOPPN
  room : (s.pte (INDEX2DATA old)).isSome = true → INDEX2DATA new < UTOPPN → s.HasTable (INDEX2DATA new)

section

variable {s s' : Space} {i j : Fin MAXFD} {old new : Int}

theorem fdLookup_open (hopen : (s.pte (fdVa i)).isSome = true) : s.fdLookup i = some (fdVa i) := by
  rw [fdLookup_fin, if_pos hopen]

theorem dup_eq (hopen : (s.pte (fdVa i)).isSome = true) (new : Int) : s.dup i new =
    if ((s.close new).pte (dataVa i)).isSome then
      ((s.close new).pageMap (dataVa i) (INDEX2DATA new) ((s.close new).uvpt (dataVa i) &&& PTE_SYSCALL)).bind
        fun p => if p.1 < 0 then p.2.dupErr p.1 (INDEX2FD new) (INDEX2DATA new)
          else p.2.dupFd (fdVa i) (INDEX2FD new) (INDEX2DATA new) new
    else (s.close new).dupFd (fdVa i) (INDEX2FD new) (INDEX2DATA new) new := by
  unfold dup
  rw [fdLookup_open hopen]
  rfl

/-- The last call of `dup`, where it succeeds. -/
theorem dupFd_ok {x : Pte} {oldfd newfd : Vpn} (nva : Vpn) (hx : s.pte oldfd = some x) (hold : oldfd < UTOPPN)
    (hnew : newfd < UTOPPN) (htable : s.table (pdx newfd) = true) (n : Int) :
    ∃ s', s.dupFd oldfd newfd nva n = some (n, s') ∧ s'.pte = Function.update s.pte newfd (some x.copied) := by
  obtain ⟨s', hins⟩ := Option.isSome_iff_exists.mp
    (insert_isSome.mpr (.inl htable) : (s.insert x.copied newfd).isSome = true)
  refine ⟨s', ?_, insert_pte hins⟩
  unfold dupFd
  rw [pageMap_own hx hold hnew, hins]
  rfl

theorem dupFd_none {oldfd : Vpn} (hx : s.pte oldfd = none) (newfd nva : Vpn) (n : Int) :
    s.dupFd oldfd newfd nva n = s.dupErr (-E_INVAL) newfd nva := by
  unfold dupFd
  rw [pageMap_none hx]
  rfl

theorem dupFd_above {newfd : Vpn} (hnew : ¬ newfd < UTOPPN) (oldfd nva : Vpn) (n : Int) :
    s.dupFd oldfd newfd nva n = s.dupErr (-E_INVAL) newfd nva := by
  unfold dupFd
  rw [pageMap_above hnew]
  rfl

/-- `dup` to another number in range. -/
theorem dup_fin (hopen : (s.pte (fdVa i)).isSome = true) (hij : i ≠ j) : ∃ s', s.dup i j = some ((j : Int), s') ∧
    s'.pageAt (fdVa j) = s.pageAt (fdVa i) ∧
    (s'.pageAt (dataVa j) = s.pageAt (dataVa i) ↔
      (s.pte (dataVa i)).isSome = true ∨ s.pte (dataVa j) = none ∨ s.IsPipe j) ∧
    ∀ va, va ≠ fdVa j → va ≠ dataVa j → s'.pte va = s.pte va := by
  have hc := closed_close s j
  have hfd : fdVa i ≠ fdVa j := fun h => hij (fdVa_inj.mp h)
  have hdata : dataVa i ≠ dataVa j := fun h => hij (dataVa_inj.mp h)
  have hcross := fdVa_ne_dataVa i j
  have hcross' : dataVa i ≠ fdVa j := (fdVa_ne_dataVa j i).symm
  have hself : dataVa j ≠ fdVa j := (fdVa_ne_dataVa j j).symm
  obtain ⟨x, hx⟩ := Option.isSome_iff_exists.mp hopen
  have hx1 : (s.close j).pte (fdVa i) = some x := (hc.others _ hfd hcross).trans hx
  have htable : ∀ s' : Space, s'.pte (fdVa i) = some x → s'.table (pdx (fdVa j)) = true ∧ s'.table (pdx (dataVa j)) = true := by
    intro s' h
    have hi := s'.table_of_pte (fdVa i) (by rw [h]; rfl)
    rw [(pdx_va j i).2, (pdx_va j i).1]
    exact ⟨hi, hi⟩
  have hpage : s.pageAt (fdVa i) = some x.page := by rw [pageAt, hx]; rfl
  have hdata1 : (s.close j).pte (dataVa i) = s.pte (dataVa i) := hc.others _ hcross' hdata
  rw [dup_eq hopen]
  cases hy : s.pte (dataVa i) with
  | none =>
    obtain ⟨s', hrun, hpte⟩ := dupFd_ok (INDEX2DATA j) hx1 (va_lt i).1 (va_lt j).1 (htable _ hx1).1 j
    refine ⟨s', ?_, ?_, ?_, fun va hva hva' => ?_⟩
    · have hnone : ¬ ((s.close j).pte (dataVa i)).isSome = true := by
        rw [hdata1, hy]
        exact Bool.false_ne_true
      rw [if_neg hnone]
      exact hrun
    · rw [hpage, pageAt, hpte, Function.update_self]
      rfl
    · have hnone : s.pageAt (dataVa i) = none := by rw [pageAt, hy]; rfl
      rw [hnone, pageAt, hpte, Function.update_of_ne hself, Option.map_eq_none_iff, hc.data]
      exact (or_iff_right Bool.false_ne_true).symm
    · rw [hpte, Function.update_of_ne hva, hc.others _ hva hva']
  | some z =>
    have hz1 : (s.close j).pte (dataVa i) = some z := hdata1.trans hy
    obtain ⟨s2, hins⟩ := Option.isSome_iff_exists.mp
      (insert_isSome.mpr (.inl (htable _ hx1).2) : ((s.close j).insert z.copied (dataVa j)).isSome = true)
    have hpte2 := insert_pte hins
    have hx2 : s2.pte (fdVa i) = some x := by rw [hpte2, Function.update_of_ne hcross, hx1]
    obtain ⟨s', hrun, hpte⟩ := dupFd_ok (INDEX2DATA j) hx2 (va_lt i).1 (va_lt j).1 (htable _ hx2).1 j
    refine ⟨s', ?_, ?_, ?_, fun va hva hva' => ?_⟩
    · have hmap := pageMap_own hz1 (va_lt i).2 (va_lt j).2
      rw [hins] at hmap
      rw [hz1, if_pos (show (some z).isSome = true from rfl)]
      change (pageMap _ (dataVa i) (dataVa j) _).bind _ = _
      rw [hmap]
      exact hrun
    · rw [hpage, pageAt, hpte, Function.update_self]
      rfl
    · refine iff_of_true ?_ (.inl rfl)
      rw [pageAt, hpte, Function.update_of_ne hself, hpte2, Function.update_self, pageAt, hy]
      rfl
    · rw [hpte, Function.update_of_ne hva, hpte2, Function.update_of_ne hva', hc.others _ hva hva']

/-- `dup` to another number in range: with a data page, or to a slot without one. -/
theorem duplicates_fin (hopen : (s.pte (fdVa i)).isSome = true) (hij : i ≠ j) :
    Duplicates s i j (s.dup i j) ↔ (s.pte (dataVa i)).isSome = true ∨ s.pte (dataVa j) = none ∨ s.IsPipe j := by
  obtain ⟨s', hrun, hfd, hdata, hothers⟩ := dup_fin hopen hij
  rw [hrun, ← hdata]
  constructor
  · intro h
    exact (h.returns s' rfl).2.2.1
  · intro h
    have hrange : ∀ k : Fin MAXFD, ValidFd k := fun k => by
      have hlt := k.isLt
      exact ⟨by omega, by omega⟩
    refine ⟨fun s2 hs2 => ?_, fun _ heq => absurd (Fin.ext (by omega)) hij, fun hbad => ?_⟩
    · cases hs2
      refine ⟨hrange j, hfd, h, fun k hk => ?_⟩
      have hkj : k ≠ j := fun heq => hk (heq ▸ rfl)
      exact ⟨hothers _ (fun heq => hkj (fdVa_inj.mp heq)) (fdVa_ne_dataVa k j),
        hothers _ (fdVa_ne_dataVa j k).symm fun heq => hkj (dataVa_inj.mp heq)⟩
    · exact absurd hbad (not_or.mpr ⟨not_not.mpr ⟨hrange i, hopen⟩, not_not.mpr (hrange j)⟩)

/-- `dup` onto itself: `close` unmaps the page that is to be mapped again. -/
theorem not_duplicates_self (hopen : (s.pte (fdVa i)).isSome = true) : ¬ Duplicates s i i (s.dup i i) := by
  intro h
  have hc := closed_close s i
  have hlt := i.isLt
  obtain ⟨s', hrun, -⟩ := h.same ⟨⟨by omega, by omega⟩, hopen⟩ rfl
  have herr : ∀ t : Space, t.pte (fdVa i) = none →
      t.dupFd (fdVa i) (INDEX2FD i) (INDEX2DATA i) i ≠ some ((i : Int), s') := by
    intro t ht heq
    rw [dupFd_none ht] at heq
    have hcode : -E_INVAL = (i : Int) := congrArg Prod.fst (Option.some.inj heq)
    have hE : E_INVAL = 3 := rfl
    omega
  rw [dup_eq hopen] at hrun
  split at hrun
  · rename_i hsome
    obtain ⟨z, hz⟩ := Option.isSome_iff_exists.mp hsome
    have hmap := pageMap_own hz (va_lt i).2 (va_lt i).2
    change (pageMap _ (dataVa i) (dataVa i) _).bind _ = _ at hrun
    rw [hmap] at hrun
    cases hins : (s.close i).insert z.copied (dataVa i) with
    | none =>
      rw [hins] at hrun
      cases hrun
    | some s2 =>
      rw [hins] at hrun
      refine herr s2 ?_ hrun
      rw [insert_pte hins, Function.update_of_ne (fdVa_ne_dataVa i i), hc.fd]
  · exact herr _ hc.fd hrun

theorem unmap_eq_self (f : Vpn → Option Pte) (a b : Vpn) :
    Function.update (Function.update f a none) b none = f ↔ f a = none ∧ f b = none := by
  constructor
  · intro h
    have ha := congrFun h a
    have hb := congrFun h b
    rw [Function.update_self] at hb
    by_cases hab : a = b
    · exact ⟨hab ▸ hb.symm, hb.symm⟩
    · rw [Function.update_of_ne hab, Function.update_self] at ha
      exact ⟨ha.symm, hb.symm⟩
  · rintro ⟨ha, hb⟩
    rw [← ha, Function.update_eq_self, ha, ← hb, Function.update_eq_self]

/-- Where `dup` ends after an error. -/
theorem dupErr_pte (s : Space) (newfd nva : Vpn) : ∃ s', s.dupErr (-E_INVAL) newfd nva = some (-E_INVAL, s') ∧
    (s'.pte = s.pte ↔ s.Unmapped newfd ∧ s.Unmapped nva) := by
  refine ⟨_, rfl, ?_⟩
  rw [pageUnmap_pte, pageUnmap_pte]
  unfold Unmapped
  by_cases ha : newfd < UTOPPN <;> by_cases hb : nva < UTOPPN
  · rw [if_pos hb, if_pos ha, unmap_eq_self]
    simp [ha, hb]
  · rw [if_neg hb, if_pos ha, Function.update_eq_self_iff]
    simp [ha, hb, eq_comm]
  · rw [if_pos hb, if_neg ha, Function.update_eq_self_iff]
    simp [ha, hb, eq_comm]
  · rw [if_neg hb, if_neg ha]
    simp [ha, hb]

section

variable (hnew : ¬ ValidFd new)

include hnew

theorem duplicates_error (hne : new ≠ -E_INVAL) :
    Duplicates s old new (some (-E_INVAL, s')) ↔ s'.pte = s.pte := by
  constructor
  · intro h
    obtain ⟨r, s2, hres, -, hpte⟩ := h.refused (.inr hnew)
    cases hres
    exact hpte
  · intro hpte
    refine ⟨fun s2 h => ?_, fun hopen heq => absurd (heq ▸ hopen.1) hnew, fun _ => ⟨_, s', rfl, by decide, hpte⟩⟩
    cases h
    exact absurd rfl hne

theorem not_duplicates {res : Option (Int × Space)} (h : ∀ r s', res = some (r, s') → r = new) :
    ¬ Duplicates s old new res := by
  intro hdup
  obtain ⟨r, s2, hres, -, -⟩ := hdup.refused (.inr hnew)
  obtain rfl := h r s2 hres
  exact hnew (hdup.returns s2 hres).1

/-- Below `UTOP` the last call maps the page, or the kernel panics. -/
theorem dupFd_below {oldfd newfd nva : Vpn} {t : Space} (hx : (t.pte oldfd).isSome = true) (hold : oldfd < UTOPPN)
    (hlt : newfd < UTOPPN) : ¬ Duplicates s old new (t.dupFd oldfd newfd nva new) := by
  obtain ⟨x, hx⟩ := Option.isSome_iff_exists.mp hx
  refine not_duplicates hnew fun r s2 h => ?_
  unfold dupFd at h
  rw [pageMap_own hx hold hlt] at h
  cases hins : t.insert x.copied newfd with
  | none =>
    rw [hins] at h
    cases h
  | some t' =>
    rw [hins] at h
    cases h
    rfl

theorem duplicates_out (hopen : (s.pte (fdVa i)).isSome = true) :
    Duplicates s i new (s.dup i new) ↔ s.Refuses i new := by
  have hcode : ¬ INDEX2FD new < UTOPPN ∨ ¬ INDEX2DATA new < UTOPPN → new ≠ -E_INVAL := by
    rintro h rfl
    exact absurd h (by decide)
  rw [dup_eq hopen, close_out hnew]
  cases hz : s.pte (dataVa i) with
  | none =>
    rw [if_neg (show ¬ (none : Option Pte).isSome = true from Bool.false_ne_true)]
    by_cases hfd : INDEX2FD new < UTOPPN
    · refine iff_of_false (dupFd_below hnew hopen (va_lt i).1 hfd) fun h => ?_
      rcases h.above with habove | ⟨hdata, -⟩
      · exact habove hfd
      · rw [show INDEX2DATA i = dataVa i from rfl, hz] at hdata
        cases hdata
    · obtain ⟨s', herr, hpte⟩ := dupErr_pte s (INDEX2FD new) (INDEX2DATA new)
      rw [dupFd_above hfd, herr, duplicates_error hnew (hcode (.inl hfd)), hpte]
      refine ⟨fun h => ⟨h.1, h.2, .inl hfd, fun hdata => ?_⟩, fun h => ⟨h.fd, h.data⟩⟩
      rw [show INDEX2DATA i = dataVa i from rfl, hz] at hdata
      cases hdata
  | some z =>
    rw [if_pos (show (some z).isSome = true from rfl)]
    by_cases hdata : INDEX2DATA new < UTOPPN
    · rw [pageMap_own hz (va_lt i).2 hdata]
      cases hins : s.insert z.copied (INDEX2DATA new) with
      | none =>
        refine iff_of_false (not_duplicates hnew fun r s' h => by cases h) fun h => ?_
        have hroom : (s.insert z.copied (INDEX2DATA new)).isSome = true :=
          insert_isSome.mpr (h.room (by rw [show INDEX2DATA i = dataVa i from rfl, hz]; rfl) hdata)
        rw [hins] at hroom
        cases hroom
      | some s2 =>
        have hroom : s.HasTable (INDEX2DATA new) := insert_isSome.mp (by rw [hins]; rfl)
        have hpte2 := insert_pte hins
        change Duplicates s i new (s2.dupFd _ _ _ _) ↔ _
        by_cases hfd : INDEX2FD new < UTOPPN
        · have hx2 : (s2.pte (fdVa i)).isSome = true := by
            rw [hpte2, Function.update_apply]
            split
            · rfl
            · exact hopen
          refine iff_of_false (dupFd_below hnew hx2 (va_lt i).1 hfd) fun h => ?_
          rcases h.above with habove | ⟨-, habove⟩
          · exact habove hfd
          · exact habove hdata
        · have hpte : ((s2.pageUnmap (INDEX2FD new)).pageUnmap (INDEX2DATA new)).pte = s.pte ↔
              s.pte (INDEX2DATA new) = none := by
            rw [pageUnmap_pte, if_pos hdata, pageUnmap_pte, if_neg hfd, hpte2, Function.update_idem,
              Function.update_eq_self_iff, eq_comm]
          rw [dupFd_above hfd]
          unfold dupErr
          rw [duplicates_error hnew (hcode (.inl hfd)), hpte]
          refine ⟨fun h => ⟨fun hlt => absurd hlt hfd, fun _ => h, .inl hfd, fun _ _ => hroom⟩, fun h => h.data hdata⟩
    · obtain ⟨s', herr, hpte⟩ := dupErr_pte s (INDEX2FD new) (INDEX2DATA new)
      rw [pageMap_above hdata]
      change Duplicates s i new (s.dupErr (-E_INVAL) _ _) ↔ _
      rw [herr, duplicates_error hnew (hcode (.inr hdata)), hpte]
      refine ⟨fun h => ⟨h.1, h.2, .inr ⟨?_, hdata⟩, fun _ hlt => absurd hlt hdata⟩, fun h => ⟨h.fd, h.data⟩⟩
      rw [show INDEX2DATA i = dataVa i from rfl, hz]
      rfl

end

theorem duplicates_closed (hold : ¬ s.IsOpen old) : Duplicates s old new (s.dup old new) ↔ new ≠ -E_INVAL := by
  have hlook : s.fdLookup old = none := by
    by_cases hrange : ValidFd old
    · obtain ⟨i, rfl⟩ := hrange.exists_fin
      have hclosed : ¬ (s.pte (fdVa i)).isSome = true := fun h => hold ⟨hrange, h⟩
      rw [fdLookup_fin, if_neg hclosed]
    · exact fdLookup_out s hrange
  have hdup : s.dup old new = some (-E_INVAL, s) := by
    unfold dup
    rw [hlook]
  rw [hdup]
  constructor
  · rintro h rfl
    exact absurd (h.returns s rfl).1 (by unfold ValidFd; decide)
  · intro hne
    refine ⟨fun s' h => ?_, fun h _ => absurd h hold, fun _ => ⟨_, s, rfl, by decide, rfl⟩⟩
    cases h
    exact absurd rfl hne

end

/-- The calls of `dup` that do what they are for. -/
structure Works (s : Space) (old new : Int) : Prop where
  closed : ¬ s.IsOpen old → new ≠ -E_INVAL
  inRange : s.IsOpen old → ValidFd new → old ≠ new ∧
    ((s.pte (INDEX2DATA old)).isSome = true ∨ s.pte (INDEX2DATA new) = none ∨ s.IsPipe new)
  outOfRange : s.IsOpen old → ¬ ValidFd new → s.Refuses old new

end Space

open Space in
/-- `dup` affects only its target exactly when the numbers are different and the data page of the target
is replaced or unmapped, or the target is out of range and the calls fail at once. -/
theorem dup_duplicates_iff (s : Space) (old new : Int) : Duplicates s old new (s.dup old new) ↔ s.Works old new := by
  by_cases hold : s.IsOpen old
  · obtain ⟨i, rfl⟩ := hold.1.exists_fin
    by_cases hnew : ValidFd new
    · obtain ⟨j, rfl⟩ := hnew.exists_fin
      by_cases hij : i = j
      · subst hij
        exact iff_of_false (not_duplicates_self hold.2) fun h => (h.inRange hold hnew).1 rfl
      · rw [duplicates_fin hold.2 hij]
        have hne : (i : Int) ≠ (j : Int) := fun h => hij (Fin.ext (by omega))
        exact ⟨fun h => ⟨fun hno => absurd hold hno, fun _ _ => ⟨hne, h⟩, fun _ hno => absurd hnew hno⟩,
          fun h => (h.inRange hold hnew).2⟩
    · rw [duplicates_out hnew hold.2]
      exact ⟨fun h => ⟨fun hno => absurd hold hno, fun _ hin => absurd hin hnew, fun _ _ => h⟩,
        fun h => h.outOfRange hold hnew⟩
  · rw [duplicates_closed hold]
    exact ⟨fun h => ⟨fun _ => h, fun hin => absurd hin hold, fun hin => absurd hin hold⟩, fun h => h.closed hold⟩

/-- Descriptor 0 is the console. -/
def console : Space where
  pte va := if va = FDTABLE then some ⟨1, PTE_P ||| PTE_U ||| PTE_W, by decide⟩ else none
  table di := di = pdx FDTABLE
  ppRef page := if page = 1 then 1 else 0
  free := 0
  devId _ := 0x63
  table_of_pte va h := by
    split at h
    · rename_i hva
      simp [hva]
    · cases h

/-- `dup(0, 0)`. -/
theorem not_duplicates_console : ¬ ∀ (s : Space) (old new : Int), Space.Duplicates s old new (s.dup old new) :=
  fun h => Space.not_duplicates_self (i := ⟨0, by decide⟩) (by decide) (h console 0 0)

end SisOp.User
