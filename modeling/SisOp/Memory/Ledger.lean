/-
# `SisOp.Memory.Ledger` — counters, free list and page tables together

A physical page is referred to from three kinds of places (`Ref`): an
environment's `env_pgdir`, an entry of such a directory below `UTOP`, and an entry
of a page table these point to.  `target` reads all of them off the memory, and
`Ledger` is the pool invariant of `SisOp.Lib.RefPool` for it: directories and page
tables are the `Sole` slots, the pages of the kernel the `Fixed` ones.

The second half says what one store to memory does to `target` and to `entry`, the
page table entries themselves: a store to a page table rewrites one slot
(`target_store_pte`), a directory entry with no entries below it is one slot too
(`target_store_pde`), and so is `env_pgdir` (`target_set_dir`).
-/
import SisOp.Jos.Effects
import SisOp.Lib.RefPool
import Mathlib.Tactic.DeriveFintype
import Mathlib.Data.Fintype.Sigma
import Mathlib.Data.Fintype.Sum

namespace SisOp.Jos

open SisOp.Lib

/-! ## References -/

/-- A place that refers to a physical page. -/
inductive Ref
  /-- `env_pgdir`. -/
  | dir (e : Slot)
  /-- A directory entry below `UTOP`. -/
  | table (e : Slot) (i : Idx)
  /-- An entry of the page table at directory index `i`. -/
  | user (e : Slot) (i j : Idx)
  deriving DecidableEq, Fintype

/-- The references that make the page a directory or a page table. -/
def Ref.IsTable : Ref → Prop
  | .dir _ => True
  | .table _ _ => True
  | .user _ _ _ => False

/-- The page tables below `UTOP`. -/
def tableOf (dirs : Slot → Option Ppn) (m : Phys) (e : Slot) (i : Idx) : Option Ppn :=
  if UserPdx i then
    (dirs e).bind fun d => if PTE_VALID (m.mem d i) then some (PGNUM (m.mem d i)) else none
  else none

/-- The present page table entries below `UTOP`: what an environment has mapped. -/
def entry (dirs : Slot → Option Ppn) (m : Phys) (e : Slot) (i j : Idx) : Option Word :=
  (tableOf dirs m e i).bind fun t => if PTE_VALID (m.mem t j) then some (m.mem t j) else none

/-- The mappings with one entry replaced. -/
def setEntry (f : Slot → Idx → Idx → Option Word) (e : Slot) (i j : Idx) (x : Option Word) :
    Slot → Idx → Idx → Option Word :=
  fun e' i' j' => if e' = e ∧ i' = i ∧ j' = j then x else f e' i' j'

/-- The page each place refers to. -/
def target (dirs : Slot → Option Ppn) (m : Phys) : Ref → Option Ppn
  | .dir e => dirs e
  | .table e i => tableOf dirs m e i
  | .user e i j => (entry dirs m e i j).map PGNUM

/-- `p` is a page directory or a page table. -/
def IsTab (dirs : Slot → Option Ppn) (m : Phys) (p : Ppn) : Prop :=
  ∃ r : Ref, r.IsTable ∧ target dirs m r = some p

/-- How often `p` is referred to. -/
abbrev uses (dirs : Slot → Option Ppn) (m : Phys) (held : List Ppn) (p : Ppn) : Nat :=
  total (target dirs m) held p

/-- The flags an entry must have for a store in user mode. -/
def userWrite : Word := PTE_P ||| PTE_W ||| PTE_U

/-- Above `UTOP` every directory is a copy of the kernel's, through which nothing can be
written in user mode.  `K` are the pages the kernel keeps to itself. -/
structure KernPart (K : Ppn → Prop) (dirs : Slot → Option Ppn) (m : Phys) : Prop where
  kern : K m.kernPgdir
  blank : ∀ i, UserPdx i → ¬ PTE_VALID (m.mem m.kernPgdir i)
  upper : ∀ e d i, dirs e = some d → ¬ UserPdx i → m.mem d i =
    if i = PDX UVPT then page2pa d ||| PTE_P ||| PTE_U else m.mem m.kernPgdir i
  shield : ∀ i, ¬ UserPdx i → i ≠ PDX UVPT → PTE_VALID (m.mem m.kernPgdir i) →
    K (PGNUM (m.mem m.kernPgdir i)) ∧
      ∀ j, m.mem (PGNUM (m.mem m.kernPgdir i)) j &&& userWrite ≠ userWrite

/-- The memory invariant: `held` are the references a function is about to store, `l` is the
free list. -/
structure Ledger (K : Ppn → Prop) (dirs : Slot → Option Ppn) (held l : List Ppn) (m : Phys) :
    Prop extends KernPart K dirs m where
  pool : Pool K Ref.IsTable (target dirs m) held (fun p => (m.pages p).ppRef)
    (fun p => (m.pages p).ppLink) m.pageFreeList l
  bound : ∀ p, p ∈ l ∨ 0 < uses dirs m held p → p.toNat < m.npages

section

variable {K : Ppn → Prop} {dirs : Slot → Option Ppn} {held l : List Ppn} {m m' : Phys}
  {e : Slot} {i j : Idx} {p d t : Ppn} {w : Word}

theorem tableOf_some : tableOf dirs m e i = some t ↔
    UserPdx i ∧ ∃ d, dirs e = some d ∧ PTE_VALID (m.mem d i) ∧ PGNUM (m.mem d i) = t := by
  unfold tableOf
  by_cases hi : UserPdx i
  · simp [hi, Option.bind_eq_some_iff]
  · simp [hi]

theorem tableOf_none_of_not_user (hi : ¬ UserPdx i) : tableOf dirs m e i = none := by
  rw [tableOf, if_neg hi]

theorem entry_some : entry dirs m e i j = some w ↔
    ∃ t, tableOf dirs m e i = some t ∧ PTE_VALID (m.mem t j) ∧ m.mem t j = w := by
  simp [entry, Option.bind_eq_some_iff]

theorem entry_valid (h : entry dirs m e i j = some w) : PTE_VALID w := by
  obtain ⟨t, -, hv, rfl⟩ := entry_some.mp h
  exact hv

theorem entry_of_table (h : tableOf dirs m e i = some t) :
    entry dirs m e i j = if PTE_VALID (m.mem t j) then some (m.mem t j) else none := by
  rw [entry, h]
  rfl

theorem entry_none_of_table (h : tableOf dirs m e i = none) : entry dirs m e i j = none := by
  rw [entry, h]
  rfl

theorem setEntry_self (f : Slot → Idx → Idx → Option Word) (e : Slot) (i j : Idx)
    (x : Option Word) : setEntry f e i j x e i j = x := by
  simp [setEntry]

theorem setEntry_of_ne {f : Slot → Idx → Idx → Option Word} {e' : Slot} {i' j' : Idx}
    {x : Option Word} (h : ¬ (e' = e ∧ i' = i ∧ j' = j)) :
    setEntry f e i j x e' i' j' = f e' i' j' := if_neg h

theorem setEntry_setEntry (f : Slot → Idx → Idx → Option Word) (e : Slot) (i j : Idx)
    (x y : Option Word) : setEntry (setEntry f e i j x) e i j y = setEntry f e i j y := by
  funext e' i' j'
  by_cases h : e' = e ∧ i' = i ∧ j' = j
  · obtain ⟨rfl, rfl, rfl⟩ := h
    rw [setEntry_self, setEntry_self]
  · rw [setEntry_of_ne h, setEntry_of_ne h, setEntry_of_ne h]

theorem target_user (h : entry dirs m e i j = some w) :
    target dirs m (.user e i j) = some (PGNUM w) := by
  rw [target, h]
  rfl

/-- The pages of the kernel and the upper halves of the directories are not written. -/
theorem KernPart.congr (h : KernPart K dirs m) (hk : m'.kernPgdir = m.kernPgdir)
    (hmem : ∀ q, K q → m'.mem q = m.mem q)
    (hdir : ∀ e d i, dirs e = some d → ¬ UserPdx i → m'.mem d i = m.mem d i) :
    KernPart K dirs m' where
  kern := hk ▸ h.kern
  blank := fun i hi => by
    rw [hk, hmem _ h.kern]
    exact h.blank i hi
  upper := fun e d i hd hi => by
    rw [hdir e d i hd hi, hk, hmem _ h.kern]
    exact h.upper e d i hd hi
  shield := fun i hi hne hv => by
    rw [hk, hmem _ h.kern] at hv ⊢
    obtain ⟨hK, hflags⟩ := h.shield i hi hne hv
    refine ⟨hK, fun j => ?_⟩
    rw [hmem _ hK]
    exact hflags j

namespace Ledger

/-- A mapped page is no directory and no page table. -/
theorem not_isTab_of_user (h : Ledger K dirs held l m)
    (hu : target dirs m (.user e i j) = some p) : ¬ IsTab dirs m p := by
  rintro ⟨r, hr, hp⟩
  have hone := h.pool.sole r p hr hp
  have hle : refs (target dirs m) p ≤ 1 := by
    rw [total] at hone
    omega
  have heq := refs_unique hle hp hu
  subst heq
  exact hr

/-- A directory or page table has one place. -/
theorem sole_ref (h : Ledger K dirs held l m) {r r' : Ref} (hr : r.IsTable)
    (hp : target dirs m r = some p) (hp' : target dirs m r' = some p) : r' = r := by
  have hone := h.pool.sole r p hr hp
  have hle : refs (target dirs m) p ≤ 1 := by
    rw [total] at hone
    omega
  exact refs_unique hle hp' hp

/-- A page on the free list is not referred to. -/
theorem free_unused (h : Ledger K dirs held l m) (hp : p ∈ l) (r : Ref) :
    target dirs m r ≠ some p :=
  (total_eq_zero.mp (h.pool.free p hp)).1 r

/-- A page that is referred to is no page of the kernel. -/
theorem not_kernel (h : Ledger K dirs held l m) {r : Ref} (hr : target dirs m r = some p) :
    ¬ K p := h.pool.not_fixed (total_pos hr)

theorem kern_ne (h : Ledger K dirs held l m) {r : Ref} (hr : target dirs m r = some p) :
    p ≠ m.kernPgdir := fun heq => by
  have h0 := (h.pool.fixed m.kernPgdir h.kern).2
  exact (total_eq_zero.mp h0).1 r (heq ▸ hr)

end Ledger

/-! ## Stores -/

theorem store_mem (m : Phys) (q : PtePtr) (w : Word) :
    (m.store q w).mem = Function.update m.mem q.1 (Function.update (m.mem q.1) q.2 w) := rfl

@[simp] theorem fill_mem (m : Phys) (p : Ppn) (ws : Idx → Word) :
    (m.fill p ws).mem = Function.update m.mem p ws := rfl

@[simp] theorem setRef_mem (m : Phys) (p : Ppn) (r : BitVec 16) : (m.setRef p r).mem = m.mem := rfl

@[simp] theorem incref_mem (m : Phys) (p : Ppn) : (m.incref p).mem = m.mem := rfl

@[simp] theorem setLink_mem (m : Phys) (p : Ppn) (x : Option Ppn) : (m.setLink p x).mem = m.mem :=
  rfl

/-- A word that is not stored to. -/
theorem store_mem_of_ne {q : PtePtr} (h : p ≠ q.1 ∨ i ≠ q.2) : (m.store q w).mem p i = m.mem p i := by
  rcases eq_or_ne p q.1 with rfl | hp
  · have hi : i ≠ q.2 := h.resolve_left fun hne => hne rfl
    rw [store_mem, Function.update_self, Function.update_of_ne hi]
  · rw [store_mem, Function.update_of_ne hp]

/-- A page that is not stored to. -/
theorem store_mem_of_ne' {q : PtePtr} (h : p ≠ q.1) : (m.store q w).mem p = m.mem p := by
  rw [store_mem, Function.update_of_ne h]

theorem store_mem_self (m : Phys) (p : Ppn) (i : Idx) (w : Word) :
    (m.store (p, i) w).mem p i = w := by
  rw [store_mem, Function.update_self, Function.update_self]

/-- The places only read the directories below `UTOP` and the page tables. -/
theorem tableOf_congr (hdir : ∀ e d i, dirs e = some d → UserPdx i → m'.mem d i = m.mem d i) :
    tableOf dirs m' = tableOf dirs m := by
  funext e i
  unfold tableOf
  by_cases hi : UserPdx i
  · cases hd : dirs e with
    | none => rfl
    | some d => simp [hi, hdir e d i hd hi]
  · simp [hi]

theorem entry_congr (hdir : ∀ e d i, dirs e = some d → UserPdx i → m'.mem d i = m.mem d i)
    (htab : ∀ e i t j, tableOf dirs m e i = some t → m'.mem t j = m.mem t j) :
    entry dirs m' = entry dirs m := by
  funext e i j
  rw [entry, entry, tableOf_congr hdir]
  cases ht : tableOf dirs m e i with
  | none => rfl
  | some t => simp [htab e i t j ht]

theorem target_congr (htab : tableOf dirs m' = tableOf dirs m)
    (hent : entry dirs m' = entry dirs m) : target dirs m' = target dirs m := by
  funext r
  cases r <;> simp [target, htab, hent]

/-- Pages that are neither directories nor page tables may be written. -/
theorem entry_write_data (dirs : Slot → Option Ppn) (m m' : Phys)
    (hmem : ∀ q, IsTab dirs m q → m'.mem q = m.mem q) :
    tableOf dirs m' = tableOf dirs m ∧ entry dirs m' = entry dirs m := by
  have hdir : ∀ e d i, dirs e = some d → UserPdx i → m'.mem d i = m.mem d i := fun e d i hd _ => by
    rw [hmem d ⟨.dir e, trivial, hd⟩]
  refine ⟨tableOf_congr hdir, entry_congr hdir fun e i t j ht => ?_⟩
  rw [hmem t ⟨.table e i, trivial, ht⟩]

/-- The new value of one place. -/
theorem target_of_entry_update {x : Option Word}
    (htab : tableOf dirs m' = tableOf dirs m)
    (hent : entry dirs m' = setEntry (entry dirs m) e i j x) :
    target dirs m' = Function.update (target dirs m) (.user e i j) (x.map PGNUM) := by
  funext r
  cases r with
  | dir e' => rw [Function.update_of_ne (by simp)]; rfl
  | table e' i' =>
      rw [Function.update_of_ne (by simp)]
      simp [target, htab]
  | user e' i' j' =>
      by_cases heq : e' = e ∧ i' = i ∧ j' = j
      · obtain ⟨rfl, rfl, rfl⟩ := heq
        rw [Function.update_self, target, hent, setEntry_self]
      · have hne : Ref.user e' i' j' ≠ .user e i j := fun h => by
          cases h
          exact heq ⟨rfl, rfl, rfl⟩
        rw [Function.update_of_ne hne, target, hent, setEntry_of_ne heq]
        rfl

/-- A store to a page table that only `e` has. -/
theorem entry_store_pte (ht : tableOf dirs m e i = some t)
    (hsole : ∀ r : Ref, target dirs m r = some t → r = .table e i) (w : Word) :
    tableOf dirs (m.store (t, j) w) = tableOf dirs m ∧
      entry dirs (m.store (t, j) w) =
        setEntry (entry dirs m) e i j (if PTE_VALID w then some w else none) := by
  have hdir : ∀ e' d i', dirs e' = some d → UserPdx i' →
      (m.store (t, j) w).mem d i' = m.mem d i' := fun e' d i' hd _ => by
    refine store_mem_of_ne (Or.inl fun heq => ?_)
    have heq' : d = t := heq
    cases hsole (.dir e') (heq' ▸ hd)
  have htab := tableOf_congr hdir
  refine ⟨htab, ?_⟩
  funext e' i' j'
  rw [setEntry, entry, entry, htab]
  cases ht' : tableOf dirs m e' i' with
  | none =>
      have hne : ¬ (e' = e ∧ i' = i ∧ j' = j) := by
        rintro ⟨rfl, rfl, -⟩
        rw [ht] at ht'
        cases ht'
      rw [if_neg hne]
      rfl
  | some t' =>
      simp only [Option.bind_some]
      by_cases heq : e' = e ∧ i' = i ∧ j' = j
      · obtain ⟨rfl, rfl, rfl⟩ := heq
        obtain rfl : t = t' := Option.some.inj (ht.symm.trans ht')
        simp only [store_mem_self, and_self, if_true]
      · rw [if_neg heq, store_mem_of_ne]
        by_cases htt : t' = t
        · -- the same table: then it is the same place, and another index
          subst htt
          have hplace := hsole (.table e' i') ht'
          cases hplace
          exact Or.inr fun hj => heq ⟨rfl, rfl, hj⟩
        · exact Or.inl htt

/-- A directory entry with nothing mapped below it, before and after, is one place. -/
theorem target_store_pde (hd : dirs e = some d) (hi : UserPdx i)
    (hsole : ∀ r : Ref, target dirs m r = some d → r = .dir e)
    (hbefore : ∀ j, entry dirs m e i j = none)
    (hafter : ∀ j, entry dirs (m.store (d, i) w) e i j = none) :
    entry dirs (m.store (d, i) w) = entry dirs m ∧
      target dirs (m.store (d, i) w) = Function.update (target dirs m) (.table e i)
        (if PTE_VALID w then some (PGNUM w) else none) := by
  have hdir : ∀ e', dirs e' = some d → e' = e := fun e' hd' => by
    have hplace := hsole (.dir e') hd'
    cases hplace
    rfl
  have hnottab : ∀ e' i', tableOf dirs m e' i' ≠ some d := fun e' i' ht => by
    cases hsole (.table e' i') ht
  have hself : tableOf dirs (m.store (d, i) w) e i =
      if PTE_VALID w then some (PGNUM w) else none := by
    rw [tableOf, if_pos hi, hd, Option.bind_some, store_mem_self]
  have hother : ∀ e' i', ¬ (e' = e ∧ i' = i) →
      tableOf dirs (m.store (d, i) w) e' i' = tableOf dirs m e' i' := fun e' i' hne => by
    unfold tableOf
    by_cases hi' : UserPdx i'
    · cases hd' : dirs e' with
      | none => rfl
      | some d' =>
          have hword : (m.store (d, i) w).mem d' i' = m.mem d' i' := by
            refine store_mem_of_ne ?_
            by_cases hdd : d' = d
            · subst hdd
              exact Or.inr fun heq => hne ⟨hdir e' hd', heq⟩
            · exact Or.inl hdd
          simp only [hi', if_true, Option.bind_some, hword]
    · simp [hi']
  have hent : entry dirs (m.store (d, i) w) = entry dirs m := by
    funext e' i' j'
    by_cases heq : e' = e ∧ i' = i
    · obtain ⟨rfl, rfl⟩ := heq
      rw [hafter, hbefore]
    · rw [entry, entry, hother e' i' heq]
      cases ht : tableOf dirs m e' i' with
      | none => rfl
      | some t =>
          have hne : t ≠ d := fun h => hnottab e' i' (h ▸ ht)
          simp only [Option.bind_some]
          rw [store_mem_of_ne (Or.inl hne)]
  refine ⟨hent, ?_⟩
  funext r
  cases r with
  | dir e' => rw [Function.update_of_ne (by simp)]; rfl
  | table e' i' =>
      by_cases heq : e' = e ∧ i' = i
      · obtain ⟨rfl, rfl⟩ := heq
        rw [Function.update_self, target, hself]
      · have hne : Ref.table e' i' ≠ .table e i := fun h => by
          cases h
          exact heq ⟨rfl, rfl⟩
        rw [Function.update_of_ne hne, target, hother e' i' heq]
        rfl
  | user e' i' j' =>
      rw [Function.update_of_ne (by simp), target, hent]
      rfl

/-- A directory without page tables, before and after, is one place. -/
theorem target_set_dir {x : Option Ppn} (hbefore : ∀ i, tableOf dirs m e i = none)
    (hafter : ∀ i, tableOf (Function.update dirs e x) m e i = none) :
    entry (Function.update dirs e x) m = entry dirs m ∧
      target (Function.update dirs e x) m = Function.update (target dirs m) (.dir e) x := by
  have htab : tableOf (Function.update dirs e x) m = tableOf dirs m := by
    funext e' i
    rcases eq_or_ne e' e with rfl | hne
    · rw [hafter, hbefore]
    · rw [tableOf, tableOf, Function.update_of_ne hne]
  have hent : entry (Function.update dirs e x) m = entry dirs m := by
    funext e' i j
    rw [entry, entry, htab]
  refine ⟨hent, ?_⟩
  funext r
  cases r with
  | dir e' =>
      rcases eq_or_ne e' e with rfl | hne
      · simp [target]
      · rw [Function.update_of_ne (by simpa using hne), target, Function.update_of_ne hne]
        rfl
  | table e' i =>
      rw [Function.update_of_ne (by simp), target, htab]
      rfl
  | user e' i j =>
      rw [Function.update_of_ne (by simp), target, hent]
      rfl

end

end SisOp.Jos
