/-
# `SisOp.Memory.Calls` — the page calls and the memory invariant

`Changed K m e m'` is what any of the calls that work on one address space `e`
leaves: the invariant, the mappings of everybody else, and no page mapped writable
that was not mapped writable before, unless `page_alloc` handed it out on the way.

The counters are 16 bits wide and nothing in the kernel stops them from wrapping.
`Narrow` says that they have not, and `Call.NoWrap` that a call does not make them.
-/
import SisOp.Memory.Dirs

namespace SisOp.Jos

open SisOp.Lib

/-- `p` is mapped writable below `UTOP`. -/
def WritableIn (dirs : Slot → Option Ppn) (m : Phys) (p : Ppn) : Prop :=
  ∃ e i j w, entry dirs m e i j = some w ∧ PGNUM w = p ∧ Writable w

/-- The references to every page fit in its counter. -/
def Narrow (dirs : Slot → Option Ppn) (m : Phys) : Prop := ∀ p, uses dirs m [] p < 2 ^ 16

/-- The invariant of the memory between two calls. -/
structure Sound (K : Ppn → Prop) (dirs : Slot → Option Ppn) (m : Phys) : Prop where
  ledger : ∃ l, Ledger K dirs [] l m
  narrow : Narrow dirs m

/-- What a call that works on the address space of `e` leaves. -/
structure Changed (K : Ppn → Prop) (dirs : Slot → Option Ppn) (m : Phys) (e : Slot)
    (dirs' : Slot → Option Ppn) (m' : Phys) : Prop where
  sound : Sound K dirs' m'
  others : ∀ f, f ≠ e → entry dirs' m' f = entry dirs m f
  handed : ∃ hs, m'.handed = hs ++ m.handed ∧
    ∀ p, p ∉ hs → WritableIn dirs' m' p → WritableIn dirs m p

section

variable {K : Ppn → Prop} {dirs dirs' : Slot → Option Ppn} {held l hs : List Ppn} {m m' m0 : Phys}
  {e : Slot} {i j : Idx} {p d t kva : Ppn} {va perm w : Word} {r : Int}

theorem Changed.refl (h : Sound K dirs m) (e : Slot) : Changed K dirs m e dirs m :=
  ⟨h, fun _ _ => rfl, [], rfl, fun _ _ => id⟩

theorem Narrow.kept (h : Narrow dirs m) (hkept : UsesKept dirs m [] dirs' m' [] hs) :
    Narrow dirs' m' := fun p => by
  rcases hkept p with hle | ⟨-, hle⟩
  · exact hle.trans_lt (h p)
  · exact hle.trans_lt (by decide)

/-- A page is mapped writable after one entry was replaced. -/
theorem writableIn_setEntry {x : Option Word} (hent : entry dirs' m' = setEntry (entry dirs m) e i j x)
    (h : WritableIn dirs' m' p) :
    WritableIn dirs m p ∨ ∃ w, x = some w ∧ PGNUM w = p ∧ Writable w := by
  obtain ⟨f, i', j', w, hw, hp, hwr⟩ := h
  rw [hent] at hw
  by_cases heq : f = e ∧ i' = i ∧ j' = j
  · obtain ⟨rfl, rfl, rfl⟩ := heq
    rw [setEntry_self] at hw
    exact Or.inr ⟨w, hw, hp, hwr⟩
  · rw [setEntry_of_ne heq] at hw
    exact Or.inl ⟨f, i', j', w, hw, hp, hwr⟩

/-- The writable bit of the entry that `sys_page_map` composes. -/
theorem writable_or_PU (perm : Word) : Writable (perm ||| PTE_P ||| PTE_U) ↔ Writable perm := by
  rw [Writable, Writable, BitVec.or_assoc, BitVec.and_comm, BitVec.and_or_distrib_left,
    show PTE_W &&& (PTE_P ||| PTE_U) = 0#32 by decide, BitVec.or_zero, BitVec.and_comm]

theorem flagsOnly_or_PU (h : FlagsOnly perm) : FlagsOnly (perm ||| PTE_P ||| PTE_U) := by
  rw [FlagsOnly, PGNUM_or, PGNUM_or, h]
  decide

/-! ## Inserting -/

/-- `page_insert` of a page that is mapped already, under permissions no wider. -/
theorem Sound.insert_mapped {f : Slot} {i' j' : Idx} (h : Sound K dirs m) (hd : dirs e = some d)
    (hi : UserPdx (PDX va)) (hflags : FlagsOnly perm) (hw : entry dirs m f i' j' = some w)
    (hwrap : (m.pages (PGNUM w)).ppRef ≠ 0xFFFF) (hwide : Writable perm → Writable w)
    (hins : InsertOrFree m d (PGNUM w) va perm r m') :
    r = 0 ∧ Changed K dirs m e dirs m' ∧ ∃ hs, m'.handed = hs ++ m.handed ∧ PGNUM w ∉ hs ∧
      entry dirs m' = setEntry (entry dirs m) e (PDX va) (PTX va) (some (mkPte (PGNUM w) perm)) := by
  obtain ⟨l, hl⟩ := h.ledger
  have htgt := target_user hw
  have hpos : 0 < uses dirs m [] (PGNUM w) := total_pos htgt
  have hK := hl.not_kernel htgt
  have hcount := hl.pool.count (PGNUM w) hK
  have hlt := h.narrow (PGNUM w)
  -- the counter is the number of references, and there is room for one more
  have hnat : ((m.pages (PGNUM w)).ppRef).toNat = uses dirs m [] (PGNUM w) := by
    rw [hcount, BitVec.toNat_ofNat, Nat.mod_eq_of_lt hlt]
  have hroom : uses dirs m [] (PGNUM w) + 1 < 2 ^ 16 := by
    have hne : uses dirs m [] (PGNUM w) ≠ 65535 := fun heq =>
      hwrap (BitVec.eq_of_toNat_eq (hnat.trans heq))
    omega
  have huses : ∀ p, uses dirs m [PGNUM w] p < 2 ^ 16 := fun p => by
    by_cases hp : PGNUM w = p
    · rw [← hp, uses, total_cons_self]
      exact hroom
    · rw [uses, total_cons_of_ne hp]
      exact h.narrow p
  obtain ⟨m1, hins, hfree⟩ := hins
  rcases hl.pageInsert hd hi hflags (hl.pool.not_free hpos) hK (hl.not_isTab_of_user htgt)
    (hl.bound _ (Or.inr hpos)) (fun w' _ => huses _) hins with ⟨rfl, rfl⟩ | ⟨l', hs, rfl, hp, -, hr, hkept⟩
  · -- a failed insertion would free a page in use: `page_free` panics
    rw [if_pos (by decide)] at hfree
    have hzero := (pageFree_ok hfree).1
    rw [hzero] at hnat
    exact absurd hnat.symm hpos.ne'
  · rw [if_neg (by decide)] at hfree
    subst hfree
    refine ⟨rfl, ⟨⟨⟨l', hr.ledger⟩, fun p => ?_⟩, fun f' hf' => ?_, hs, hr.touches.handed,
      fun p hp hwr => ?_⟩, hs, hr.touches.handed, hp, hr.entries⟩
    · rcases hkept p with hle | ⟨-, hle⟩
      · exact hle.trans_lt (huses p)
      · exact hle.trans_lt (by decide)
    · rw [hr.entries]
      funext i1 j1
      exact setEntry_of_ne fun heq => hf' heq.1
    · rcases writableIn_setEntry hr.entries hwr with hwr | ⟨w', hw', rfl, hbit⟩
      · exact hwr
      · cases hw'
        rw [PGNUM_mkPte _ hflags]
        exact ⟨f, i', j', w, hw, rfl, hwide ((writable_mkPte _ _).mp hbit)⟩

/-- `page_insert` of the page `page_alloc` has just handed out. -/
theorem Sound.insert_new {zero : Bool} (h : Sound K dirs m) (hd : dirs e = some d)
    (hi : UserPdx (PDX va))
    (hflags : FlagsOnly perm) (halloc : pageAlloc m zero = .ok (some p, m0))
    (hins : InsertOrFree m0 d p va perm r m') :
    Changed K dirs m e dirs m' := by
  obtain ⟨l, hl⟩ := h.ledger
  obtain ⟨l0, rfl, h0, hfresh, hhanded, -⟩ := hl.pageAlloc halloc
  have hkept0 : ∀ q, uses dirs m0 [] q = uses dirs m [] q := fun q => by
    rw [uses, hhanded.targets]
  have hone : uses dirs m0 [p] p = 1 := (total_cons_self p).trans (congrArg (· + 1) hfresh.unused)
  have huses : ∀ q, uses dirs m0 [p] q < 2 ^ 16 := fun q => by
    by_cases hq : p = q
    · rw [← hq, hone]
      decide
    · rw [uses, total_cons_of_ne hq, ← uses, hkept0]
      exact h.narrow q
  obtain ⟨m1, hins, hfree⟩ := hins
  rcases h0.pageInsert hd hi hflags hfresh.notMem hfresh.notKernel hfresh.not_isTab hfresh.bound
    (fun w' _ => huses _) hins with ⟨rfl, rfl⟩ | ⟨l', hs, rfl, hp, -, hr, hkept⟩
  · rw [if_pos (by decide)] at hfree
    have h1 := h0.pageFree hfresh.notMem hfresh.notKernel hfresh.unused hfresh.bound hfree
    obtain ⟨-, rfl⟩ := pageFree_ok hfree
    refine ⟨⟨⟨_, h1⟩, fun q => ?_⟩, fun f hf => ?_, [p], hhanded.handed, fun q _ hwr => ?_⟩
    · exact (hkept0 q).trans_lt (h.narrow q)
    · exact congrFun hhanded.entries f
    · obtain ⟨f, i, j, w, hw, hwq⟩ := hwr
      exact ⟨f, i, j, w, hhanded.entries ▸ hw, hwq⟩
  · rw [if_neg (by decide)] at hfree
    subst hfree
    refine ⟨⟨⟨l', hr.ledger⟩, fun q => ?_⟩, fun f hf => ?_, hs ++ [p], ?_, fun q hq hwr => ?_⟩
    · rcases hkept q with hle | ⟨-, hle⟩
      · exact hle.trans_lt (huses q)
      · exact hle.trans_lt (by decide)
    · rw [hr.entries, hhanded.entries]
      funext i1 j1
      exact setEntry_of_ne fun heq => hf heq.1
    · rw [hr.touches.handed, hhanded.handed]
      simp
    · have hqp : q ≠ p := fun heq => hq (by simp [heq])
      rcases writableIn_setEntry hr.entries hwr with hwr | ⟨w', hw', rfl, -⟩
      · obtain ⟨f, i, j, w, hw, hwq⟩ := hwr
        exact ⟨f, i, j, w, hhanded.entries ▸ hw, hwq⟩
      · cases hw'
        exact absurd (PGNUM_mkPte p hflags) hqp

/-! ## Removing, creating, freeing -/

theorem Sound.remove (h : Sound K dirs m) (hd : dirs e = some d) (hi : UserPdx (PDX va))
    (hrem : pageRemove m d va = .ok m') : Changed K dirs m e dirs m' := by
  obtain ⟨l, hl⟩ := h.ledger
  obtain ⟨l', hr, -, hfewer⟩ := hl.pageRemove hd hi (fun _ _ => h.narrow _) hrem
  refine ⟨⟨⟨l', hr.ledger⟩, fun p => (hfewer p).trans_lt (h.narrow p)⟩, fun f hf => ?_, [],
    hr.touches.handed, fun p _ hwr => ?_⟩
  · rw [hr.entries]
    funext i j
    exact setEntry_of_ne fun heq => hf heq.1
  · exact (writableIn_setEntry hr.entries hwr).elim id fun ⟨_, h, _⟩ => nomatch h

theorem Sound.setupVm (h : Sound K dirs m) (hnone : dirs e = none) (hsetup : SetupVm m kva m') :
    Changed K dirs m e (Function.update dirs e (some kva)) m' := by
  obtain ⟨l, hl⟩ := h.ledger
  obtain ⟨l', -, h', hent, htouch, hkept⟩ := hl.setupVm hnone hsetup
  refine ⟨⟨⟨l', h'⟩, h.narrow.kept hkept⟩, fun f _ => congrFun hent f, [kva], htouch.handed,
    fun p _ hwr => ?_⟩
  obtain ⟨f, i, j, w, hw, hwp⟩ := hwr
  exact ⟨f, i, j, w, hent ▸ hw, hwp⟩

theorem Sound.freeMem (h : Sound K dirs m) (hd : dirs e = some d) (hfree : freeMem m d = .ok m') :
    Changed K dirs m e (Function.update dirs e none) m' := by
  obtain ⟨l, hl⟩ := h.ledger
  obtain ⟨hshr, hent⟩ := hl.freeMem hd h.narrow hfree
  refine ⟨⟨hshr.ledger, fun p => (hshr.fewer p).trans_lt (h.narrow p)⟩, fun f hf => ?_, [],
    hshr.touches.handed, fun p _ hwr => ?_⟩
  · funext i j
    rw [hent, if_neg hf]
  · obtain ⟨f, i, j, w, hw, hwp⟩ := hwr
    rw [hent] at hw
    split at hw
    · cases hw
    · exact ⟨f, i, j, w, hw, hwp⟩

theorem Poked.changed (hp : Poked K dirs [] l m m') (hn : Narrow dirs m) (e : Slot) :
    Changed K dirs m e dirs m' := by
  refine ⟨⟨⟨l, hp.ledger⟩, fun p => ?_⟩, fun f _ => congrFun hp.entries f, [], hp.handed,
    fun p _ hwr => ?_⟩
  · rw [uses, hp.targets]
    exact hn p
  · obtain ⟨f, i, j, w, hw, hwp⟩ := hwr
    exact ⟨f, i, j, w, hp.entries ▸ hw, hwp⟩

end

end SisOp.Jos
