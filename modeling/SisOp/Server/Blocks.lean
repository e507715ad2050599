/-
# `SisOp.Server.Blocks` — what the functions on blocks do

On a view nothing faults, so a function of the bitmap or of a file's block pointers
can be described by what it returns and stores: `allocBlock` takes the first free
block (`run_allocBlock`), `file_block_walk` finds a slot (`SlotOf`), and
`file_get_block` what the slot holds, or a new block (`BlockOf`).
-/
import SisOp.Server.File

namespace SisOp.Fs

open SisOp.Lib SisOp.Jos

/-! ## Loads and stores -/

section

variable {α : Type} {v : View} {c c' : Cell} {w : Word}

theorem View.get_set (v : View) (c c' : Cell) (w : Word) :
    (v.set c w).get c' = if c' = c then w else v.get c' := by
  cases c with
  | disk b i =>
      cases c' with
      | disk b' i' =>
          by_cases hb : b' = b
          · subst hb
            by_cases hi : i' = i
            · subst hi
              simp [View.set, View.get]
            · simp [View.set, View.get, hi]
          · simp [View.set, View.get, hb]
      | req i' | own i' => simp [View.set, View.get]
  | req i =>
      cases c' with
      | disk b' i' | own i' => simp [View.set, View.get]
      | req i' =>
          by_cases hi : i' = i
          · subst hi
            simp [View.set, View.get]
          · simp [View.set, View.get, hi]
  | own i =>
      cases c' with
      | disk b' i' | req i' => simp [View.set, View.get]
      | own i' =>
          by_cases hi : i' = i
          · subst hi
            simp [View.set, View.get]
          · simp [View.set, View.get, hi]

@[simp] theorem View.get_set_self (v : View) (c : Cell) (w : Word) : (v.set c w).get c = w := by
  rw [View.get_set, if_pos rfl]

theorem View.get_set_of_ne (v : View) (w : Word) (h : c' ≠ c) : (v.set c w).get c' = v.get c' := by
  rw [View.get_set, if_neg h]

@[simp] theorem run_access (va : Nat) (v : View) : (access va).run onView v = (.ok (), v) := rfl

@[simp] theorem run_load (c : Cell) (v : View) : (load c).run onView v = (.ok (v.get c), v) := rfl

@[simp] theorem run_store (c : Cell) (w : Word) (v : View) :
    (store c w).run onView v = (.ok (), v.set c w) := rfl

@[simp] theorem run_flushBlock (b : Nat) (v : View) :
    (flushBlock b).run onView v = (.ok (), v) := rfl

@[simp] theorem run_note (m : Move) (v : View) :
    (note m).run onView v = (.ok (), { v with moves := ⟨m, v.mem⟩ :: v.moves }) := rfl

@[simp] theorem run_panic (msg : String) (v : View) :
    (panic msg : FsM α).run onView v = (.error msg, v) := rfl

theorem run_ite {p q : FsM α} {P : Prop} [Decidable P] :
    (if P then p else q).run onView v = if P then p.run onView v else q.run onView v := by
  split <;> rfl

theorem get_sNblocks (v : View) : (v.get sNblocks).toNat = nblocks v.mem := rfl

theorem nblocks_set (h : c ≠ sNblocks) : nblocks (v.set c w).mem = nblocks v.mem := by
  rw [← get_sNblocks, ← get_sNblocks, View.get_set_of_ne v w h.symm]

theorem get_bitmapCell (v : View) (b : Nat) :
    v.get (bitmapCell b) = v.mem (bitmapBlock b) (b / 32 % 1024) := rfl

end

/-! ## The bitmap -/

section

variable {v v' : View} {b b' : Nat}

theorem run_diskaddr (w : Word) (v : View) : (diskaddr w).run onView v =
    if w ≠ 0 ∧ w.toNat < nblocks v.mem then (.ok w.toNat, v)
    else (.error "bad block number in diskaddr", v) := by
  unfold diskaddr
  by_cases hw : w = 0
  · simp [hw]
  · simp only [hw, if_false, ne_eq, not_false_eq_true, true_and]
    rw [Prog.run_bind_ok (run_load sNblocks v), run_ite, ← get_sNblocks]
    by_cases hlt : w.toNat < (v.get sNblocks).toNat
    · rw [if_pos hlt, if_neg (BitVec.not_le.mpr (BitVec.lt_def.mpr hlt))]
      rfl
    · rw [if_neg hlt, if_pos (BitVec.le_def.mpr (not_lt.mp hlt))]
      rfl

theorem run_diskaddr_ok {w : Word} {a : Nat} (h : (diskaddr w).run onView v = (.ok a, v')) :
    a = w.toNat ∧ v' = v ∧ w ≠ 0 ∧ w.toNat < nblocks v.mem := by
  rw [run_diskaddr] at h
  split at h
  · cases h
    exact ⟨rfl, rfl, ‹_ ∧ _›⟩
  · cases h

theorem run_blockIsFree (b : Nat) (v : View) :
    (blockIsFree b).run onView v = (.ok (decide (FreeIn v.mem b)), v) := by
  unfold blockIsFree
  rw [Prog.run_bind_ok (run_load sNblocks v), run_ite, get_sNblocks]
  by_cases hb : nblocks v.mem ≤ b
  · rw [if_pos hb, decide_eq_false fun h => absurd h.1 hb.not_gt]
    rfl
  · rw [if_neg hb, Prog.run_bind_ok (run_load _ v), get_bitmapCell]
    simp [FreeIn, not_le.mp hb]

/-- The first block marked free. -/
def firstFree (mem : Nat → Block) : Option Nat :=
  (List.range (nblocks mem)).find? fun b => decide (FreeIn mem b)

theorem run_findFree (n i : Nat) (v : View) : (findFree n i).run onView v =
    (.ok ((List.range' i n).find? fun b => decide (FreeIn v.mem b)), v) := by
  induction n generalizing i with
  | zero => rfl
  | succ n ih =>
      rw [findFree, Prog.run_bind_ok (run_blockIsFree i v), run_ite, List.range'_succ]
      by_cases hfree : FreeIn v.mem i
      · simp [hfree]
      · rw [List.find?_cons, decide_eq_false hfree]
        exact ih (i + 1)

theorem firstFree_some (h : firstFree v.mem = some b) : FreeIn v.mem b := by
  simpa using List.find?_some h

theorem firstFree_none (h : firstFree v.mem = none) (b : Nat) : ¬ FreeIn v.mem b := by
  intro hfree
  have hnone := List.find?_eq_none.mp h b (List.mem_range.mpr hfree.1)
  exact hnone (decide_eq_true hfree)

/-- Block `b` is marked in use. -/
def View.use (v : View) (b : Nat) : View :=
  v.set (bitmapCell b) (v.get (bitmapCell b) &&& ~~~ bitMask b)

/-- Block `b` is marked free. -/
def View.release (v : View) (b : Nat) : View :=
  v.set (bitmapCell b) (v.get (bitmapCell b) ||| bitMask b)

theorem run_allocBlock (v : View) : allocBlock.run onView v =
    match firstFree v.mem with
    | none => (.ok (.error (-E_NO_DISK)), v)
    | some b => (.ok (.ok b), v.use b) := by
  unfold allocBlock
  rw [Prog.run_bind_ok (run_load sNblocks v), Prog.run_bind_ok (run_findFree _ 0 v), get_sNblocks,
    ← List.range_eq_range']
  unfold firstFree
  rcases (List.range (nblocks v.mem)).find? fun b => decide (FreeIn v.mem b) with _ | b <;> rfl

theorem run_freeBlock (w : Word) (v : View) : (freeBlock w).run onView v =
    if w = 0 then (.error "attempt to free zero block", v) else (.ok (), v.release w.toNat) := by
  unfold freeBlock
  rw [run_ite]
  rfl

theorem two_le_bitmapBlock (b : Nat) : 2 ≤ bitmapBlock b := Nat.le_add_right 2 _

theorem bitmapCell_ne_sNblocks (b : Nat) : bitmapCell b ≠ sNblocks := by
  intro h
  have hblock : bitmapBlock b = 1 := (Cell.disk.inj h).1
  have := two_le_bitmapBlock b
  omega

@[simp] theorem nblocks_use (v : View) (b : Nat) : nblocks (v.use b).mem = nblocks v.mem :=
  nblocks_set (bitmapCell_ne_sNblocks b)

@[simp] theorem nblocks_release (v : View) (b : Nat) : nblocks (v.release b).mem = nblocks v.mem :=
  nblocks_set (bitmapCell_ne_sNblocks b)

theorem bitmapCell_inj (h : bitmapCell b = bitmapCell b') : b / 32 = b' / 32 := by
  have hval : BLKBITSIZE = 32 * 1024 := rfl
  simp only [bitmapCell, bitmapBlock, hval, ← Nat.div_div_eq_div_mul, Cell.disk.injEq] at h
  generalize b / 32 = x at *
  generalize b' / 32 = y at *
  omega

theorem getLsbD_bitMask (b j : Nat) (hj : j < 32) : (bitMask b).getLsbD j = decide (j = b % 32) := by
  unfold bitMask
  rw [BitVec.getLsbD_shiftLeft, BitVec.getLsbD_one]
  by_cases h : j = b % 32
  · simp [h]
    omega
  · simp [h]
    omega

theorem freeIn_use (v : View) (b b' : Nat) :
    FreeIn (v.use b).mem b' ↔ FreeIn v.mem b' ∧ b' ≠ b := by
  unfold FreeIn
  rw [nblocks_use, ← get_bitmapCell, ← get_bitmapCell]
  by_cases hcell : bitmapCell b' = bitmapCell b
  · have hdiv := bitmapCell_inj hcell
    unfold View.use
    rw [hcell, View.get_set_self, BitVec.getLsbD_and, BitVec.getLsbD_not,
      getLsbD_bitMask b _ (Nat.mod_lt _ (by decide))]
    have heq : b' % 32 = b % 32 ↔ b' = b := by omega
    simp only [heq, Nat.mod_lt b' (show 0 < 32 by decide), decide_true, Bool.true_and, Bool.and_eq_true,
      Bool.not_eq_true', decide_eq_false_iff_not]
    tauto
  · have hne : b' ≠ b := fun h => hcell (congrArg bitmapCell h)
    unfold View.use
    rw [View.get_set_of_ne _ _ hcell]
    tauto

theorem freeIn_release (v : View) (b b' : Nat) :
    FreeIn (v.release b).mem b' ↔ FreeIn v.mem b' ∨ b' = b ∧ b < nblocks v.mem := by
  unfold FreeIn
  rw [nblocks_release, ← get_bitmapCell, ← get_bitmapCell]
  by_cases hcell : bitmapCell b' = bitmapCell b
  · have hdiv := bitmapCell_inj hcell
    unfold View.release
    rw [hcell, View.get_set_self, BitVec.getLsbD_or,
      getLsbD_bitMask b _ (Nat.mod_lt _ (by decide))]
    have heq : b' % 32 = b % 32 ↔ b' = b := by omega
    simp only [heq, Bool.or_eq_true, decide_eq_true_eq]
    constructor
    · rintro ⟨hlt, hbit | rfl⟩
      · exact .inl ⟨hlt, hbit⟩
      · exact .inr ⟨rfl, hlt⟩
    · rintro (⟨hlt, hbit⟩ | ⟨rfl, hlt⟩)
      · exact ⟨hlt, .inl hbit⟩
      · exact ⟨hlt, .inr rfl⟩
  · have hne : b' ≠ b := fun h => hcell (congrArg bitmapCell h)
    unfold View.release
    rw [View.get_set_of_ne _ _ hcell]
    tauto

end

/-! ## Blocks of a file -/

theorem fIndirect_ne_sNblocks (f : FilePtr) : f.fIndirect ≠ sNblocks := by
  intro h
  have hidx : f.idx + 44 = 1 := (Cell.disk.inj h).2
  omega

/-- What `file_block_walk(f, k, &slot, alloc)` can do. -/
inductive SlotOf (v : View) (f : FilePtr) (k : Nat) (alloc : Bool) : Except Int Cell → View → Prop
  | direct (hk : k < NDIRECT) : SlotOf v f k alloc (.ok (f.fDirect k)) v
  | indirect (hk : NDIRECT ≤ k) (hk' : k < NDIRECT + NINDIRECT) (h0 : v.get f.fIndirect ≠ 0)
      (hlt : (v.get f.fIndirect).toNat < nblocks v.mem) :
      SlotOf v f k alloc (.ok (.disk (v.get f.fIndirect).toNat (k - NDIRECT))) v
  | newIndirect (b : Nat) (hk : NDIRECT ≤ k) (hk' : k < NDIRECT + NINDIRECT)
      (h0 : v.get f.fIndirect = 0) (hb : firstFree v.mem = some b) (hb0 : b ≠ 0)
      (halloc : alloc = true) :
      SlotOf v f k alloc (.ok (.disk b (k - NDIRECT)))
        ((v.use b).set f.fIndirect (BitVec.ofNat 32 b))
  | full (hk : NDIRECT ≤ k) (hk' : k < NDIRECT + NINDIRECT) (h0 : v.get f.fIndirect = 0)
      (hb : firstFree v.mem = none) (halloc : alloc = true) :
      SlotOf v f k alloc (.error (-E_NO_DISK)) v
  | absent (hk : NDIRECT ≤ k) (hk' : k < NDIRECT + NINDIRECT) (h0 : v.get f.fIndirect = 0)
      (halloc : alloc = false) : SlotOf v f k alloc (.error (-E_NOT_FOUND)) v
  | range (hk : NDIRECT + NINDIRECT ≤ k) : SlotOf v f k alloc (.error (-E_INVAL)) v

/-- What `file_get_block(f, k, &blk)` can do. -/
inductive BlockOf (v : View) (f : FilePtr) (k : Nat) : Except Int Nat → View → Prop
  | error {r : Int} {v' : View} (hslot : SlotOf v f k true (.error r) v') : BlockOf v f k (.error r) v'
  | held {slot : Cell} {v' : View} (hslot : SlotOf v f k true (.ok slot) v') (h0 : v'.get slot ≠ 0)
      (hlt : (v'.get slot).toNat < nblocks v'.mem) : BlockOf v f k (.ok (v'.get slot).toNat) v'
  | full {slot : Cell} {v' : View} (hslot : SlotOf v f k true (.ok slot) v') (h0 : v'.get slot = 0)
      (hb : firstFree v'.mem = none) : BlockOf v f k (.error (-E_NO_DISK)) v'
  | new {slot : Cell} {v' : View} (b : Nat) (hslot : SlotOf v f k true (.ok slot) v')
      (h0 : v'.get slot = 0) (hb : firstFree v'.mem = some b) (hb0 : b ≠ 0) :
      BlockOf v f k (.ok b) ((v'.use b).set slot (BitVec.ofNat 32 b))

section

variable {v v' : View} {f : FilePtr} {filebno : Word} {alloc : Bool}

theorem toNat_ofNat_of_free {mem : Nat → Block} {b : Nat} (h : FreeIn mem b) :
    (BitVec.ofNat 32 b).toNat = b := by
  rw [BitVec.toNat_ofNat, Nat.mod_eq_of_lt (h.1.trans (mem 1 1).isLt)]

theorem toNat_ne_zero {w : Word} (h : w ≠ 0) : w.toNat ≠ 0 := fun h0 => h (BitVec.eq_of_toNat_eq h0)

theorem ofNat_ne_zero_of_free {mem : Nat → Block} {b : Nat} (h : FreeIn mem b) (h0 : b ≠ 0) :
    BitVec.ofNat 32 b ≠ 0 := by
  intro heq
  rw [← toNat_ofNat_of_free h, heq] at h0
  exact h0 rfl

theorem run_indirectSlot {n : Nat} {r : Except Int Cell}
    (h : (indirectSlot f n).run onView v = (.ok r, v')) :
    r = .ok (.disk (v.get f.fIndirect).toNat (n - NDIRECT)) ∧ v' = v ∧ v.get f.fIndirect ≠ 0 ∧
      (v.get f.fIndirect).toNat < nblocks v.mem := by
  unfold indirectSlot at h
  rw [Prog.run_bind_ok (run_load _ v)] at h
  obtain ⟨a, v1, haddr, h⟩ := Prog.bind_ok h
  obtain ⟨rfl, rfl, h0, hlt⟩ := run_diskaddr_ok haddr
  cases h
  exact ⟨rfl, rfl, h0, hlt⟩

theorem slotOf_of_run {r : Except Int Cell}
    (h : (fileBlockWalk f filebno alloc).run onView v = (.ok r, v')) :
    SlotOf v f filebno.toNat alloc r v' := by
  unfold fileBlockWalk at h
  rw [run_ite] at h
  split at h
  · cases h
    exact .range ‹_›
  · rename_i hrange
    rw [run_ite] at h
    split at h
    · cases h
      exact .direct ‹_›
    · rename_i hdirect
      rw [Prog.run_bind_ok (run_load _ v), run_ite] at h
      split at h
      · rename_i h0
        rw [run_ite] at h
        split at h
        · rename_i halloc
          rw [Prog.run_bind, run_allocBlock] at h
          rcases hb : firstFree v.mem with _ | b
          · rw [hb] at h
            cases h
            exact .full (not_lt.mp hdirect) (not_le.mp hrange) h0 hb halloc
          · have hfree := firstFree_some hb
            rw [hb] at h
            simp only at h
            rw [Prog.run_bind_ok (run_store _ _ _), Prog.run_bind_ok (run_load _ _)] at h
            obtain ⟨a, v1, haddr, h⟩ := Prog.bind_ok h
            obtain ⟨-, rfl, h0', hlt⟩ := run_diskaddr_ok haddr
            rw [Prog.run_bind_ok (run_flushBlock _ _)] at h
            obtain ⟨rfl, rfl, -, -⟩ := run_indirectSlot h
            rw [View.get_set_self, toNat_ofNat_of_free hfree]
            refine .newIndirect b (not_lt.mp hdirect) (not_le.mp hrange) h0 hb ?_ halloc
            rintro rfl
            rw [View.get_set_self] at h0'
            exact h0' rfl
        · rename_i halloc
          cases h
          exact .absent (not_lt.mp hdirect) (not_le.mp hrange) h0 (Bool.eq_false_iff.mpr halloc)
      · obtain ⟨rfl, rfl, h0, hlt⟩ := run_indirectSlot h
        exact .indirect (not_lt.mp hdirect) (not_le.mp hrange) h0 hlt

theorem blockOf_of_run {r : Except Int Nat}
    (h : (fileGetBlock f filebno).run onView v = (.ok r, v')) :
    BlockOf v f filebno.toNat r v' := by
  unfold fileGetBlock at h
  obtain ⟨slot, v1, hwalk, h⟩ := Prog.bind_ok h
  have hslot := slotOf_of_run hwalk
  cases slot with
  | error r1 =>
      cases h
      exact .error hslot
  | ok slot =>
      simp only at h
      rw [Prog.run_bind_ok (run_load _ _), run_ite] at h
      split at h
      · rename_i h0
        rw [Prog.run_bind, run_allocBlock] at h
        rcases hb : firstFree v1.mem with _ | b
        · rw [hb] at h
          cases h
          exact .full hslot h0 hb
        · have hfree := firstFree_some hb
          rw [hb] at h
          simp only at h
          rw [Prog.run_bind_ok (run_store _ _ _), Prog.run_bind_ok (run_load _ _)] at h
          obtain ⟨a, v2, haddr, h⟩ := Prog.bind_ok h
          obtain ⟨rfl, rfl, h0', hlt⟩ := run_diskaddr_ok haddr
          cases h
          rw [View.get_set_self, toNat_ofNat_of_free hfree]
          refine .new b hslot h0 hb ?_
          rintro rfl
          rw [View.get_set_self] at h0'
          exact h0' rfl
      · rw [Prog.run_bind_ok (run_load _ _)] at h
        obtain ⟨a, v2, haddr, h⟩ := Prog.bind_ok h
        obtain ⟨rfl, rfl, h0, hlt⟩ := run_diskaddr_ok haddr
        cases h
        exact .held hslot h0 hlt

end

end SisOp.Fs
