/-
# `SisOp.Server.Bitmap` — the bitmap as a set of blocks

`block_is_free`, `free_block` and `alloc_block` implement a finite set: the blocks
below `s_nblocks` whose bit is set (`freeSet`).  `Implements` is what a call has to
do to the set, to the other bits and to the disk.

The bitmap lies in the block cache, so a call may fault on it.  `Mounted` is what
`fs_init` leaves: the super block and the first block of the bitmap are in memory.
A later block of the bitmap is loaded when it is touched, but `bc_pgfault` only
returns when the first byte of the block is what is touched and its own bit is not
set (`Touchable`).  `alloc_block` always passes, because it looks at the blocks in
order; the others need it (`bitmap_implements_iff`).
-/
import SisOp.Server.Resident
import SisOp.Lib.Run
import Mathlib.Order.Bounds.Basic

namespace SisOp.Fs

open SisOp.Lib SisOp.Jos

variable {s s' s1 : Machine} {b k off : Nat}

/-! ## One bit -/

/-- The word and the bit of block `b`. -/
def IsBit (b c i j : Nat) : Prop := c = bitmapBlock b ∧ i = b / 32 % 1024 ∧ j = b % 32

/-- The bit of block `b` is `on` in `mem'`, and every other bit is as it is in `mem`. -/
def OneBit (mem mem' : Nat → Block) (b : Nat) (on : Bool) : Prop :=
  (mem' (bitmapBlock b) (b / 32 % 1024)).getLsbD (b % 32) = on ∧
    ∀ c i j, j < 32 → ¬ IsBit b c i j → (mem' c i).getLsbD j = (mem c i).getLsbD j

theorem oneBit_set {v : View} {w : Word} {on : Bool} (hon : w.getLsbD (b % 32) = on)
    (hw : ∀ j, j < 32 → j ≠ b % 32 → w.getLsbD j = (v.get (bitmapCell b)).getLsbD j) :
    OneBit v.mem (v.set (bitmapCell b) w).mem b on := by
  refine ⟨?_, fun c i j hj hne => ?_⟩
  · rw [← get_bitmapCell, View.get_set_self, hon]
  · have hget : ∀ u : View, u.mem c i = u.get (.disk c i) := fun _ => rfl
    rw [hget, hget]
    by_cases hcell : Cell.disk c i = bitmapCell b
    · rw [hcell, View.get_set_self]
      refine hw j hj fun hjb => hne ?_
      obtain ⟨hc, hi⟩ := Cell.disk.inj hcell
      exact ⟨hc, hi, hjb⟩
    · rw [View.get_set_of_ne _ _ hcell]

theorem oneBit_use (v : View) (b : Nat) : OneBit v.mem (v.use b).mem b false := by
  have hmask : ∀ j, j < 32 → (v.get (bitmapCell b) &&& ~~~ bitMask b).getLsbD j =
      ((v.get (bitmapCell b)).getLsbD j && !decide (j = b % 32)) := by
    intro j hj
    rw [BitVec.getLsbD_and, BitVec.getLsbD_not, getLsbD_bitMask b j hj, decide_eq_true hj,
      Bool.true_and]
  refine oneBit_set ?_ fun j hj hne => ?_
  · rw [hmask _ (Nat.mod_lt _ (by decide))]
    simp
  · rw [hmask j hj]
    simp [hne]

theorem oneBit_release (v : View) (b : Nat) : OneBit v.mem (v.release b).mem b true := by
  have hmask : ∀ j, j < 32 → (v.get (bitmapCell b) ||| bitMask b).getLsbD j =
      ((v.get (bitmapCell b)).getLsbD j || decide (j = b % 32)) := by
    intro j hj
    rw [BitVec.getLsbD_or, getLsbD_bitMask b j hj]
  refine oneBit_set ?_ fun j hj hne => ?_
  · rw [hmask _ (Nat.mod_lt _ (by decide))]
    simp
  · rw [hmask j hj]
    simp [hne]

/-! ## The set -/

/-- The free blocks. -/
def freeSet (mem : Nat → Block) : Set Nat := {b | FreeIn mem b}

theorem firstFree_isLeast {mem : Nat → Block} (h : firstFree mem = some b) :
    IsLeast (freeSet mem) b := by
  have hfind := List.find?_eq_some_iff_getElem.mp h
  obtain ⟨hfree, i, hi, hib, hmin⟩ := hfind
  rw [List.getElem_range] at hib
  subst hib
  have hmem : FreeIn mem i := by simpa using hfree
  refine ⟨hmem, fun c hc => ?_⟩
  by_contra hlt
  have hno := hmin c (by omega)
  rw [List.getElem_range] at hno
  simp only [Bool.not_eq_true', decide_eq_false_iff_not] at hno
  exact hno hc

theorem firstFree_empty {mem : Nat → Block} (h : firstFree mem = none) : freeSet mem = ∅ :=
  Set.eq_empty_iff_forall_notMem.mpr (firstFree_none (v := ⟨mem, fun _ => 0, fun _ => 0, []⟩) h)

/-! ## The calls -/

inductive BitmapOp
  | isFree (b : Nat)
  | free (b : Word)
  | alloc

inductive BitmapRet
  | isFree (r : Bool)
  | done
  | block (r : Except Int Nat)

/-- A call, on the machine. -/
def BitmapOp.run : BitmapOp → Machine → Except String BitmapRet × Machine
  | isFree b => (blockIsFree b >>= fun r => pure (.isFree r)).run onMachine
  | free b => (freeBlock b >>= fun _ => pure .done).run onMachine
  | alloc => (allocBlock >>= fun r => pure (.block r)).run onMachine

/-- The calls the callers make: only blocks of the disk are freed. -/
def BitmapOp.Valid (s : Machine) : BitmapOp → Prop
  | free b => b ≠ 0 ∧ b.toNat < nblocks s.mem
  | _ => True

/-- What a call does to the set of free blocks. -/
inductive Implements (s : Machine) : BitmapOp → BitmapRet → Machine → Prop
  | isFree {b : Nat} {r : Bool} {s' : Machine} : (r = true ↔ b ∈ freeSet s.mem) → s'.mem = s.mem →
      Implements s (.isFree b) (.isFree r) s'
  | free {b : Word} {s' : Machine} : freeSet s'.mem = insert b.toNat (freeSet s.mem) →
      OneBit s.mem s'.mem b.toNat true → Implements s (.free b) .done s'
  | alloc {b : Nat} {s' : Machine} : IsLeast (freeSet s.mem) b → freeSet s'.mem = freeSet s.mem \ {b} →
      OneBit s.mem s'.mem b false → s'.disk (bitmapBlock b) = s'.mem (bitmapBlock b) →
      Implements s .alloc (.block (.ok b)) s'
  | full {s' : Machine} : freeSet s.mem = ∅ → s'.mem = s.mem →
      Implements s .alloc (.block (.error (-E_NO_DISK))) s'

/-! ## Faults on the bitmap -/

/-- What `fs_init` leaves: `check_super` and `check_bitmap` have looked at blocks 1 and 2. -/
structure Mounted (s : Machine) : Prop where
  super : s.Resident 1
  bitmap : s.Resident 2
  two_lt : 2 < nblocks s.mem
  le : nblocks s.mem ≤ DISKSIZE / BLKSIZE

/-- The bit of block `b` can be looked at: its block of the bitmap is in memory, or the bit is in
the first word of one that is not marked free. -/
def Touchable (s : Machine) (b : Nat) : Prop :=
  s.Resident (bitmapBlock b) ∨ (b / 32 % 1024 = 0 ∧ ¬ FreeIn s.mem (bitmapBlock b))

/-- Nothing the server sees has changed, and what was in memory still is. -/
structure Kept (s s' : Machine) : Prop where
  view : s'.view = s.view
  resident : ∀ b, s.Resident b → s'.Resident b

theorem Kept.refl (s : Machine) : Kept s s := ⟨rfl, fun _ h => h⟩

theorem Kept.trans {s1 s2 s3 : Machine} (h : Kept s1 s2) (h' : Kept s2 s3) : Kept s1 s3 :=
  ⟨h'.view.trans h.view, fun b hb => h'.resident b (h.resident b hb)⟩

theorem Kept.mem (h : Kept s s') : s'.mem = s.mem := congrArg View.mem h.view

theorem Kept.mounted (h : Kept s s') (hm : Mounted s) : Mounted s' :=
  ⟨h.resident 1 hm.super, h.resident 2 hm.bitmap, by rw [h.mem]; exact hm.two_lt,
    by rw [h.mem]; exact hm.le⟩

namespace Mounted

/-- The handler for a block of the bitmap other than the first. -/
theorem fault (hm : Mounted s) (hk : k < nblocks s.mem) (hbit : bitmapBlock k = 2)
    (hnone : s.cache k = none) : s.touch k off =
      if off ≠ 0 then (.error "in bc_pgfault, sys_page_map", s.pageIn k)
      else if FreeIn s.mem k then (.error "reading free block", (s.pageIn k).remap k)
      else (.ok (), (s.pageIn k).remap k) := by
  have hmem : ((s.pageIn k).remap k).mem = s.mem :=
    (Machine.remap_mem _ k).trans (Machine.pageIn_mem hnone)
  have h2 : (((s.pageIn k).remap k).cache 2).isSome := by
    rw [s.remap_pageIn k]
    by_cases h : 2 = k
    · rw [← h, Function.update_self]
      rfl
    · rw [Function.update_of_ne h]
      exact hm.bitmap
  rw [Machine.touch, Machine.access, if_neg (by simp [hnone]), Machine.bcPgfault_super 2 hm.super,
    if_neg (Nat.not_le.mpr hk), hbit, Machine.access, if_pos h2]
  simp only [hmem]

/-- The bitmap block of a block of the disk. -/
theorem bitmapBlock_lt (hm : Mounted s) (hb : b < nblocks s.mem) :
    bitmapBlock b < 26 ∧ bitmapBlock (bitmapBlock b) = 2 ∧ bitmapBlock b < nblocks s.mem ∧
      (32768 ≤ b → bitmapBlock b < b) := by
  have hle := hm.le
  have htwo := hm.two_lt
  have hval : bitmapBlock b = 2 + b / 32768 := rfl
  have hval2 : bitmapBlock (bitmapBlock b) = 2 + (2 + b / 32768) / 32768 := rfl
  have hsize : DISKSIZE / BLKSIZE = 786432 := by decide
  omega

/-- The bit of a block can be looked at exactly when it is touchable. -/
theorem touch (hm : Mounted s) (hb : b < nblocks s.mem) :
    (Touchable s b → ∃ s1, s.touch (bitmapBlock b) (4 * (b / 32 % 1024)) = (.ok (), s1) ∧
      Kept s s1 ∧ s1.Resident (bitmapBlock b)) ∧
    (¬ Touchable s b → ∃ e s1, s.touch (bitmapBlock b) (4 * (b / 32 % 1024)) = (.error e, s1)) := by
  obtain ⟨-, hbit, hlt, -⟩ := hm.bitmapBlock_lt hb
  by_cases hres : s.Resident (bitmapBlock b)
  · exact ⟨fun _ => ⟨s, Machine.touch_of_resident hres _, .refl s, hres⟩,
      fun h => absurd (Or.inl hres) h⟩
  have hfault := @Mounted.fault _ _ (4 * (b / 32 % 1024)) hm hlt hbit (Option.not_isSome_iff_eq_none.mp hres)
  have hview := s.touch_view (bitmapBlock b) (4 * (b / 32 % 1024))
  constructor
  · rintro (h | ⟨h0, hfree⟩)
    · exact absurd h hres
    · rw [h0] at hfault hview ⊢
      rw [if_neg (by decide), if_neg hfree] at hfault
      rw [hfault] at hview
      refine ⟨_, hfault, ⟨hview, fun c hc => ?_⟩, ?_⟩
      · rw [Machine.Resident, s.remap_pageIn]
        by_cases hcb : c = bitmapBlock b
        · rw [hcb, Function.update_self]
          rfl
        · rw [Function.update_of_ne hcb]
          exact hc
      · rw [Machine.Resident, s.remap_pageIn, Function.update_self]
        rfl
  · intro hno
    by_cases h0 : b / 32 % 1024 = 0
    · have hfree : FreeIn s.mem (bitmapBlock b) := by
        by_contra hfree
        exact hno (Or.inr ⟨h0, hfree⟩)
      rw [h0, if_neg (by decide), if_pos hfree] at hfault
      rw [h0]
      exact ⟨_, _, hfault⟩
    · rw [if_pos (by omega)] at hfault
      exact ⟨_, _, hfault⟩

end Mounted

/-! ## The calls on the machine -/

theorem touch_super (hm : Mounted s) : (load sNblocks).run onMachine s = (.ok (s.mem 1 1), s) := by
  refine (Prog.run_single (C := Cmd) (R := Cmd.Ans) (.load (.disk 1 1))).trans ?_
  simp only [onMachine, Machine.touch_of_resident hm.super]
  rfl

/-- Loading the word of a bit. -/
theorem run_load_bitmap (hm : Mounted s) (hb : b < nblocks s.mem) :
    (Touchable s b → ∃ w s1, (load (bitmapCell b)).run onMachine s = (.ok w, s1) ∧ Kept s s1 ∧
      s1.Resident (bitmapBlock b)) ∧
    (¬ Touchable s b → ∃ e s1, (load (bitmapCell b)).run onMachine s = (.error e, s1)) := by
  have hrun : (load (bitmapCell b)).run onMachine s =
      onMachine (.load (.disk (bitmapBlock b) (b / 32 % 1024))) s := Prog.run_single _
  constructor
  · intro h
    obtain ⟨s1, htouch, hkept, hres⟩ := (hm.touch hb).1 h
    refine ⟨s1.mem (bitmapBlock b) (b / 32 % 1024), s1, ?_, hkept, hres⟩
    rw [hrun]
    simp only [onMachine, htouch]
    rfl
  · intro h
    obtain ⟨e, s1, htouch⟩ := (hm.touch hb).2 h
    refine ⟨e, s1, ?_⟩
    rw [hrun]
    simp only [onMachine, htouch]
    rfl

theorem run_isFree_machine (hm : Mounted s) (h : b < nblocks s.mem → Touchable s b) :
    ∃ s1, (blockIsFree b).run onMachine s = (.ok (decide (FreeIn s.mem b)), s1) ∧ Kept s s1 ∧
      (b < nblocks s.mem → s1.Resident (bitmapBlock b)) := by
  obtain ⟨r, s1, hrun, hkept, hres⟩ : ∃ r s1, (blockIsFree b).run onMachine s = (.ok r, s1) ∧
      Kept s s1 ∧ (b < nblocks s.mem → s1.Resident (bitmapBlock b)) := by
    unfold blockIsFree
    rw [Prog.run_bind_ok (touch_super hm)]
    by_cases hb : nblocks s.mem ≤ b
    · rw [if_pos (show (s.mem 1 1).toNat ≤ b from hb)]
      exact ⟨false, s, rfl, .refl s, fun hlt => absurd hlt (Nat.not_lt.mpr hb)⟩
    · rw [if_neg (show ¬ (s.mem 1 1).toNat ≤ b from hb)]
      have hlt := Nat.not_le.mp hb
      obtain ⟨w, s1, hload, hkept, hres⟩ := (run_load_bitmap hm hlt).1 (h hlt)
      exact ⟨w.getLsbD (b % 32), s1, by rw [Prog.run_bind_ok hload]; rfl, hkept, fun _ => hres⟩
  have hview := (abstracts.run_ok hrun).symm.trans (run_blockIsFree b s.view)
  have hr : r = decide (FreeIn s.mem b) := Except.ok.inj (Prod.mk.inj hview).1
  exact ⟨s1, hr ▸ hrun, hkept, hres⟩

theorem run_isFree_fault (hm : Mounted s) (hb : b < nblocks s.mem) (h : ¬ Touchable s b) :
    ∃ e s1, (blockIsFree b).run onMachine s = (.error e, s1) := by
  obtain ⟨e, s1, hload⟩ := (run_load_bitmap hm hb).2 h
  unfold blockIsFree
  rw [Prog.run_bind_ok (touch_super hm),
    if_neg (show ¬ (s.mem 1 1).toNat ≤ b from Nat.not_le.mpr hb)]
  exact ⟨e, s1, by rw [Prog.run_bind_error hload]⟩

/-- The scan of `alloc_block` finds the blocks of the bitmap at their first word, and none of them
marked free. -/
theorem run_findFree_machine (n : Nat) : ∀ (i : Nat) (s : Machine), Mounted s →
    i + n = nblocks s.mem → (∀ j, j < i → ¬ FreeIn s.mem j) →
    (∀ j, j < i → s.Resident (bitmapBlock j)) →
    ∃ r s1, (findFree n i).run onMachine s = (.ok r, s1) ∧ Kept s s1 ∧
      ∀ b, r = some b → s1.Resident (bitmapBlock b) := by
  induction n with
  | zero =>
      intro i s _ _ _ _
      exact ⟨none, s, rfl, .refl s, fun b hb => by cases hb⟩
  | succ n ih =>
      intro i s hm hin hnone hres
      have hlt : i < nblocks s.mem := by omega
      have htouch : Touchable s i := by
        by_cases hi : s.Resident (bitmapBlock i)
        · exact Or.inl hi
        -- `i` is the first block of its block of the bitmap, and that one comes before `i`
        have hval : bitmapBlock i = 2 + i / 32768 := rfl
        have hge : 32768 ≤ i := by
          by_contra hsmall
          have h2 : bitmapBlock i = 2 := by omega
          rw [h2] at hi
          exact hi hm.bitmap
        have hfirst : i % 32768 = 0 := by
          by_contra hne
          have hprev : bitmapBlock (i - 1) = bitmapBlock i := by
            show 2 + (i - 1) / 32768 = 2 + i / 32768
            omega
          have := hres (i - 1) (by omega)
          rw [hprev] at this
          exact hi this
        exact Or.inr ⟨by omega, hnone _ ((hm.bitmapBlock_lt hlt).2.2.2 hge)⟩
      obtain ⟨s1, hrun, hkept, hresi⟩ := run_isFree_machine hm fun _ => htouch
      rw [findFree, Prog.run_bind_ok hrun]
      by_cases hfree : FreeIn s.mem i
      · rw [if_pos (decide_eq_true hfree)]
        refine ⟨some i, s1, rfl, hkept, fun b hb => ?_⟩
        cases hb
        exact hresi hlt
      · rw [if_neg (by simp [hfree])]
        have hmem := hkept.mem
        obtain ⟨r, s2, hrun2, hkept2, hres2⟩ := ih (i + 1) s1 (hkept.mounted hm)
          (by rw [hmem]; omega)
          (fun j hj => by
            rw [hmem]
            obtain hj | rfl : j < i ∨ j = i := by omega
            · exact hnone j hj
            · exact hfree)
          (fun j hj => by
            obtain hj | rfl : j < i ∨ j = i := by omega
            · exact hkept.resident _ (hres j hj)
            · exact hresi hlt)
        exact ⟨r, s2, hrun2, hkept.trans hkept2, hres2⟩

/-- Storing into a block in memory. -/
theorem run_store_machine (h : s.Resident k) (i : Nat) (w : Word) :
    (store (.disk k i) w).run onMachine s = (.ok (), s.store k i w) := by
  refine (Prog.run_single (C := Cmd) (R := Cmd.Ans) (.store (.disk k i) w)).trans ?_
  simp only [onMachine, Machine.touch_of_resident h]
  rfl

theorem run_load_machine (h : s.Resident k) (i : Nat) :
    (load (.disk k i)).run onMachine s = (.ok (s.mem k i), s) := by
  refine (Prog.run_single (C := Cmd) (R := Cmd.Ans) (.load (.disk k i))).trans ?_
  simp only [onMachine, Machine.touch_of_resident h]
  rfl

/-- A block that has just been stored to is written by `flush_block`. -/
theorem flush_store (s : Machine) (k i : Nat) (w : Word) :
    ((s.store k i w).flushBlock k).disk k = ((s.store k i w).flushBlock k).mem k := by
  have hcache : (s.store k i w).cache k = some ⟨Function.update (s.mem k) i w, true⟩ := by
    simp [Machine.store]
  have hflush : (s.store k i w).flushBlock k = { s.store k i w with
      disk := Function.update (s.store k i w).disk k (Function.update (s.mem k) i w)
      written := (k, Function.update (s.mem k) i w) :: (s.store k i w).written
      cache := Function.update (s.store k i w).cache k
        (some ⟨Function.update (s.mem k) i w, false⟩) } := by
    rw [Machine.flushBlock, hcache]
    rfl
  rw [hflush]
  simp [Machine.mem]

/-- What is in memory stays in memory. -/
theorem run_resident {α : Type} (p : FsM α) (h : s.Resident b) :
    (p.run onMachine s).2.Resident b :=
  Prog.run_preserves (I := fun s => s.Resident b) (fun c s => onMachine_cached c s) p h

theorem run_alloc_machine (hm : Mounted s) : ∃ r s1, allocBlock.run onMachine s = (.ok r, s1) ∧
    ∀ b, r = .ok b → s1.disk (bitmapBlock b) = s1.mem (bitmapBlock b) := by
  obtain ⟨r, s1, hrun, -, hres⟩ := run_findFree_machine (nblocks s.mem) 0 s hm (Nat.zero_add _)
    (fun j hj => absurd hj (Nat.not_lt_zero j)) (fun j hj => absurd hj (Nat.not_lt_zero j))
  unfold allocBlock
  rw [Prog.run_bind_ok (touch_super hm), show (s.mem 1 1).toNat = nblocks s.mem from rfl,
    Prog.run_bind_ok hrun]
  cases r with
  | none => exact ⟨_, s1, rfl, fun b hb => by cases hb⟩
  | some b =>
      have hb := hres b rfl
      have hload := run_load_machine hb (b / 32 % 1024)
      have hstore := run_store_machine hb (b / 32 % 1024)
        (s1.mem (bitmapBlock b) (b / 32 % 1024) &&& ~~~ bitMask b)
      refine ⟨.ok b, (s1.store (bitmapBlock b) (b / 32 % 1024)
        (s1.mem (bitmapBlock b) (b / 32 % 1024) &&& ~~~ bitMask b)).flushBlock (bitmapBlock b),
        ?_, fun b' hb' => ?_⟩
      · simp only [bitmapCell]
        rw [Prog.run_bind_ok hload, Prog.run_bind_ok hstore]
        rfl
      · cases hb'
        exact flush_store s1 _ _ _

theorem run_free_machine {w : Word} (hw : w ≠ 0) (hm : Mounted s) (hlt : w.toNat < nblocks s.mem) :
    (Touchable s w.toNat → ∃ s1, (freeBlock w).run onMachine s = (.ok (), s1)) ∧
    (¬ Touchable s w.toNat → ∃ e s1, (freeBlock w).run onMachine s = (.error e, s1)) := by
  unfold freeBlock
  rw [if_neg hw]
  constructor
  · intro h
    obtain ⟨x, s1, hload, -, hres⟩ := (run_load_bitmap hm hlt).1 h
    rw [Prog.run_bind_ok hload]
    exact ⟨_, run_store_machine hres _ _⟩
  · intro h
    obtain ⟨e, s1, hload⟩ := (run_load_bitmap hm hlt).2 h
    exact ⟨e, s1, by rw [Prog.run_bind_error hload]⟩

/-! ## Runs -/

/-- One call, with what it returned or the message of its panic. -/
def bitmapStep (s : Machine) (a : BitmapOp × Except String BitmapRet) (s' : Machine) : Prop :=
  a.1.Valid s ∧ a.1.run s = (a.2, s')

/-- The bit the call looks at can be looked at. -/
def BitmapOp.Ready (s : Machine) : BitmapOp → Prop
  | isFree b => b < nblocks s.mem → Touchable s b
  | free b => Touchable s b.toNat
  | alloc => True

/-- One call: it does what it has to exactly when it is ready. -/
theorem implements_iff (hm : Mounted s) {op : BitmapOp} {r : Except String BitmapRet}
    (h : bitmapStep s (op, r) s') : (∃ ret, r = .ok ret ∧ Implements s op ret s') ↔ op.Ready s := by
  obtain ⟨hvalid, hrun⟩ := h
  simp only at hvalid hrun
  cases op with
  | isFree b =>
      rw [BitmapOp.run] at hrun
      constructor
      · rintro ⟨ret, rfl, -⟩ hb
        by_contra hno
        obtain ⟨e, s1, hfault⟩ := run_isFree_fault hm hb hno
        rw [Prog.run_bind_error hfault] at hrun
        cases hrun
      · intro hready
        obtain ⟨s1, hfree, hkept, -⟩ := run_isFree_machine hm hready
        rw [Prog.run_bind_ok hfree] at hrun
        cases hrun
        exact ⟨_, rfl, .isFree decide_eq_true_iff hkept.mem⟩
  | free w =>
      obtain ⟨hw, hlt⟩ := hvalid
      rw [BitmapOp.run] at hrun
      constructor
      · rintro ⟨ret, rfl, -⟩
        by_contra hno
        obtain ⟨e, s1, hfault⟩ := (run_free_machine hw hm hlt).2 hno
        rw [Prog.run_bind_error hfault] at hrun
        cases hrun
      · intro hready
        obtain ⟨s1, hfree⟩ := (run_free_machine hw hm hlt).1 hready
        have hview := (abstracts.run_ok hfree).symm.trans (run_freeBlock w s.view)
        rw [if_neg hw] at hview
        have hmem : s1.mem = (s.view.release w.toNat).mem := congrArg View.mem (Prod.mk.inj hview).2
        rw [Prog.run_bind_ok hfree] at hrun
        cases hrun
        refine ⟨_, rfl, .free (Set.ext fun b => ?_) ?_⟩
        · rw [hmem]
          refine (freeIn_release s.view w.toNat b).trans ?_
          rw [and_iff_left (show w.toNat < nblocks s.view.mem from hlt), or_comm]
          rfl
        · rw [hmem]
          exact oneBit_release s.view w.toNat
  | alloc =>
      rw [BitmapOp.run] at hrun
      refine iff_of_true ?_ trivial
      obtain ⟨r1, s1, halloc, hdisk⟩ := run_alloc_machine hm
      have hview := (abstracts.run_ok halloc).symm.trans (run_allocBlock s.view)
      rw [Prog.run_bind_ok halloc] at hrun
      cases hrun
      cases hfirst : firstFree s.view.mem with
      | none =>
          rw [hfirst] at hview
          obtain ⟨hr, hs⟩ := Prod.mk.inj hview
          cases hr
          exact ⟨_, rfl, .full (firstFree_empty hfirst) (congrArg View.mem hs)⟩
      | some b =>
          rw [hfirst] at hview
          obtain ⟨hr, hs⟩ := Prod.mk.inj hview
          cases hr
          have hmem : s'.mem = (s.view.use b).mem := congrArg View.mem hs
          refine ⟨_, rfl, .alloc (firstFree_isLeast hfirst) (Set.ext fun c => ?_) ?_ (hdisk b rfl)⟩
          · rw [hmem]
            exact freeIn_use s.view b c
          · rw [hmem]
            exact oneBit_use s.view b

theorem OneBit.nblocks_eq {mem mem' : Nat → Block} {on : Bool} (h : OneBit mem mem' b on) :
    nblocks mem' = nblocks mem := by
  have hword : mem' 1 1 = mem 1 1 := by
    refine BitVec.eq_of_getLsbD_eq fun j hj => h.2 1 1 j hj fun hbit => ?_
    have htwo := two_le_bitmapBlock b
    have hone := hbit.1
    omega
  rw [nblocks, nblocks, hword]

theorem Implements.nblocks_eq {op : BitmapOp} {ret : BitmapRet} (h : Implements s op ret s') :
    nblocks s'.mem = nblocks s.mem := by
  cases h with
  | isFree _ hmem => rw [hmem]
  | free _ hbit => exact hbit.nblocks_eq
  | alloc _ _ hbit _ => exact hbit.nblocks_eq
  | full _ hmem => rw [hmem]

/-- A call that is ready leaves the file system as it has to be for the next one. -/
theorem Mounted.step (hm : Mounted s) {a : BitmapOp × Except String BitmapRet}
    (h : Guarded (fun s a => a.1.Ready s) bitmapStep s a s') : Mounted s' := by
  obtain ⟨hready, hstep⟩ := h
  obtain ⟨ret, -, himp⟩ := (implements_iff hm hstep).mpr hready
  have hres : ∀ b, s.Resident b → s'.Resident b := by
    intro b hb
    have hrun := hstep.2
    obtain ⟨op, r⟩ := a
    rw [show s' = (op.run s).2 from (congrArg Prod.snd hrun).symm]
    cases op <;> exact run_resident _ hb
  exact ⟨hres 1 hm.super, hres 2 hm.bitmap, himp.nblocks_eq ▸ hm.two_lt, himp.nblocks_eq ▸ hm.le⟩

/-- In every run of calls that are ready, each call does to the set, to the other bits and to
the disk what it has to, and the next one does exactly when it is ready. -/
theorem bitmap_implements_iff (hm : Mounted s) {tr : List (BitmapOp × Except String BitmapRet)}
    (hrun : Run (Guarded (fun s a => a.1.Ready s) bitmapStep) s tr s1)
    {op : BitmapOp} {r : Except String BitmapRet} (hstep : bitmapStep s1 (op, r) s') :
    (∃ ret, r = .ok ret ∧ Implements s1 op ret s') ↔ op.Ready s1 :=
  implements_iff (hrun.preserves (I := Mounted) (fun _ _ _ hm h => hm.step h) hm) hstep

/-- A disk of 65536 blocks, whose bitmap takes two, as it is after `fs_init`. -/
def twoBitmapBlocks : Machine where
  disk := fun _ _ => 0
  cache := fun b =>
    if b = 1 then some ⟨fun i => if i = 1 then 65536 else 0, false⟩
    else if b = 2 then some ⟨fun _ => 0, false⟩
    else none
  req := fun _ => 0
  own := fun _ => 0
  moves := []
  written := []

theorem mounted_twoBitmapBlocks : Mounted twoBitmapBlocks :=
  ⟨rfl, rfl, by decide, by decide⟩

theorem bitmap_implements_alloc : ∃ ret, (BitmapOp.alloc.run twoBitmapBlocks).1 = .ok ret ∧
    Implements twoBitmapBlocks .alloc ret (BitmapOp.alloc.run twoBitmapBlocks).2 := by
  have hvalid : BitmapOp.alloc.Valid twoBitmapBlocks := trivial
  have hready : BitmapOp.alloc.Ready twoBitmapBlocks := trivial
  generalize hrun : BitmapOp.alloc.run twoBitmapBlocks = out
  obtain ⟨r, s'⟩ := out
  have hstep : bitmapStep twoBitmapBlocks (.alloc, r) s' := ⟨hvalid, hrun⟩
  have hnil : Run (Guarded (fun s a => a.1.Ready s) bitmapStep) twoBitmapBlocks [] twoBitmapBlocks :=
    .nil _
  exact (bitmap_implements_iff mounted_twoBitmapBlocks hnil hstep).mpr hready

/-- `free_block(40000)`, the first call after `fs_init`, faults in the middle of the second block
of the bitmap. -/
theorem free_block_panics : Mounted twoBitmapBlocks ∧
    (BitmapOp.free 40000).Valid twoBitmapBlocks ∧
    ((BitmapOp.free 40000).run twoBitmapBlocks).1 = .error "in bc_pgfault, sys_page_map" :=
  ⟨mounted_twoBitmapBlocks, ⟨by decide, by decide⟩, rfl⟩

end SisOp.Fs
