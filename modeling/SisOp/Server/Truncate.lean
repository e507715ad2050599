/-
# `SisOp.Server.Truncate` — truncation frees the tail

`file_truncate_blocks` goes through the slots behind the new end.  From one turn to the
next (`Cut`) a slot more is empty and its block free; at the end the indirect block goes
too when no slot in it is left (`Truncated`).  The bytes before the new end stay, in the
blocks the file has; a byte in an empty slot is read from whatever block is free, which
truncating can change.
-/
import SisOp.Server.ReadWrite

namespace SisOp.Fs

open SisOp.Lib SisOp.Jos

/-- `ceil(n / BLKSIZE)`. -/
def blockCount (n : Nat) : Nat := (n + (BLKSIZE - 1)) / BLKSIZE

/-! ## The loop -/

/-- The slots of `f` from `lo` to `i` are empty, their blocks free, and nothing else has changed. -/
structure Cut (F : FilePtr → Prop) (f : FilePtr) (lo : Nat) (v0 : View) (i : Nat) (v : View) : Prop where
  owned : Owned v.mem F
  blocks : nblocks v.mem = nblocks v0.mem
  field : ∀ g j, F g → j < 64 → (g = f → j < 34 ∨ 44 ≤ j) →
    v.mem g.blk (g.idx + j) = v0.mem g.blk (g.idx + j)
  slots : ∀ g k, F g →
    fileBlock v.mem g k = if g = f ∧ lo ≤ k ∧ k < i then 0 else fileBlock v0.mem g k
  free : ∀ b, FreeIn v.mem b ↔
    FreeIn v0.mem b ∨ b ≠ 0 ∧ ∃ k, lo ≤ k ∧ k < i ∧ fileBlock v0.mem f k = b
  words : ∀ x y, (∀ b < nblocks v0.mem, x ≠ bitmapBlock b) →
    (∀ k, lo ≤ k → k < i → HasSlot v0.mem f k → ¬ (x = slotBlk v0.mem f k ∧ y = slotIdx f k)) →
    v.mem x y = v0.mem x y

section

variable {v v0 : View} {F : FilePtr → Prop} {f g : FilePtr} {lo i k n : Nat}

theorem Cut.refl (h : Owned v.mem F) (f : FilePtr) (lo : Nat) : Cut F f lo v lo v where
  owned := h
  blocks := rfl
  field := fun _ _ _ _ _ => rfl
  slots := fun g k _ => by rw [if_neg (by omega)]
  free := fun b => by
    refine ⟨.inl, ?_⟩
    rintro (hb | ⟨-, k, hlo, hhi, -⟩)
    · exact hb
    · omega
  words := fun _ _ _ _ => rfl

namespace Cut

variable (hv : Cut F f lo v0 i v) (hf : F f)

include hv

theorem indirectBlock_eq (hg : F g) : indirectBlock v.mem g = indirectBlock v0.mem g :=
  congrArg _ (hv.field g 44 hg (by decide) fun _ => .inr le_rfl)

theorem isDir_iff (hg : F g) : IsDir v.mem g ↔ IsDir v0.mem g := by
  unfold IsDir
  rw [hv.field g 33 hg (by decide) fun _ => .inl (by decide)]

include hf

theorem slotBlk_eq (k : Nat) : slotBlk v.mem f k = slotBlk v0.mem f k := by
  unfold slotBlk
  rw [hv.indirectBlock_eq hf]

theorem hasSlot_iff : HasSlot v.mem f k ↔ HasSlot v0.mem f k := by
  unfold HasSlot
  rw [hv.indirectBlock_eq hf]

/-- The slot of the next turn has not been touched. -/
theorem slot_eq : fileBlock v.mem f i = fileBlock v0.mem f i := by
  rw [hv.slots f i hf, if_neg (by omega)]

/-- An empty slot is passed over. -/
theorem skip (h0 : fileBlock v.mem f i = 0) : Cut F f lo v0 (i + 1) v where
  owned := hv.owned
  blocks := hv.blocks
  field := hv.field
  slots := fun g k hg => by
    rw [hv.slots g k hg]
    by_cases hin : g = f ∧ lo ≤ k ∧ k < i
    · rw [if_pos hin, if_pos ⟨hin.1, hin.2.1, hin.2.2.trans (Nat.lt_succ_self i)⟩]
    · rw [if_neg hin]
      split
      · rename_i hnew
        obtain ⟨rfl, hlo, hhi⟩ := hnew
        have hk : k = i := by
          by_contra hne
          exact hin ⟨rfl, hlo, by omega⟩
        rw [hk, ← hv.slot_eq hf, h0]
      · rfl
  free := fun b => by
    rw [hv.free]
    refine or_congr_right (and_congr_right fun hb => ⟨?_, ?_⟩)
    · rintro ⟨k, hlo, hhi, hk⟩
      exact ⟨k, hlo, hhi.trans (Nat.lt_succ_self i), hk⟩
    · rintro ⟨k, hlo, hhi, hk⟩
      refine ⟨k, hlo, lt_of_le_of_ne (Nat.le_of_lt_succ hhi) ?_, hk⟩
      rintro rfl
      exact hb (by rw [← hk, ← hv.slot_eq hf, h0])
  words := fun x y hx hy => hv.words x y hx fun k hlo hhi => hy k hlo (hhi.trans (Nat.lt_succ_self i))

/-- The block of the slot is freed. -/
theorem shrink (hreg : ¬ IsDir v0.mem f) (hlo : lo ≤ i) (h0 : fileBlock v.mem f i ≠ 0) :
    Cut F f lo v0 (i + 1) (v.shrink f i) := by
  have hreg' := mt (hv.isDir_iff hf).mp hreg
  have hs := hasSlot_of_ne_zero h0
  refine ⟨hv.owned.shrink hf hreg' h0, ?_, fun g j hg hj hne => ?_, fun g k hg => ?_, fun b => ?_,
    fun x y hx hy => ?_⟩
  · rw [hv.owned.nblocks_shrink hf h0, hv.blocks]
  · rw [hv.owned.field_shrink hf hreg' h0 hg hj hne]
    exact hv.field g j hg hj hne
  · rw [hv.owned.fileBlock_shrink hf hreg' h0 hg, hv.slots g k hg]
    by_cases hin : g = f ∧ lo ≤ k ∧ k < i
    · have hin' : g = f ∧ lo ≤ k ∧ k < i + 1 := ⟨hin.1, hin.2.1, hin.2.2.trans (Nat.lt_succ_self i)⟩
      rw [if_pos hin, if_pos hin']
      split <;> rfl
    · rw [if_neg hin]
      by_cases hnew : g = f ∧ k = i
      · obtain ⟨rfl, rfl⟩ := hnew
        rw [if_pos ⟨rfl, rfl⟩, if_pos ⟨rfl, hlo, Nat.lt_succ_self k⟩]
      · rw [if_neg hnew, if_neg]
        rintro ⟨hg', hlo', hhi'⟩
        exact hin ⟨hg', hlo', lt_of_le_of_ne (Nat.le_of_lt_succ hhi') fun hk => hnew ⟨hg', hk⟩⟩
  · rw [hv.owned.freeIn_shrink hf h0, hv.free, or_assoc]
    refine or_congr_right ⟨?_, ?_⟩
    · rintro (⟨hb, k, hk, hk', heq⟩ | rfl)
      · exact ⟨hb, k, hk, hk'.trans (Nat.lt_succ_self i), heq⟩
      · exact ⟨h0, i, hlo, Nat.lt_succ_self i, (hv.slot_eq hf).symm⟩
    · rintro ⟨hb, k, hk, hk', heq⟩
      by_cases hki : k = i
      · subst hki
        exact .inr (heq.symm.trans (hv.slot_eq hf).symm)
      · exact .inl ⟨hb, k, hk, by omega, heq⟩
  · have hrange : fileBlock v.mem f i < nblocks v.mem := (hv.owned.range (.data f i) hf h0).2
    rw [hv.owned.mem_shrink hf h0 (hx _ (hv.blocks ▸ hrange))]
    · exact hv.words x y hx fun k hk hk' => hy k hk (hk'.trans (Nat.lt_succ_self i))
    · rw [hv.slotBlk_eq hf]
      exact hy i hlo (Nat.lt_succ_self i) ((hv.hasSlot_iff hf).mp hs)

end Cut

/-- The loop of `file_truncate_blocks`, over slots that exist. -/
theorem run_freeBlocks (n : Nat) (hv : Cut F f lo v0 i v) (hf : F f) (hreg : ¬ IsDir v0.mem f)
    (hlo : lo ≤ i) (hhi : i + n < 2 ^ 32) :
    ∃ v', (freeBlocks f n (BitVec.ofNat 32 i)).run onView v = (.ok (), v') ∧
      Cut F f lo v0 (i + n) v' := by
  induction n generalizing i v with
  | zero => exact ⟨v, rfl, hv⟩
  | succ n ih =>
      have hi : (BitVec.ofNat 32 i).toNat = i := by
        rw [BitVec.toNat_ofNat, Nat.mod_eq_of_lt (by omega)]
      have hnext : BitVec.ofNat 32 i + 1 = BitVec.ofNat 32 (i + 1) := (BitVec.ofNat_add i 1).symm
      obtain ⟨r, hrun⟩ := hv.owned.run_fileFreeBlock hf (BitVec.ofNat 32 i)
      rw [hi] at hrun
      have hcut : Cut F f lo v0 (i + 1) (if fileBlock v.mem f i = 0 then v else v.shrink f i) := by
        split
        · exact hv.skip hf ‹_›
        · exact hv.shrink hf hreg hlo ‹_›
      obtain ⟨v', hrest, hcut'⟩ := ih hcut (by omega) (by omega)
      refine ⟨v', ?_, by rwa [show i + (n + 1) = i + 1 + n by omega]⟩
      rw [freeBlocks, Prog.run_bind_ok hrun, hnext, hrest]

end

/-! ## The tail -/

/-- The slots of `f` from `lo` on are empty and their blocks free, the indirect block too if it held
none of the others, and nothing else has changed. -/
structure Tail (F : FilePtr → Prop) (f : FilePtr) (lo : Nat) (v0 v : View) : Prop where
  owned : Owned v.mem F
  field : ∀ j < 34, v.mem f.blk (f.idx + j) = v0.mem f.blk (f.idx + j)
  keeps : ∀ k < lo, fileBlock v.mem f k = fileBlock v0.mem f k
  freed : ∀ b, FreeIn v.mem b ↔ FreeIn v0.mem b ∨ b ≠ 0 ∧
    ((∃ k, lo ≤ k ∧ fileBlock v0.mem f k = b) ∨ lo ≤ NDIRECT ∧ indirectBlock v0.mem f = b)
  indirect : indirectBlock v.mem f = if lo ≤ NDIRECT then 0 else indirectBlock v0.mem f
  slots : ∀ k, lo ≤ k → HasSlot v0.mem f k → v.get (slot v0.mem f k) = 0
  words : ∀ x y, (∀ b < nblocks v0.mem, x ≠ bitmapBlock b) →
    (∀ k, lo ≤ k → HasSlot v0.mem f k → .disk x y ≠ slot v0.mem f k) →
    (lo ≤ NDIRECT → .disk x y ≠ f.fIndirect) → v.mem x y = v0.mem x y

section

variable {v v0 : View} {F : FilePtr → Prop} {f g : FilePtr} {lo hi k n : Nat}

namespace Cut

variable (hv : Cut F f lo v0 hi v) (hf : F f) (hempty : ∀ k, hi ≤ k → fileBlock v0.mem f k = 0)

include hv hf hempty

theorem slot_zero (hk : lo ≤ k) : fileBlock v.mem f k = 0 := by
  rw [hv.slots f k hf]
  split
  · rfl
  · rename_i hno
    refine hempty k ?_
    by_contra hlt
    exact hno ⟨rfl, hk, not_le.mp hlt⟩

theorem get_slot (hk : lo ≤ k) (hs : HasSlot v0.mem f k) : v.get (slot v0.mem f k) = 0 := by
  have hzero := hv.slot_zero hf hempty hk
  rw [fileBlock_of_slot ((hv.hasSlot_iff hf).mpr hs), hv.slotBlk_eq hf] at hzero
  exact BitVec.eq_of_toNat_eq hzero

theorem freed (b : Nat) : FreeIn v.mem b ↔
    FreeIn v0.mem b ∨ b ≠ 0 ∧ ∃ k, lo ≤ k ∧ fileBlock v0.mem f k = b := by
  rw [hv.free]
  refine or_congr_right (and_congr_right fun hb => ⟨fun ⟨k, hlo, _, hk⟩ => ⟨k, hlo, hk⟩, ?_⟩)
  rintro ⟨k, hlo, hk⟩
  refine ⟨k, hlo, ?_, hk⟩
  by_contra hge
  exact hb (hk.symm.trans (hempty k (not_lt.mp hge)))

theorem word (x y : Nat) (hx : ∀ b < nblocks v0.mem, x ≠ bitmapBlock b)
    (hy : ∀ k, lo ≤ k → HasSlot v0.mem f k → Cell.disk x y ≠ slot v0.mem f k) :
    v.mem x y = v0.mem x y :=
  hv.words x y hx fun k hlo _ hs heq => hy k hlo hs (congrArg₂ Cell.disk heq.1 heq.2)

/-- The indirect block stays: it holds other slots. -/
theorem tail_of_gt (hlo : ¬ lo ≤ NDIRECT) : Tail F f lo v0 v where
  owned := hv.owned
  field := fun j hj => hv.field f j hf (by omega) fun _ => .inl hj
  keeps := fun k hk => by rw [hv.slots f k hf, if_neg (by omega)]
  freed := fun b => by
    rw [hv.freed hf hempty]
    exact or_congr_right (and_congr_right fun _ => (or_iff_left fun h => hlo h.1).symm)
  indirect := by rw [if_neg hlo, hv.indirectBlock_eq hf]
  slots := fun k => hv.get_slot hf hempty
  words := fun x y hx hy _ => hv.word hf hempty x y hx hy

/-- There is no indirect block. -/
theorem tail_of_zero (h0 : indirectBlock v0.mem f = 0) : Tail F f lo v0 v where
  owned := hv.owned
  field := fun j hj => hv.field f j hf (by omega) fun _ => .inl hj
  keeps := fun k hk => by rw [hv.slots f k hf, if_neg (by omega)]
  freed := fun b => by
    rw [hv.freed hf hempty]
    exact or_congr_right (and_congr_right fun hb =>
      (or_iff_left fun h => hb (h.2.symm.trans h0)).symm)
  indirect := by rw [hv.indirectBlock_eq hf, h0, ite_self]
  slots := fun k => hv.get_slot hf hempty
  words := fun x y hx hy _ => hv.word hf hempty x y hx hy

/-- The indirect block holds no slot any more. -/
theorem tail_of_drop (hreg : ¬ IsDir v0.mem f) (hlo : lo ≤ NDIRECT) (h0 : indirectBlock v.mem f ≠ 0) :
    Tail F f lo v0 (v.dropIndirect f) := by
  have hreg' := mt (hv.isDir_iff hf).mp hreg
  have hind := hv.indirectBlock_eq hf
  have hrange : indirectBlock v.mem f < nblocks v.mem := (hv.owned.range (.indirect f) hf h0).2
  have hten : NDIRECT = 10 := rfl
  refine ⟨hv.owned.dropIndirect hf h0 hreg', fun j hj => ?_, fun k hk => ?_, fun b => ?_, ?_,
    fun k hk hs => ?_, fun x y hx hy hne => ?_⟩
  · rw [hv.owned.field_dropIndirect hf h0 hreg' hf (by omega) fun _ => by omega]
    exact hv.field f j hf (by omega) fun _ => .inl hj
  · rw [hv.owned.fileBlock_dropIndirect hf h0 hreg' hf, if_neg (by omega), hv.slots f k hf,
      if_neg (by omega)]
  · rw [hv.owned.freeIn_dropIndirect hf h0, hv.freed hf hempty, hind, or_assoc]
    refine or_congr_right ⟨?_, ?_⟩
    · rintro (⟨hb, hk⟩ | rfl)
      · exact ⟨hb, .inl hk⟩
      · exact ⟨hind ▸ h0, .inr ⟨hlo, rfl⟩⟩
    · rintro ⟨hb, hk | ⟨-, heq⟩⟩
      · exact .inl ⟨hb, hk⟩
      · exact .inr heq.symm
  · rw [hv.owned.indirectBlock_dropIndirect hf h0 hreg' hf, if_pos rfl, if_pos hlo]
  · have hs' := (hv.hasSlot_iff hf).mpr hs
    have hget : (v.dropIndirect f).get (slot v0.mem f k) = v.get (slot v0.mem f k) := by
      refine hv.owned.mem_dropIndirect hf h0 ?_ ?_
      · rw [← hv.slotBlk_eq hf]
        exact hv.owned.meta_ne_bitmap hrange (isMeta_slotBlk hf hs')
      · rw [← hv.slotBlk_eq hf]
        rintro ⟨hblk, hidx⟩
        exact hv.owned.slot_ne_field (i := 44) hf hf hs' (by decide) (fun _ => .inr le_rfl)
          (congrArg₂ Cell.disk hblk hidx)
    rw [hget, hv.get_slot hf hempty hk hs]
  · rw [hv.owned.mem_dropIndirect hf h0 (hx _ (hv.blocks ▸ hrange))]
    · exact hv.word hf hempty x y hx hy
    · rintro ⟨rfl, rfl⟩
      exact hne hlo rfl

end Cut

end

/-! ## The functions -/

section

variable {v v' : View} {F : FilePtr → Prop} {f g : FilePtr} {n : Word} {k p : Nat}

theorem blockCount_mono {a b : Nat} (h : a ≤ b) : blockCount a ≤ blockCount b :=
  Nat.div_le_div_right (Nat.add_le_add_right h _)

theorem lt_blockCount {a b : Nat} (h : a < b) : a / BLKSIZE < blockCount b := by
  unfold blockCount BLKSIZE
  omega

theorem toNat_sizeBlocks {w : Word} (h : w.toNat + 4095 < 2 ^ 31) :
    (sizeBlocks w).toNat = blockCount w.toNat :=
  toNat_sizeBlocks_small h

/-- `file_truncate_blocks` is done: the indirect block stays, or goes too. -/
inductive Cleared (F : FilePtr → Prop) (f : FilePtr) (lo hi : Nat) (v0 : View) : View → Prop
  | kept {v : View} (hcut : Cut F f lo v0 hi v) (h : lo ≤ NDIRECT → indirectBlock v0.mem f = 0) :
      Cleared F f lo hi v0 v
  | dropped {v : View} (hcut : Cut F f lo v0 hi v) (hlo : lo ≤ NDIRECT) (h0 : indirectBlock v.mem f ≠ 0) :
      Cleared F f lo hi v0 (v.dropIndirect f)

/-- `file_truncate_blocks`. -/
theorem run_fileTruncateBlocks (h : Owned v.mem F) (hf : F f) (hreg : ¬ IsDir v.mem f)
    (hold : (fileSize v.mem f).toNat + 4095 < 2 ^ 31) (hlt : n.toNat < (fileSize v.mem f).toNat) :
    ∃ v', (fileTruncateBlocks f n).run onView v = (.ok (), v') ∧
      Cleared F f (blockCount n.toNat) (blockCount (fileSize v.mem f).toNat) v v' := by
  have hmono := blockCount_mono hlt.le
  have hload : (load f.fSize).run onView v = (.ok (fileSize v.mem f), v) := run_load f.fSize v
  have hsmall : blockCount (fileSize v.mem f).toNat < 2 ^ 31 := by
    unfold blockCount BLKSIZE
    omega
  have hnew : sizeBlocks n = BitVec.ofNat 32 (blockCount n.toNat) := by
    rw [← toNat_sizeBlocks (by omega), BitVec.ofNat_toNat, BitVec.setWidth_eq]
  obtain ⟨v1, hloop, hcut⟩ := run_freeBlocks
    (blockCount (fileSize v.mem f).toNat - blockCount n.toNat) (Cut.refl h f (blockCount n.toNat)) hf hreg
    le_rfl (by omega)
  rw [Nat.add_sub_cancel' hmono] at hcut
  have hload' : (load f.fIndirect).run onView v1 = (.ok (v1.get f.fIndirect), v1) := run_load _ v1
  unfold fileTruncateBlocks
  rw [Prog.run_bind_ok hload]
  simp only
  rw [toNat_sizeBlocks hold, toNat_sizeBlocks (by omega), hnew, Prog.run_bind_ok hloop, run_ite]
  by_cases hlo : blockCount n.toNat ≤ NDIRECT
  · rw [if_pos hlo, Prog.run_bind_ok hload', run_ite]
    by_cases h0 : v1.get f.fIndirect = 0
    · rw [if_pos h0]
      refine ⟨v1, rfl, .kept hcut fun _ => ?_⟩
      rw [← hcut.indirectBlock_eq hf]
      exact congrArg BitVec.toNat h0
    · have hfree := run_freeBlock (v1.get f.fIndirect) v1
      rw [if_neg h0] at hfree
      rw [if_neg h0, Prog.run_bind_ok hfree, run_store]
      exact ⟨_, rfl, .dropped hcut hlo (toNat_ne_zero h0)⟩
  · rw [if_neg hlo]
    exact ⟨v1, rfl, .kept hcut fun h => absurd h hlo⟩

/-- The file had nothing behind its end. -/
theorem Cleared.tail {lo hi : Nat} (hv : Cleared F f lo hi v v') (hf : F f) (hreg : ¬ IsDir v.mem f)
    (hempty : ∀ k, hi ≤ k → fileBlock v.mem f k = 0) : Tail F f lo v v' := by
  cases hv with
  | kept hcut h =>
      by_cases hlo : lo ≤ NDIRECT
      · exact hcut.tail_of_zero hf hempty (h hlo)
      · exact hcut.tail_of_gt hf hempty hlo
  | dropped hcut hlo h0 => exact hcut.tail_of_drop hf hempty hreg hlo h0

/-- What `file_set_size` to `n` bytes makes of a longer file. -/
structure Truncated (F : FilePtr → Prop) (f : FilePtr) (n : Word) (v v' : View) : Prop where
  size : fileSize v'.mem f = n
  freed : ∀ b, FreeIn v'.mem b ↔ FreeIn v.mem b ∨ b ≠ 0 ∧
    ((∃ k, blockCount n.toNat ≤ k ∧ fileBlock v.mem f k = b) ∨
      blockCount n.toNat ≤ NDIRECT ∧ indirectBlock v.mem f = b)
  indirect : ∀ g, F g → indirectBlock v'.mem g =
    if g = f ∧ blockCount n.toNat ≤ NDIRECT then 0 else indirectBlock v.mem g
  slots : ∀ g k, F g → HasSlot v.mem g k → v'.get (slot v.mem g k) =
    if g = f ∧ blockCount n.toNat ≤ k then 0 else v.get (slot v.mem g k)
  bytes : ∀ p, p < n.toNat → fileBlock v.mem f (p / BLKSIZE) ≠ 0 → readByte v' f p = readByte v f p
  owned : Owned v'.mem F

/-- A word that is in no bitmap block, in no freed slot and not `f_indirect` nor `f_size`. -/
theorem Tail.get_setSize {x y : Nat} (ht : Tail F f k v v') (hx : ∀ b < nblocks v.mem, x ≠ bitmapBlock b)
    (hslot : ∀ j, k ≤ j → HasSlot v.mem f j → .disk x y ≠ slot v.mem f j)
    (hind : k ≤ NDIRECT → .disk x y ≠ f.fIndirect) (hsize : .disk x y ≠ f.fSize) :
    (v'.set f.fSize n).mem x y = v.mem x y := by
  have hother : (v'.set f.fSize n).get (.disk x y) = v'.get (.disk x y) :=
    View.get_set_of_ne v' n hsize
  exact hother.trans (ht.words x y hx hslot hind)

namespace Owned

variable (h : Owned v.mem F) (hf : F f) (hreg : ¬ IsDir v.mem f)

include h hf

/-- The `File` structures but for `f_indirect` and the slots of `f`. -/
theorem indirectBlock_setSize (ht : Tail F f k v v') (hg : F g) :
    indirectBlock (v'.set f.fSize n).mem g = if g = f ∧ k ≤ NDIRECT then 0 else indirectBlock v.mem g := by
  by_cases hgf : g = f
  · subst hgf
    have hkeep : indirectBlock (v'.set g.fSize n).mem g = indirectBlock v'.mem g :=
      ht.owned.indirectBlock_setField hf (by decide) hf
    rw [hkeep, ht.indirect]
    simp only [true_and]
  · rw [if_neg fun hand => hgf hand.1]
    have hfield : ∀ i, i < 64 → g.field 44 ≠ f.field i := fun i hi heq =>
      hgf (h.field_inj hg hf (by decide) hi heq).1
    refine congrArg BitVec.toNat (ht.get_setSize (fun b hb => ?_) (fun j _ hs => ?_)
      (fun _ => hfield 44 (by decide)) (hfield 32 (by decide)))
    · exact h.meta_ne_bitmap hb ⟨g, hg, .inl rfl⟩
    · exact (h.slot_ne_field hf hg hs (by decide) fun _ => .inr le_rfl).symm

theorem slot_setSize (ht : Tail F f k v v') (hg : F g) {j : Nat} (hs : HasSlot v.mem g j) :
    (v'.set f.fSize n).get (slot v.mem g j) = if g = f ∧ k ≤ j then 0 else v.get (slot v.mem g j) := by
  have hne : ∀ i, i < 64 → i < 34 ∨ 44 ≤ i → slot v.mem g j ≠ f.field i := fun i hi hout =>
    h.slot_ne_field hg hf hs hi fun _ => hout
  split
  · rename_i hand
    obtain ⟨rfl, hj⟩ := hand
    have hother : (v'.set g.fSize n).get (slot v.mem g j) = v'.get (slot v.mem g j) :=
      View.get_set_of_ne v' n (hne 32 (by decide) (.inl (by decide)))
    rw [hother, ht.slots j hj hs]
  · rename_i hnot
    refine ht.get_setSize (fun b hb => ?_) (fun i hi hs' heq => ?_)
      (fun _ => hne 44 (by decide) (.inr le_rfl)) (hne 32 (by decide) (.inl (by decide)))
    · exact h.meta_ne_bitmap hb (isMeta_slotBlk hg hs)
    · obtain ⟨rfl, rfl⟩ := h.slot_inj hg hf hs hs' heq
      exact hnot ⟨rfl, hi⟩

include hreg

/-- The blocks before the new end are left alone. -/
theorem fileByte_setSize (ht : Tail F f k v v') (hk : p / BLKSIZE < k)
    (h0 : fileBlock v.mem f (p / BLKSIZE) ≠ 0) :
    fileBlock (v'.set f.fSize n).mem f (p / BLKSIZE) = fileBlock v.mem f (p / BLKSIZE) ∧
      fileByte (v'.set f.fSize n).mem f p = fileByte v.mem f p := by
  have hblk : fileBlock (v'.set f.fSize n).mem f (p / BLKSIZE) = fileBlock v.mem f (p / BLKSIZE) :=
    (ht.owned.fileBlock_setField hf (by decide) hf _).trans (ht.keeps _ hk)
  have hdata := h.data_not_meta hf hreg h0
  have hrange : firstData v.mem ≤ fileBlock v.mem f (p / BLKSIZE) :=
    (h.range (.data f (p / BLKSIZE)) hf h0).1
  refine ⟨hblk, ?_⟩
  unfold fileByte
  rw [hblk, ht.get_setSize (fun b hb => ?_) (fun j _ hs heq => ?_) (fun _ heq => ?_) fun heq => ?_]
  · exact ((bitmapBlock_lt hb).trans_le hrange).ne'
  · exact hdata ((Cell.disk.inj heq).1 ▸ isMeta_slotBlk hf hs)
  · exact hdata ⟨f, hf, .inl (Cell.disk.inj heq).1⟩
  · exact hdata ⟨f, hf, .inl (Cell.disk.inj heq).1⟩

/-- `file_set_size` of a regular file to a smaller size. -/
theorem run_fileSetSize (hold : (fileSize v.mem f).toNat + 4095 < 2 ^ 31)
    (hlt : n.toNat < (fileSize v.mem f).toNat)
    (hempty : ∀ k, blockCount (fileSize v.mem f).toNat ≤ k → fileBlock v.mem f k = 0) :
    ∃ v', (fileSetSize f n).run onView v = (.ok 0, v') ∧ Truncated F f n v v' := by
  have hload : (load f.fSize).run onView v = (.ok (fileSize v.mem f), v) := run_load f.fSize v
  have hslt : n.slt (fileSize v.mem f) = true := by
    rw [BitVec.slt_iff_toInt_lt, toInt_of_lt (by omega), toInt_of_lt (by omega)]
    omega
  obtain ⟨w, hrun, hcleared⟩ := run_fileTruncateBlocks h hf hreg hold hlt
  have ht := hcleared.tail hf hreg hempty
  have howned : Owned (w.set f.fSize n).mem F := ht.owned.setField hf (by decide)
  unfold fileSetSize
  rw [Prog.run_bind_ok hload, if_pos hslt, Prog.run_bind_ok hrun]
  refine ⟨w.set f.fSize n, rfl, View.get_set_self w f.fSize n, fun b => ?_,
    fun g hg => h.indirectBlock_setSize hf ht hg, fun g k hg hs => h.slot_setSize hf ht hg hs,
    fun p hp h0 => ?_, howned⟩
  · rw [← ht.freed b]
    exact ht.owned.freeIn_setField hf b
  · obtain ⟨hblk, hbyte⟩ := h.fileByte_setSize (n := n) hf hreg ht (lt_blockCount hp) h0
    have hsize : fileSize (w.set f.fSize n).mem f = n := View.get_set_self w f.fSize n
    rw [readByte_of_lt howned hf (hblk.symm ▸ h0) (by rwa [hsize]) (by rw [hsize]; omega),
      readByte_of_lt h hf h0 (hp.trans hlt) (by omega), hbyte]

end Owned

end

/-! ## Truncation -/

section

variable {s s' : Machine} {f : FilePtr} {n : Word} {r : Int}

end

/-- The file `a` without its first block; the second one is block 4, and block 5 is free. -/
def holeView : View :=
  (((sampleMachine fun _ => 0).view.shrink sampleFile 1).shrink sampleFile 0).grow sampleFile 1 4

def holeMachine : Machine :=
  { sampleMachine (fun _ => 0) with
    disk := holeView.mem
    cache := fun b => if b ≤ 3 then some ⟨holeView.mem b, false⟩ else none }

theorem hole_mem : holeMachine.mem = holeView.mem := by
  funext b
  unfold Machine.mem holeMachine
  simp only
  by_cases hb : b ≤ 3
  · rw [if_pos hb]
  · rw [if_neg hb]

section

variable {g : FilePtr} {k : Nat}

/-- What the two freed blocks leave. -/
theorem hole_freed : Owned (((sampleMachine fun _ => 0).view.shrink sampleFile 1).shrink sampleFile 0).mem
      SampleFiles ∧
    ∀ g k, SampleFiles g →
      fileBlock (((sampleMachine fun _ => 0).view.shrink sampleFile 1).shrink sampleFile 0).mem g k =
        if g = sampleFile then 0 else fileBlock (sampleDisk fun _ => 0) g k := by
  have hmem : (sampleMachine fun _ => 0).view.mem = sampleDisk fun _ => 0 := sample_mem _
  have h : Owned (sampleMachine fun _ => 0).view.mem SampleFiles := hmem ▸ sample_owned _
  have hf : SampleFiles sampleFile := .inr rfl
  have hreg : ¬ IsDir (sampleMachine fun _ => 0).view.mem sampleFile := hmem ▸ sample_not_dir _
  have h1 : fileBlock (sampleMachine fun _ => 0).view.mem sampleFile 1 ≠ 0 := by
    rw [show fileBlock (sampleMachine fun _ => 0).view.mem sampleFile 1 = 5 from rfl]
    decide
  have h' := h.shrink hf hreg h1
  have hreg' := mt (h.isDir_shrink hf hreg h1 hf).mp hreg
  have h0 : fileBlock ((sampleMachine fun _ => 0).view.shrink sampleFile 1).mem sampleFile 0 ≠ 0 := by
    rw [show fileBlock ((sampleMachine fun _ => 0).view.shrink sampleFile 1).mem sampleFile 0 = 4 from rfl]
    decide
  refine ⟨h'.shrink hf hreg' h0, fun g k hg => ?_⟩
  rw [h'.fileBlock_shrink hf hreg' h0 hg, h.fileBlock_shrink hf hreg h1 hg]
  by_cases hgf : g = sampleFile
  · rw [if_pos hgf]
    split
    · rfl
    · split
      · rfl
      · rename_i hk0 hk1
        by_contra hne
        have hdisk : fileBlock (sampleDisk fun _ => 0) g k ≠ 0 := hmem ▸ hne
        rcases sample_fileBlock _ hg hdisk with ⟨rfl, -⟩ | ⟨-, ⟨rfl, -⟩ | ⟨rfl, -⟩⟩
        · exact absurd hgf (by decide)
        · exact hk0 ⟨hgf, rfl⟩
        · exact hk1 ⟨hgf, rfl⟩
  · rw [if_neg hgf, if_neg fun hand => hgf hand.1, if_neg fun hand => hgf hand.1, hmem]

theorem hole_owned : Owned holeView.mem SampleFiles ∧
    ∀ g k, SampleFiles g → fileBlock holeView.mem g k =
      if g = sampleFile then (if k = 1 then 4 else 0) else fileBlock (sampleDisk fun _ => 0) g k := by
  obtain ⟨h, hblk⟩ := hole_freed
  have hf : SampleFiles sampleFile := .inr rfl
  have hs : HasSlot (((sampleMachine fun _ => 0).view.shrink sampleFile 1).shrink sampleFile 0).mem
      sampleFile 1 := .inl (by decide)
  have hfree : FreeIn (((sampleMachine fun _ => 0).view.shrink sampleFile 1).shrink sampleFile 0).mem 4 := by
    decide
  refine ⟨h.grow hf hs hfree ((hblk _ _ hf).trans (if_pos rfl)), fun g k hg => ?_⟩
  unfold holeView
  rw [h.fileBlock_grow hf hs hfree hg, hblk g k hg]
  by_cases hgf : g = sampleFile
  · simp [hgf]
  · simp [hgf]

theorem hole_reach : Reach holeView.mem sampleFile := by
  have hroot : fileBlock holeView.mem sRoot 0 = 3 := rfl
  refine .entry (d := sRoot) (k := 0) (j := 0) .root rfl (by decide) ?_ (by decide) ?_
  · rw [hroot]
    decide
  · rw [hroot]
    decide

theorem sampleFiles_of_hole_reach (hg : Reach holeView.mem g) : SampleFiles g := by
  have hblk := hole_owned.2
  induction hg with
  | root => exact .inl rfl
  | @entry d k j _ hdir _ h0 hj hname ih =>
      rcases ih with rfl | rfl
      · have hsame : fileBlock holeView.mem sRoot k = fileBlock (sampleDisk fun _ => 0) sRoot k :=
          (hblk sRoot k (.inl rfl)).trans (if_neg (by decide))
        have h3 : fileBlock holeView.mem sRoot k = 3 := by
          rcases sample_fileBlock _ (.inl rfl) (hsame ▸ h0) with ⟨-, -, h⟩ | ⟨hfile, -⟩
          · exact hsame.trans h
          · exact absurd hfile (by decide)
        have hj16 : j < 16 := hj
        rw [h3] at hname ⊢
        right
        interval_cases j
        · rfl
        all_goals exact absurd rfl hname
      · exact absurd hdir (by decide)

end

end SisOp.Fs
