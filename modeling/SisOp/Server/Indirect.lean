/-
# `SisOp.Server.Indirect` — a new indirect block

`file_block_walk` does not clear the indirect block it allocates.  Where the block
happens to be blank, the file gets no block number by it and everything else stays
as it is (`View.growIndirect`).  Which block it is follows from the bitmap alone: the
free block with so many free blocks before it (`NthFree`).
-/
import Mathlib.Data.Finset.Card
import Mathlib.Order.Interval.Finset.Nat
import SisOp.Server.Slots

namespace SisOp.Fs

open SisOp.Lib SisOp.Jos

/-- A block of zeros. -/
def Blank (blk : Block) : Prop := ∀ i < 1024, blk i = 0

/-! ## The order of the free blocks -/

/-- How many free blocks there are before `b`. -/
def freeBelow (mem : Nat → Block) (b : Nat) : Nat := ((Finset.range b).filter (FreeIn mem)).card

/-- `alloc_block` takes `b` when it is called for the `j`-th time, from 0. -/
structure NthFree (mem : Nat → Block) (j b : Nat) : Prop where
  free : FreeIn mem b
  below : freeBelow mem b = j

section

variable {mem mem' : Nat → Block} {v : View} {b b0 j : Nat}

theorem nthFree_congr (h : ∀ x, FreeIn mem' x ↔ FreeIn mem x) : NthFree mem' j b ↔ NthFree mem j b := by
  have hbelow : freeBelow mem' b = freeBelow mem b := by
    unfold freeBelow
    rw [Finset.filter_congr fun x _ => h x]
  exact ⟨fun hb => ⟨(h b).mp hb.free, hbelow ▸ hb.below⟩, fun hb => ⟨(h b).mpr hb.free, hbelow ▸ hb.below⟩⟩

theorem nthFree_unique (h : NthFree mem j b) (h' : NthFree mem j b0) : b = b0 := by
  have hlt : ∀ {x y}, NthFree mem j x → NthFree mem j y → ¬ x < y := by
    intro x y hx hy hxy
    have hsub : (Finset.range x).filter (FreeIn mem) ⊂ (Finset.range y).filter (FreeIn mem) := by
      refine Finset.ssubset_iff_of_subset (Finset.filter_subset_filter _ (Finset.range_mono hxy.le)) |>.mpr
        ⟨x, ?_, ?_⟩
      · simpa [hxy] using hx.free
      · simp
    have hcard := Finset.card_lt_card hsub
    have hx' := hx.below
    have hy' := hy.below
    unfold freeBelow at hx' hy'
    omega
  exact le_antisymm (not_lt.mp (hlt h' h)) (not_lt.mp (hlt h h'))

/-- The block that `alloc_block` finds. -/
theorem firstFree_nth (h : firstFree v.mem = some b) : NthFree v.mem 0 b := by
  refine ⟨firstFree_some h, ?_⟩
  unfold freeBelow
  rw [Finset.card_eq_zero, Finset.filter_eq_empty_iff]
  intro x hx hfree
  obtain ⟨i, hi, hget, hbefore⟩ := List.find?_eq_some_iff_getElem.mp h |>.2
  rw [List.getElem_range] at hget
  have hxi : x < i := by
    have := Finset.mem_range.mp hx
    omega
  have hno := hbefore x hxi
  rw [List.getElem_range] at hno
  simp [hfree] at hno

/-- With the first free block in use, every other one comes one earlier. -/
theorem nthFree_use (h0 : NthFree v.mem 0 b0) : NthFree (v.use b0).mem j b ↔ NthFree v.mem (j + 1) b := by
  have hfirst : ∀ x, FreeIn v.mem x → b0 ≤ x := by
    intro x hx
    by_contra hlt
    have hmem : x ∈ (Finset.range b0).filter (FreeIn v.mem) := by simpa [hx] using not_le.mp hlt
    have hpos := Finset.card_pos.mpr ⟨x, hmem⟩
    have hzero := h0.below
    unfold freeBelow at hzero
    omega
  have herase : (Finset.range b).filter (FreeIn (v.use b0).mem) =
      ((Finset.range b).filter (FreeIn v.mem)).erase b0 := by
    ext x
    simp only [Finset.mem_filter, Finset.mem_erase, freeIn_use]
    tauto
  have hbelow : FreeIn v.mem b → b ≠ b0 → freeBelow v.mem b = freeBelow (v.use b0).mem b + 1 := by
    intro hb hne
    have hlt : b0 < b := lt_of_le_of_ne (hfirst b hb) hne.symm
    have hmem : b0 ∈ (Finset.range b).filter (FreeIn v.mem) := by simpa [hlt] using h0.free
    unfold freeBelow
    rw [herase, Finset.card_erase_of_mem hmem]
    have hpos := Finset.card_pos.mpr ⟨b0, hmem⟩
    omega
  constructor
  · intro h
    obtain ⟨hb, hne⟩ := (freeIn_use v b0 b).mp h.free
    refine ⟨hb, ?_⟩
    rw [hbelow hb hne, h.below]
  · intro h
    have hne : b ≠ b0 := by
      rintro rfl
      have hsame := h.below.symm.trans h0.below
      omega
    refine ⟨(freeIn_use v b0 b).mpr ⟨h.free, hne⟩, ?_⟩
    have hsum := hbelow h.free hne
    rw [h.below] at hsum
    omega

/-- A free block holds no `File` of the system. -/
theorem Owned.free_ne_blk {F : FilePtr → Prop} {f : FilePtr} (h : Owned mem F) (hf : F f)
    (hb : FreeIn mem b) : b ≠ f.blk := by
  rintro rfl
  rcases h.place_cases hf with rfl | ⟨-, -, d, k, hd, -, h0, hblk⟩
  · have hlo := h.le_of_free hb
    have h2 := two_le_firstData mem
    have hroot : sRoot.blk = 1 := rfl
    omega
  · have hused : ¬ FreeIn mem (fileBlock mem d k) := h.used (.data d k) hd h0
    exact hused (hblk ▸ hb)

theorem Owned.free_ne_slotBlk {F : FilePtr → Prop} {f : FilePtr} {k : Nat} (h : Owned mem F) (hf : F f)
    (hs : HasSlot mem f k) (hb : FreeIn mem b) : b ≠ slotBlk mem f k := by
  by_cases hk : k < NDIRECT
  · rw [slotBlk, if_pos hk]
    exact h.free_ne_blk hf hb
  · rw [slotBlk, if_neg hk]
    rintro rfl
    exact h.used (.indirect f) hf (hs.resolve_left hk).2 hb

end

/-! ## The block -/

/-- Block `b` becomes the indirect block of `f`. -/
def View.growIndirect (v : View) (f : FilePtr) (b : Nat) : View :=
  (v.use b).set f.fIndirect (BitVec.ofNat 32 b)

section

variable {v : View} {F : FilePtr → Prop} {f g : FilePtr} {b i j k x : Nat}

namespace Owned

variable (h : Owned v.mem F) (hf : F f) (hb : FreeIn v.mem b)

include h hf hb

omit h hf hb in
theorem nblocks_growIndirect : nblocks (v.growIndirect f b).mem = nblocks v.mem :=
  (nblocks_set (fIndirect_ne_sNblocks f)).trans (nblocks_use v b)

theorem freeIn_growIndirect (x : Nat) : FreeIn (v.growIndirect f b).mem x ↔ FreeIn v.mem x ∧ x ≠ b := by
  rw [View.growIndirect, (h.use hb.1).freeIn_clearIndirect hf, freeIn_use]

theorem field_growIndirect (hg : F g) (hi : i < 64) (hne : g = f → i ≠ 44) :
    (v.growIndirect f b).mem g.blk (g.idx + i) = v.mem g.blk (g.idx + i) := by
  rw [View.growIndirect, (h.use hb.1).field_clearIndirect hf hg hi hne, h.mem_use hb.1 _ ⟨g, hg, .inl rfl⟩]

theorem isDir_growIndirect (hg : F g) : IsDir (v.growIndirect f b).mem g ↔ IsDir v.mem g := by
  unfold IsDir
  rw [h.field_growIndirect hf hb hg (by decide) fun _ => by decide]

theorem indirectBlock_growIndirect (hg : F g) : indirectBlock (v.growIndirect f b).mem g =
    if g = f then b else indirectBlock v.mem g := by
  split
  · rename_i heq
    subst heq
    unfold indirectBlock View.growIndirect
    rw [FilePtr.fIndirect, FilePtr.field, View.mem_set, if_pos ⟨rfl, rfl⟩, toNat_ofNat_of_free hb]
  · rename_i hne
    exact congrArg _ (h.field_growIndirect hf hb hg (by decide) fun heq => absurd heq hne)

omit h hf hb in
/-- The other blocks. -/
theorem mem_growIndirect (hx : x ≠ bitmapBlock b) (hne : x ≠ f.blk) :
    (v.growIndirect f b).mem x = v.mem x := by
  rw [View.growIndirect, FilePtr.fIndirect, FilePtr.field, View.mem_set_of_ne _ _ hne, mem_use_of_ne hx]

variable (h0 : indirectBlock v.mem f = 0) (hblank : Blank (v.mem b))

include h0 hblank

theorem fileBlock_growIndirect (hg : F g) (j : Nat) :
    fileBlock (v.growIndirect f b).mem g j = fileBlock v.mem g j := by
  have hten : NDIRECT = 10 := rfl
  have hind := h.indirectBlock_growIndirect hf hb hg
  by_cases hj : j < NDIRECT
  · have hs : HasSlot v.mem g j := .inl hj
    have hs' : HasSlot (v.growIndirect f b).mem g j := .inl hj
    rw [fileBlock_of_slot hs, fileBlock_of_slot hs']
    unfold slotBlk slotIdx
    rw [if_pos hj, if_pos hj, if_pos hj, h.field_growIndirect hf hb hg (by omega) fun _ => by omega]
  · by_cases hgf : g = f
    · subst hgf
      have hs : ¬ HasSlot v.mem g j := fun hs => (hs.resolve_left hj).2 h0
      rw [fileBlock_of_no_slot hs]
      by_cases hs' : HasSlot (v.growIndirect g b).mem g j
      · have hlo := h.le_of_free hb
        have hbit := bitmapBlock_lt hb.1
        have hval : NDIRECT + NINDIRECT = 1034 := rfl
        have hne := h.free_ne_blk hg hb
        rw [if_pos rfl] at hind
        rw [fileBlock_of_slot hs']
        unfold slotBlk slotIdx
        rw [if_neg hj, if_neg hj, hind, mem_growIndirect (by omega) hne,
          hblank _ (by have := (hs'.resolve_left hj).1; omega)]
        rfl
      · exact fileBlock_of_no_slot hs'
    · rw [if_neg hgf] at hind
      have hslot : HasSlot (v.growIndirect f b).mem g j ↔ HasSlot v.mem g j := by
        unfold HasSlot
        rw [hind]
      by_cases hs : HasSlot v.mem g j
      · have hblk : slotBlk v.mem g j = indirectBlock v.mem g := if_neg hj
        have hrange : indirectBlock v.mem g < nblocks v.mem :=
          (h.range (.indirect g) hg (hs.resolve_left hj).2).2
        have hmeta : IsMeta v.mem F (slotBlk v.mem g j) := isMeta_slotBlk hg hs
        have hne : slotBlk v.mem g j ≠ f.blk := by
          rw [hblk]
          exact (h.blk_ne_indirect hf hg (hs.resolve_left hj).2).symm
        have hsame : slotBlk (v.growIndirect f b).mem g j = slotBlk v.mem g j := by
          unfold slotBlk
          rw [hind]
        rw [fileBlock_of_slot hs, fileBlock_of_slot (hslot.mpr hs), hsame,
          mem_growIndirect (h.meta_ne_bitmap hb.1 hmeta) hne]
      · rw [fileBlock_of_no_slot hs, fileBlock_of_no_slot (mt hslot.mp hs)]

theorem growIndirect : Owned (v.growIndirect f b).mem F := by
  have htarget : ∀ r : Ref, F r.file → r.target (v.growIndirect f b).mem = r.target v.mem ∨
      r = .indirect f ∧ r.target (v.growIndirect f b).mem = b := by
    intro r hr
    cases r with
    | data g j =>
        have hg : F g := hr
        exact .inl (h.fileBlock_growIndirect hf hb h0 hblank hg j)
    | indirect g =>
        have hg : F g := hr
        have hind := h.indirectBlock_growIndirect hf hb hg
        by_cases hgf : g = f
        · subst hgf
          exact .inr ⟨rfl, hind.trans (if_pos rfl)⟩
        · exact .inl (hind.trans (if_neg hgf))
  refine h.step (.indirect f) nblocks_growIndirect
    (fun _ hg => (h.isDir_growIndirect hf hb hg).mpr)
    (fun d j hd _ _ => h.fileBlock_growIndirect hf hb h0 hblank hd j) (fun r hr _ => ?_)
    (fun r hr hr0 hfree => ?_) (fun x hx hfree => ?_)
  · refine (htarget r hr).imp_right fun hnew => ⟨hnew.1, ?_⟩
    rwa [hnew.2]
  · rw [h.freeIn_growIndirect hf hb] at hfree
    rcases htarget r hr with heq | ⟨-, heq⟩
    · rw [heq] at hr0 hfree
      exact h.used r hr hr0 hfree.1
    · exact hfree.2 heq
  · exact h.reserved x hx ((h.freeIn_growIndirect hf hb x).mp hfree).1

end Owned

end

end SisOp.Fs
