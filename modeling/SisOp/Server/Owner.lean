/-
# `SisOp.Server.Owner` — who holds a block

A block number stands in a slot of a file or in `f_indirect` (`Ref`).  The file system
is consistent (`Owned`) when every block that is referred to lies behind the bitmap and
within the disk, is marked in use, and is referred to once.  Then the blocks of the
`File` structures, the indirect blocks and the blocks of regular files are all
different, so that a store to one of them leaves the others.
-/
import SisOp.Server.Bytes

namespace SisOp.Fs

open SisOp.Lib SisOp.Jos

/-! ## Block numbers -/

/-- `f->f_indirect`. -/
def indirectBlock (mem : Nat → Block) (f : FilePtr) : Nat := (mem f.blk (f.idx + 44)).toNat

/-- There is a place for the number of block `k`. -/
def HasSlot (mem : Nat → Block) (f : FilePtr) (k : Nat) : Prop :=
  k < NDIRECT ∨ k < NDIRECT + NINDIRECT ∧ indirectBlock mem f ≠ 0

instance (mem : Nat → Block) (f : FilePtr) (k : Nat) : Decidable (HasSlot mem f k) :=
  inferInstanceAs (Decidable (_ ∨ _))

def slotBlk (mem : Nat → Block) (f : FilePtr) (k : Nat) : Nat :=
  if k < NDIRECT then f.blk else indirectBlock mem f

def slotIdx (f : FilePtr) (k : Nat) : Nat :=
  if k < NDIRECT then f.idx + (34 + k) else k - NDIRECT

/-- Where the number of block `k` stands. -/
def slot (mem : Nat → Block) (f : FilePtr) (k : Nat) : Cell := .disk (slotBlk mem f k) (slotIdx f k)

/-- The number of block `k`, or 0. -/
def fileBlock (mem : Nat → Block) (f : FilePtr) (k : Nat) : Nat :=
  if HasSlot mem f k then (mem (slotBlk mem f k) (slotIdx f k)).toNat else 0

/-- A reference to a block. -/
inductive Ref
  | data (f : FilePtr) (k : Nat)
  | indirect (f : FilePtr)

namespace Ref

def file : Ref → FilePtr
  | data f _ => f
  | indirect f => f

def target (mem : Nat → Block) : Ref → Nat
  | data f k => fileBlock mem f k
  | indirect f => indirectBlock mem f

end Ref

/-! ## Consistency -/

/-- The block behind the bitmap. -/
def firstData (mem : Nat → Block) : Nat := 2 + (nblocks mem + (BLKBITSIZE - 1)) / BLKBITSIZE

def IsDir (mem : Nat → Block) (f : FilePtr) : Prop := mem f.blk (f.idx + 33) = FTYPE_DIR

instance (mem : Nat → Block) (f : FilePtr) : Decidable (IsDir mem f) :=
  inferInstanceAs (Decidable (_ = _))

/-- The blocks of the files `F` are theirs alone. -/
structure Owned (mem : Nat → Block) (F : FilePtr → Prop) : Prop where
  disk : nblocks mem ≤ DISKSIZE / BLKSIZE
  reserved : ∀ b < firstData mem, ¬ FreeIn mem b
  place : ∀ g, F g → g = sRoot ∨ ∃ d k j, F d ∧ IsDir mem d ∧ fileBlock mem d k ≠ 0 ∧ j < BLKFILES ∧
    g = ⟨fileBlock mem d k, 64 * j⟩
  range : ∀ r : Ref, F r.file → r.target mem ≠ 0 →
    firstData mem ≤ r.target mem ∧ r.target mem < nblocks mem
  used : ∀ r : Ref, F r.file → r.target mem ≠ 0 → ¬ FreeIn mem (r.target mem)
  once : ∀ r r' : Ref, F r.file → F r'.file → r.target mem ≠ 0 → r.target mem = r'.target mem → r = r'

/-- A block of `File` structures or of block numbers. -/
def IsMeta (mem : Nat → Block) (F : FilePtr → Prop) (b : Nat) : Prop :=
  ∃ g, F g ∧ (b = g.blk ∨ b = indirectBlock mem g ∧ b ≠ 0)

/-! ## Different blocks -/

section

variable {mem mem' : Nat → Block} {F : FilePtr → Prop} {f g : FilePtr} {i j k b : Nat}

theorem fileBlock_of_slot (h : HasSlot mem f k) :
    fileBlock mem f k = (mem (slotBlk mem f k) (slotIdx f k)).toNat := if_pos h

theorem fileBlock_of_no_slot (h : ¬ HasSlot mem f k) : fileBlock mem f k = 0 := if_neg h

theorem hasSlot_of_ne_zero (h : fileBlock mem f k ≠ 0) : HasSlot mem f k := by
  by_contra hno
  exact h (fileBlock_of_no_slot hno)

theorem two_le_firstData (mem : Nat → Block) : 2 ≤ firstData mem := Nat.le_add_right 2 _

theorem bitmapBlock_lt (hb : b < nblocks mem) : bitmapBlock b < firstData mem := by
  have hbits : BLKBITSIZE = 32768 := rfl
  unfold bitmapBlock firstData
  rw [hbits]
  omega

theorem firstData_congr (h : nblocks mem' = nblocks mem) : firstData mem' = firstData mem := by
  unfold firstData
  rw [h]

namespace Owned

theorem le_of_free (h : Owned mem F) (hb : FreeIn mem b) : firstData mem ≤ b := by
  by_contra hlt
  exact h.reserved b (not_le.mp hlt) hb

theorem ne_zero_of_free (h : Owned mem F) (hb : FreeIn mem b) : b ≠ 0 := by
  have h2 := two_le_firstData mem
  have hle := h.le_of_free hb
  omega

/-- Where a `File` lies. -/
theorem place_cases (h : Owned mem F) (hf : F f) :
    f = sRoot ∨ firstData mem ≤ f.blk ∧ (∃ j < BLKFILES, f.idx = 64 * j) ∧
      ∃ d k, F d ∧ IsDir mem d ∧ fileBlock mem d k ≠ 0 ∧ f.blk = fileBlock mem d k := by
  rcases h.place f hf with rfl | ⟨d, k, j, hd, hdir, h0, hj, rfl⟩
  · exact .inl rfl
  · exact .inr ⟨(h.range (.data d k) hd h0).1, ⟨j, hj, rfl⟩, d, k, hd, hdir, h0, rfl⟩

theorem two_le_of_ne_root (h : Owned mem F) (hf : F f) (hne : f ≠ sRoot) : 2 ≤ f.blk :=
  (two_le_firstData mem).trans ((h.place_cases hf).resolve_left hne).1

/-- The fields of two files are different words. -/
theorem field_inj (h : Owned mem F) (hf : F f) (hg : F g) (hi : i < 64) (hj : j < 64)
    (heq : f.field i = g.field j) : f = g ∧ i = j := by
  obtain ⟨hblk, hidx⟩ := Cell.disk.inj heq
  have hsame : f = g → f = g ∧ i = j := by
    rintro rfl
    exact ⟨rfl, by omega⟩
  rcases h.place_cases hf with rfl | ⟨hlo, ⟨a, ha, hidxf⟩, -⟩
  · rcases h.place_cases hg with rfl | ⟨hlo, -, -⟩
    · exact hsame rfl
    · have h2 := two_le_firstData mem
      have hroot : sRoot.blk = 1 := rfl
      omega
  · rcases h.place_cases hg with rfl | ⟨-, ⟨a', ha', hidxg⟩, -⟩
    · have h2 := two_le_firstData mem
      have hroot : sRoot.blk = 1 := rfl
      omega
    · refine hsame ?_
      cases f
      cases g
      simp only [FilePtr.mk.injEq] at *
      omega

/-- A block of a directory holds no block numbers. -/
theorem blk_ne_indirect (h : Owned mem F) (hf : F f) (hg : F g) (h0 : indirectBlock mem g ≠ 0) :
    f.blk ≠ indirectBlock mem g := by
  rcases h.place_cases hf with rfl | ⟨-, -, d, k, hd, -, hk, hblk⟩
  · have hlo := (h.range (.indirect g) hg h0).1
    have h2 := two_le_firstData mem
    show 1 ≠ indirectBlock mem g
    change firstData mem ≤ indirectBlock mem g at hlo
    omega
  · intro heq
    cases h.once (.data d k) (.indirect g) hd hg hk (hblk.symm.trans heq)

theorem indirect_inj (h : Owned mem F) (hf : F f) (hg : F g) (h0 : indirectBlock mem f ≠ 0)
    (heq : indirectBlock mem f = indirectBlock mem g) : f = g := by
  cases h.once (.indirect f) (.indirect g) hf hg h0 heq
  rfl

/-- The blocks of a regular file hold data only. -/
theorem data_not_meta (h : Owned mem F) (hf : F f) (hreg : ¬ IsDir mem f) (h0 : fileBlock mem f k ≠ 0) :
    ¬ IsMeta mem F (fileBlock mem f k) := by
  rintro ⟨g, hg, heq | ⟨heq, -⟩⟩
  · rcases h.place_cases hg with rfl | ⟨-, -, d, k', hd, hdir, -, hblk⟩
    · have hlo := (h.range (.data f k) hf h0).1
      have h2 := two_le_firstData mem
      change firstData mem ≤ fileBlock mem f k at hlo
      have hroot : sRoot.blk = 1 := rfl
      omega
    · cases h.once (.data f k) (.data d k') hf hd h0 (heq.trans hblk)
      exact hreg hdir
  · cases h.once (.data f k) (.indirect g) hf hg h0 heq

theorem fileBlock_inj (h : Owned mem F) (hf : F f) (hg : F g) (h0 : fileBlock mem f i ≠ 0)
    (heq : fileBlock mem f i = fileBlock mem g j) : f = g ∧ i = j := by
  cases h.once (.data f i) (.data g j) hf hg h0 heq
  exact ⟨rfl, rfl⟩

theorem meta_cases (h : Owned mem F) (hb : IsMeta mem F b) : b = 1 ∨ firstData mem ≤ b := by
  obtain ⟨g, hg, rfl | ⟨rfl, h0⟩⟩ := hb
  · rcases h.place_cases hg with rfl | ⟨hlo, -, -⟩
    · exact .inl rfl
    · exact .inr hlo
  · exact .inr (h.range (.indirect g) hg h0).1

/-- A block number is neither in the super block nor in the bitmap. -/
theorem slot_ne_field (h : Owned mem F) (hf : F f) (hg : F g) (hs : HasSlot mem f k) (hi : i < 64)
    (hne : g = f → i < 34 ∨ 44 ≤ i) : slot mem f k ≠ g.field i := by
  intro heq
  by_cases hk : k < NDIRECT
  · have hten : NDIRECT = 10 := rfl
    have hcell : f.field (34 + k) = g.field i := by
      rw [← heq, slot, slotBlk, slotIdx, if_pos hk, if_pos hk]
      rfl
    obtain ⟨rfl, rfl⟩ := h.field_inj hf hg (by omega) hi hcell
    have := hne rfl
    omega
  · obtain ⟨-, h0⟩ := hs.resolve_left hk
    have hblk := (Cell.disk.inj heq).1
    rw [slotBlk, if_neg hk] at hblk
    exact h.blk_ne_indirect hg hf h0 hblk.symm

theorem slot_inj (h : Owned mem F) (hf : F f) (hg : F g) (hs : HasSlot mem f i) (hs' : HasSlot mem g j)
    (heq : slot mem f i = slot mem g j) : f = g ∧ i = j := by
  have hten : NDIRECT = 10 := rfl
  by_cases hj : j < NDIRECT
  · by_contra hne
    have hfield : slot mem g j = g.field (34 + j) := by
      rw [slot, slotBlk, slotIdx, if_pos hj, if_pos hj]
      rfl
    by_cases hi : i < NDIRECT
    · have hfield' : slot mem f i = f.field (34 + i) := by
        rw [slot, slotBlk, slotIdx, if_pos hi, if_pos hi]
        rfl
      obtain ⟨rfl, hij⟩ := h.field_inj hf hg (by omega) (by omega) (hfield'.symm.trans (heq.trans hfield))
      exact hne ⟨rfl, by omega⟩
    · obtain ⟨-, h0⟩ := hs.resolve_left hi
      have hblk := (Cell.disk.inj (heq.trans hfield)).1
      rw [slotBlk, if_neg hi] at hblk
      exact h.blk_ne_indirect hg hf h0 hblk.symm
  · obtain ⟨-, h0⟩ := hs'.resolve_left hj
    obtain ⟨hblk, hidx⟩ := Cell.disk.inj heq
    rw [slotBlk, slotBlk, if_neg hj] at hblk
    rw [slotIdx, slotIdx, if_neg hj] at hidx
    by_cases hi : i < NDIRECT
    · rw [if_pos hi] at hblk
      exact absurd hblk (h.blk_ne_indirect hf hg h0)
    · rw [if_neg hi] at hblk hidx
      have hfg := h.indirect_inj hg hf h0 hblk.symm
      exact ⟨hfg.symm, by omega⟩

end Owned

/-! ## Stores -/

theorem indirectBlock_congr (hmeta : ∀ b, IsMeta mem F b → mem' b = mem b) (hf : F f) :
    indirectBlock mem' f = indirectBlock mem f := by
  unfold indirectBlock
  rw [hmeta _ ⟨f, hf, .inl rfl⟩]

theorem isDir_congr (hmeta : ∀ b, IsMeta mem F b → mem' b = mem b) (hf : F f) :
    IsDir mem' f ↔ IsDir mem f := by
  unfold IsDir
  rw [hmeta _ ⟨f, hf, .inl rfl⟩]

theorem fileBlock_congr (hmeta : ∀ b, IsMeta mem F b → mem' b = mem b) (hf : F f) :
    fileBlock mem' f k = fileBlock mem f k := by
  have hind := indirectBlock_congr hmeta hf
  by_cases hs : HasSlot mem f k
  · have hs' : HasSlot mem' f k := by
      unfold HasSlot at *
      rwa [hind]
    have hblk : slotBlk mem' f k = slotBlk mem f k := by
      unfold slotBlk
      rw [hind]
    have hmeta' : IsMeta mem F (slotBlk mem f k) := by
      unfold slotBlk
      split
      · exact ⟨f, hf, .inl rfl⟩
      · exact ⟨f, hf, .inr ⟨rfl, (hs.resolve_left ‹_›).2⟩⟩
    rw [fileBlock_of_slot hs, fileBlock_of_slot hs', hblk, hmeta _ hmeta']
  · have hs' : ¬ HasSlot mem' f k := by
      unfold HasSlot at *
      rwa [hind]
    rw [fileBlock_of_no_slot hs, fileBlock_of_no_slot hs']

theorem target_congr (hmeta : ∀ b, IsMeta mem F b → mem' b = mem b) (r : Ref) (hr : F r.file) :
    r.target mem' = r.target mem := by
  cases r with
  | data f k => exact fileBlock_congr hmeta hr
  | indirect f => exact indirectBlock_congr hmeta hr

/-- A step that moves at most the reference `r0`, to a free block. -/
theorem Owned.step (h : Owned mem F) (r0 : Ref) (hn : nblocks mem' = nblocks mem)
    (hdir : ∀ g, F g → IsDir mem g → IsDir mem' g)
    (hdata : ∀ d k, F d → IsDir mem d → fileBlock mem d k ≠ 0 → fileBlock mem' d k = fileBlock mem d k)
    (htarget : ∀ r : Ref, F r.file → r.target mem' ≠ 0 →
      r.target mem' = r.target mem ∨ r = r0 ∧ FreeIn mem (r.target mem'))
    (hused : ∀ r : Ref, F r.file → r.target mem' ≠ 0 → ¬ FreeIn mem' (r.target mem'))
    (hreserved : ∀ b < firstData mem, ¬ FreeIn mem' b) : Owned mem' F where
  disk := hn ▸ h.disk
  reserved := by
    rw [firstData_congr hn]
    exact hreserved
  place := fun g hg => by
    rcases h.place g hg with rfl | ⟨d, k, j, hd, hd', h0, hj, rfl⟩
    · exact .inl rfl
    · have hsame := hdata d k hd hd' h0
      exact .inr ⟨d, k, j, hd, hdir d hd hd', hsame ▸ h0, hj, by rw [hsame]⟩
  range := fun r hr h0 => by
    rw [firstData_congr hn, hn]
    rcases htarget r hr h0 with heq | ⟨-, hfree⟩
    · rw [heq] at h0 ⊢
      exact h.range r hr h0
    · exact ⟨h.le_of_free hfree, hfree.1⟩
  used := hused
  once := fun r r' hr hr' h0 heq => by
    have h0' : r'.target mem' ≠ 0 := heq ▸ h0
    rcases htarget r hr h0 with hold | ⟨rfl, hfree⟩
    · rcases htarget r' hr' h0' with hold' | ⟨rfl, hfree'⟩
      · refine h.once r r' hr hr' (hold ▸ h0) ?_
        rw [← hold, heq, hold']
      · rw [← heq, hold] at hfree'
        exact absurd hfree' (h.used r hr (hold ▸ h0))
    · rcases htarget r' hr' h0' with hold' | ⟨rfl, -⟩
      · rw [heq, hold'] at hfree
        exact absurd hfree (h.used r' hr' (hold' ▸ h0'))
      · rfl

/-- A step that leaves the block numbers and the bitmap. -/
theorem Owned.congr (h : Owned mem F) (hn : nblocks mem' = nblocks mem)
    (hmeta : ∀ b, IsMeta mem F b → mem' b = mem b) (hfree : ∀ b, FreeIn mem' b ↔ FreeIn mem b) :
    Owned mem' F :=
  h.step (.indirect sRoot) hn (fun _ hg => (isDir_congr hmeta hg).mpr)
    (fun _ _ hd _ _ => fileBlock_congr hmeta hd)
    (fun r hr _ => .inl (target_congr hmeta r hr))
    (fun r hr h0 => by
      rw [target_congr hmeta r hr] at h0 ⊢
      rw [hfree]
      exact h.used r hr h0)
    (fun b hb => by
      rw [hfree]
      exact h.reserved b hb)

end

end SisOp.Fs
