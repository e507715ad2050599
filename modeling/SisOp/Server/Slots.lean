/-
# `SisOp.Server.Slots` — giving a file a block and taking one away

What `file_get_block` and `file_free_block` do in a consistent file system, as steps on
the view: `grow` puts a free block into an empty slot, `shrink` frees the block of a
slot, `dropIndirect` the indirect block.  Each moves one reference and one bit of the
bitmap, and keeps the system consistent.
-/
import SisOp.Server.Owner

namespace SisOp.Fs

open SisOp.Lib SisOp.Jos

/-! ## Words and blocks -/

section

variable {v : View} {mem mem' : Nat → Block} {F : FilePtr → Prop} {f g : FilePtr} {w : Word}
  {b i j k x y : Nat}

theorem View.mem_set (v : View) (b i : Nat) (w : Word) (x y : Nat) :
    (v.set (.disk b i) w).mem x y = if x = b ∧ y = i then w else v.mem x y := by
  have hget := View.get_set v (.disk b i) (.disk x y) w
  simpa only [View.get, Cell.disk.injEq] using hget

theorem View.mem_set_of_ne (i : Nat) (w : Word) (hne : x ≠ b) :
    (v.set (.disk b i) w).mem x = v.mem x := by
  funext y
  rw [View.mem_set, if_neg fun h => hne h.1]

theorem freeIn_congr (hn : nblocks mem' = nblocks mem)
    (hbits : ∀ x, 2 ≤ x → x < firstData mem → mem' x = mem x) (b : Nat) :
    FreeIn mem' b ↔ FreeIn mem b := by
  unfold FreeIn
  rw [hn]
  refine and_congr_right fun hb => ?_
  rw [hbits _ (two_le_bitmapBlock b) (bitmapBlock_lt hb)]

/-! ## The bitmap -/

theorem mem_use_of_ne (hne : x ≠ bitmapBlock b) : (v.use b).mem x = v.mem x :=
  View.mem_set_of_ne _ _ hne

theorem mem_release_of_ne (hne : x ≠ bitmapBlock b) : (v.release b).mem x = v.mem x :=
  View.mem_set_of_ne _ _ hne

theorem Owned.meta_ne_bitmap (h : Owned mem F) (hb : b < nblocks mem) (hx : IsMeta mem F x) :
    x ≠ bitmapBlock b := by
  have h2 := two_le_bitmapBlock b
  have hlt := bitmapBlock_lt hb
  rcases h.meta_cases hx with rfl | hlo <;> omega

theorem Owned.mem_use (h : Owned v.mem F) (hb : b < nblocks v.mem) (x : Nat) (hx : IsMeta v.mem F x) :
    (v.use b).mem x = v.mem x := mem_use_of_ne (h.meta_ne_bitmap hb hx)

theorem Owned.mem_release (h : Owned v.mem F) (hb : b < nblocks v.mem) (x : Nat)
    (hx : IsMeta v.mem F x) : (v.release b).mem x = v.mem x :=
  mem_release_of_ne (h.meta_ne_bitmap hb hx)

/-- A block in use that nothing refers to. -/
theorem Owned.use (h : Owned v.mem F) (hb : b < nblocks v.mem) : Owned (v.use b).mem F := by
  have hmeta := h.mem_use hb
  refine h.step (.indirect sRoot) (nblocks_use v b) (fun _ hg => (isDir_congr hmeta hg).mpr)
    (fun _ _ hd _ _ => fileBlock_congr hmeta hd) (fun r hr _ => .inl (target_congr hmeta r hr)) ?_ ?_
  · intro r hr h0 hfree
    rw [target_congr hmeta r hr] at h0 hfree
    exact h.used r hr h0 ((freeIn_use v b _).mp hfree).1
  · intro x hx hfree
    exact h.reserved x hx ((freeIn_use v b _).mp hfree).1

/-! ## A slot -/

/-- The number of block `k` is stored. -/
def View.setSlot (v : View) (f : FilePtr) (k : Nat) (w : Word) : View := v.set (slot v.mem f k) w

theorem isMeta_slotBlk (hf : F f) (hs : HasSlot mem f k) : IsMeta mem F (slotBlk mem f k) := by
  unfold slotBlk
  split
  · exact ⟨f, hf, .inl rfl⟩
  · exact ⟨f, hf, .inr ⟨rfl, (hs.resolve_left ‹_›).2⟩⟩

/-- Everything but the slot. -/
theorem mem_setSlot (hne : ¬ (x = slotBlk v.mem f k ∧ y = slotIdx f k)) :
    (v.setSlot f k w).mem x y = v.mem x y := by
  rw [View.setSlot, slot, View.mem_set, if_neg hne]

theorem mem_setSlot_of_ne (hne : x ≠ slotBlk v.mem f k) : (v.setSlot f k w).mem x = v.mem x :=
  View.mem_set_of_ne _ _ hne

theorem slotBlk_cases (mem : Nat → Block) (f : FilePtr) (k : Nat) :
    slotBlk mem f k = f.blk ∨ slotBlk mem f k = indirectBlock mem f := by
  unfold slotBlk
  split
  · exact .inl rfl
  · exact .inr rfl

namespace Owned

variable (h : Owned v.mem F) (hf : F f) (hs : HasSlot v.mem f k)

include h hf hs

theorem field_setSlot (hg : F g) (hi : i < 64) (hne : g = f → i < 34 ∨ 44 ≤ i) :
    (v.setSlot f k w).mem g.blk (g.idx + i) = v.mem g.blk (g.idx + i) := by
  refine mem_setSlot fun heq => h.slot_ne_field hf hg hs hi hne ?_
  rw [slot, ← heq.1, ← heq.2]
  rfl

theorem indirectBlock_setSlot (hg : F g) :
    indirectBlock (v.setSlot f k w).mem g = indirectBlock v.mem g :=
  congrArg _ (h.field_setSlot hf hs hg (by decide) fun _ => .inr le_rfl)

theorem isDir_setSlot (hg : F g) : IsDir (v.setSlot f k w).mem g ↔ IsDir v.mem g := by
  unfold IsDir
  rw [h.field_setSlot hf hs hg (by decide) fun _ => .inl (by decide)]

theorem fileBlock_setSlot (hg : F g) (j : Nat) : fileBlock (v.setSlot f k w).mem g j =
    if g = f ∧ j = k then w.toNat else fileBlock v.mem g j := by
  have hind := h.indirectBlock_setSlot (w := w) hf hs hg
  have hslot : HasSlot (v.setSlot f k w).mem g j ↔ HasSlot v.mem g j := by
    unfold HasSlot
    rw [hind]
  have hblk : slotBlk (v.setSlot f k w).mem g j = slotBlk v.mem g j := by
    unfold slotBlk
    rw [hind]
  by_cases hs' : HasSlot v.mem g j
  · rw [fileBlock_of_slot (hslot.mpr hs'), fileBlock_of_slot hs', hblk]
    split
    · rename_i heq
      obtain ⟨rfl, rfl⟩ := heq
      rw [View.setSlot, slot, View.mem_set, if_pos ⟨rfl, rfl⟩]
    · rename_i hne
      rw [mem_setSlot fun heq => hne (h.slot_inj hg hf hs' hs ?_)]
      rw [slot, slot, heq.1, heq.2]
  · rw [fileBlock_of_no_slot (mt hslot.mp hs'), fileBlock_of_no_slot hs', if_neg]
    rintro ⟨rfl, rfl⟩
    exact hs' hs

theorem nblocks_setSlot : nblocks (v.setSlot f k w).mem = nblocks v.mem := by
  refine nblocks_set fun heq => ?_
  obtain ⟨hblk, hidx⟩ := Cell.disk.inj heq
  by_cases hk : k < NDIRECT
  · rw [slotIdx, if_pos hk] at hidx
    omega
  · have h2 := two_le_firstData v.mem
    have hlo := (h.range (.indirect f) hf (hs.resolve_left hk).2).1
    rw [slotBlk, if_neg hk] at hblk
    change firstData v.mem ≤ indirectBlock v.mem f at hlo
    omega

theorem freeIn_setSlot (b : Nat) : FreeIn (v.setSlot f k w).mem b ↔ FreeIn v.mem b := by
  refine freeIn_congr (h.nblocks_setSlot hf hs) (fun x hx hlt => mem_setSlot_of_ne ?_) b
  rcases h.meta_cases (isMeta_slotBlk hf hs) with heq | hlo <;> omega

end Owned

/-! ## A new block -/

/-- Block `b` becomes block `k` of `f`. -/
def View.grow (v : View) (f : FilePtr) (k b : Nat) : View :=
  (v.use b).setSlot f k (BitVec.ofNat 32 b)

namespace Owned

variable (h : Owned v.mem F) (hf : F f) (hs : HasSlot v.mem f k) (hb : FreeIn v.mem b)

include h hf hb

omit hf in
theorem indirectBlock_use (hg : F g) : indirectBlock (v.use b).mem g = indirectBlock v.mem g :=
  indirectBlock_congr (h.mem_use hb.1) hg

theorem hasSlot_use : HasSlot (v.use b).mem f k ↔ HasSlot v.mem f k := by
  unfold HasSlot
  rw [h.indirectBlock_use hb hf]

theorem slot_use : slot (v.use b).mem f k = slot v.mem f k := by
  unfold slot slotBlk
  rw [h.indirectBlock_use hb hf]

include hs

theorem nblocks_grow : nblocks (v.grow f k b).mem = nblocks v.mem :=
  ((h.use hb.1).nblocks_setSlot hf ((h.hasSlot_use hf hb).mpr hs)).trans (nblocks_use v b)

theorem freeIn_grow (x : Nat) : FreeIn (v.grow f k b).mem x ↔ FreeIn v.mem x ∧ x ≠ b := by
  rw [View.grow, (h.use hb.1).freeIn_setSlot hf ((h.hasSlot_use hf hb).mpr hs), freeIn_use]

theorem field_grow (hg : F g) (hi : i < 64) (hne : g = f → i < 34 ∨ 44 ≤ i) :
    (v.grow f k b).mem g.blk (g.idx + i) = v.mem g.blk (g.idx + i) := by
  rw [View.grow, (h.use hb.1).field_setSlot hf ((h.hasSlot_use hf hb).mpr hs) hg hi hne,
    h.mem_use hb.1 _ ⟨g, hg, .inl rfl⟩]

theorem indirectBlock_grow (hg : F g) :
    indirectBlock (v.grow f k b).mem g = indirectBlock v.mem g :=
  congrArg _ (h.field_grow hf hs hb hg (by decide) fun _ => .inr le_rfl)

theorem isDir_grow (hg : F g) : IsDir (v.grow f k b).mem g ↔ IsDir v.mem g := by
  unfold IsDir
  rw [h.field_grow hf hs hb hg (by decide) fun _ => .inl (by decide)]

theorem fileBlock_grow (hg : F g) (j : Nat) : fileBlock (v.grow f k b).mem g j =
    if g = f ∧ j = k then b else fileBlock v.mem g j := by
  rw [View.grow, (h.use hb.1).fileBlock_setSlot hf ((h.hasSlot_use hf hb).mpr hs) hg,
    fileBlock_congr (h.mem_use hb.1) hg, toNat_ofNat_of_free hb]

omit hs in
/-- The other words of the disk. -/
theorem mem_grow (hx : x ≠ bitmapBlock b) (hne : ¬ (x = slotBlk v.mem f k ∧ y = slotIdx f k)) :
    (v.grow f k b).mem x y = v.mem x y := by
  have hblk : slotBlk (v.use b).mem f k = slotBlk v.mem f k :=
    (Cell.disk.inj (h.slot_use (k := k) hf hb)).1
  rw [View.grow, mem_setSlot (by rwa [hblk]), mem_use_of_ne hx]

theorem grow (h0 : fileBlock v.mem f k = 0) : Owned (v.grow f k b).mem F := by
  have htarget : ∀ r : Ref, F r.file →
      r.target (v.grow f k b).mem = r.target v.mem ∨
        r = .data f k ∧ r.target (v.grow f k b).mem = b := by
    intro r hr
    cases r with
    | data g j =>
        have hg : F g := hr
        show fileBlock _ g j = fileBlock _ g j ∨ _ ∧ fileBlock _ g j = b
        rw [h.fileBlock_grow hf hs hb hg]
        split
        · rename_i heq
          obtain ⟨rfl, rfl⟩ := heq
          exact .inr ⟨rfl, rfl⟩
        · exact .inl rfl
    | indirect g => exact .inl (h.indirectBlock_grow hf hs hb hr)
  refine h.step (.data f k) (h.nblocks_grow hf hs hb) (fun _ hg => (h.isDir_grow hf hs hb hg).mpr)
    (fun d j hd _ hd0 => ?_) (fun r hr _ => ?_) (fun r hr hr0 hfree => ?_) (fun x hx hfree => ?_)
  · rw [h.fileBlock_grow hf hs hb hd, if_neg]
    rintro ⟨rfl, rfl⟩
    exact hd0 h0
  · refine (htarget r hr).imp_right fun hnew => ⟨hnew.1, ?_⟩
    rwa [hnew.2]
  · rw [h.freeIn_grow hf hs hb] at hfree
    rcases htarget r hr with heq | ⟨-, heq⟩
    · rw [heq] at hr0 hfree
      exact h.used r hr hr0 hfree.1
    · exact hfree.2 heq
  · exact h.reserved x hx ((h.freeIn_grow hf hs hb x).mp hfree).1

end Owned

/-! ## A field -/

namespace Owned

variable (h : Owned v.mem F) (hf : F f) (hi : i < 33)

include h hf hi

theorem field_setField (hg : F g) (hj : j < 64) (hne : g = f → j ≠ i) :
    (v.set (f.field i) w).mem g.blk (g.idx + j) = v.mem g.blk (g.idx + j) := by
  rw [FilePtr.field, View.mem_set, if_neg]
  rintro ⟨hblk, hidx⟩
  obtain ⟨rfl, rfl⟩ := h.field_inj hg hf hj (hi.trans (by decide)) (congrArg₂ Cell.disk hblk hidx)
  exact hne rfl rfl

theorem indirectBlock_setField (hg : F g) :
    indirectBlock (v.set (f.field i) w).mem g = indirectBlock v.mem g :=
  congrArg _ (h.field_setField hf hi hg (by decide) fun _ => by omega)

theorem isDir_setField (hg : F g) : IsDir (v.set (f.field i) w).mem g ↔ IsDir v.mem g := by
  unfold IsDir
  rw [h.field_setField hf hi hg (by decide) fun _ => by omega]

theorem fileBlock_setField (hg : F g) (j : Nat) :
    fileBlock (v.set (f.field i) w).mem g j = fileBlock v.mem g j := by
  have hind := h.indirectBlock_setField (w := w) hf hi hg
  have hslot : HasSlot (v.set (f.field i) w).mem g j ↔ HasSlot v.mem g j := by
    unfold HasSlot
    rw [hind]
  have hblk : slotBlk (v.set (f.field i) w).mem g j = slotBlk v.mem g j := by
    unfold slotBlk
    rw [hind]
  by_cases hs : HasSlot v.mem g j
  · rw [fileBlock_of_slot (hslot.mpr hs), fileBlock_of_slot hs, hblk, FilePtr.field, View.mem_set, if_neg]
    rintro ⟨hx, hy⟩
    refine h.slot_ne_field (i := i) hg hf hs (hi.trans (by decide)) (fun _ => .inl (by omega)) ?_
    rw [slot, hx, hy]
    rfl
  · rw [fileBlock_of_no_slot hs, fileBlock_of_no_slot (mt hslot.mp hs)]

omit hi in
theorem nblocks_setField : nblocks (v.set (f.field i) w).mem = nblocks v.mem := by
  refine nblocks_set fun heq => ?_
  obtain ⟨hblk, hidx⟩ := Cell.disk.inj heq
  rcases h.place_cases hf with rfl | ⟨hlo, -, -⟩
  · have hroot : sRoot.idx = 2 := rfl
    omega
  · have h2 := two_le_firstData v.mem
    omega

omit hi in
theorem freeIn_setField (b : Nat) : FreeIn (v.set (f.field i) w).mem b ↔ FreeIn v.mem b := by
  refine freeIn_congr (h.nblocks_setField hf) (fun x hx hlt => View.mem_set_of_ne _ _ ?_) b
  rcases h.meta_cases ⟨f, hf, .inl rfl⟩ with heq | hlo <;> omega

theorem target_setField (r : Ref) (hr : F r.file) :
    r.target (v.set (f.field i) w).mem = r.target v.mem := by
  cases r with
  | data g k =>
      have hg : F g := hr
      exact h.fileBlock_setField hf hi hg k
  | indirect g =>
      have hg : F g := hr
      exact h.indirectBlock_setField hf hi hg

theorem setField : Owned (v.set (f.field i) w).mem F := by
  refine h.step (.indirect sRoot) (h.nblocks_setField hf) (fun _ hg => (h.isDir_setField hf hi hg).mpr)
    (fun d j hd _ _ => h.fileBlock_setField hf hi hd j)
    (fun r hr _ => .inl (h.target_setField hf hi r hr)) (fun r hr h0 => ?_) (fun x hx => ?_)
  · rw [h.target_setField hf hi r hr] at h0 ⊢
    rw [h.freeIn_setField hf]
    exact h.used r hr h0
  · rw [h.freeIn_setField hf]
    exact h.reserved x hx

end Owned

/-! ## A block taken away -/

theorem View.ext_get {v' : View} (hget : ∀ c, v.get c = v'.get c) (hmoves : v.moves = v'.moves) :
    v = v' := by
  cases v
  cases v'
  simp only [View.mk.injEq]
  exact ⟨funext fun b => funext fun i => hget (.disk b i), funext fun i => hget (.req i),
    funext fun i => hget (.own i), hmoves⟩

theorem View.set_moves (v : View) (c : Cell) (w : Word) : (v.set c w).moves = v.moves := by
  cases c <;> rfl

theorem View.set_comm {c c' : Cell} (w w' : Word) (hne : c ≠ c') :
    (v.set c w).set c' w' = (v.set c' w').set c w := by
  refine View.ext_get (fun c0 => ?_) (by simp only [View.set_moves])
  simp only [View.get_set]
  by_cases h1 : c0 = c
  · rw [if_pos h1, if_pos h1, if_neg fun h2 => hne (h1.symm.trans h2)]
  · rw [if_neg h1, if_neg h1]

/-- A block nothing refers to becomes free. -/
theorem Owned.release (h : Owned v.mem F) (hlo : firstData v.mem ≤ b) (hb : b < nblocks v.mem)
    (hun : ∀ r : Ref, F r.file → r.target v.mem ≠ b) : Owned (v.release b).mem F := by
  have hmeta := h.mem_release hb
  refine h.step (.indirect sRoot) (nblocks_release v b) (fun _ hg => (isDir_congr hmeta hg).mpr)
    (fun _ _ hd _ _ => fileBlock_congr hmeta hd) (fun r hr _ => .inl (target_congr hmeta r hr)) ?_ ?_
  · intro r hr h0 hfree
    rw [target_congr hmeta r hr] at h0 hfree
    rcases (freeIn_release v b _).mp hfree with hold | ⟨heq, -⟩
    · exact h.used r hr h0 hold
    · exact hun r hr heq
  · intro x hx hfree
    rcases (freeIn_release v b x).mp hfree with hold | ⟨rfl, -⟩
    · exact h.reserved x hx hold
    · omega

/-- Block `k` of `f` is freed. -/
def View.shrink (v : View) (f : FilePtr) (k : Nat) : View :=
  (v.release (fileBlock v.mem f k)).set (slot v.mem f k) 0

namespace Owned

variable (h : Owned v.mem F) (hf : F f) (hreg : ¬ IsDir v.mem f) (h0 : fileBlock v.mem f k ≠ 0)

include h hf h0

theorem shrink_eq : v.shrink f k = (v.setSlot f k 0).release (fileBlock v.mem f k) := by
  have hrange : firstData v.mem ≤ fileBlock v.mem f k ∧ fileBlock v.mem f k < nblocks v.mem :=
    h.range (.data f k) hf h0
  have hne : bitmapCell (fileBlock v.mem f k) ≠ slot v.mem f k := fun heq =>
    h.meta_ne_bitmap hrange.2 (isMeta_slotBlk hf (hasSlot_of_ne_zero h0)) (Cell.disk.inj heq).1.symm
  unfold View.shrink View.release
  rw [View.set_comm _ _ hne, View.setSlot, View.get_set_of_ne _ _ hne]

theorem nblocks_shrink : nblocks (v.shrink f k).mem = nblocks v.mem := by
  rw [h.shrink_eq hf h0, nblocks_release, h.nblocks_setSlot hf (hasSlot_of_ne_zero h0)]

theorem freeIn_shrink (x : Nat) :
    FreeIn (v.shrink f k).mem x ↔ FreeIn v.mem x ∨ x = fileBlock v.mem f k := by
  have hlt : fileBlock v.mem f k < nblocks v.mem := (h.range (.data f k) hf h0).2
  rw [h.shrink_eq hf h0, freeIn_release, h.freeIn_setSlot hf (hasSlot_of_ne_zero h0),
    h.nblocks_setSlot hf (hasSlot_of_ne_zero h0), and_iff_left hlt]

/-- The other words of the disk. -/
theorem mem_shrink (hx : x ≠ bitmapBlock (fileBlock v.mem f k))
    (hne : ¬ (x = slotBlk v.mem f k ∧ y = slotIdx f k)) : (v.shrink f k).mem x y = v.mem x y := by
  rw [h.shrink_eq hf h0, mem_release_of_ne hx, mem_setSlot hne]

include hreg

/-- The number of a block of a regular file is removed. -/
theorem setSlot_zero : Owned (v.setSlot f k 0).mem F := by
  have hs := hasSlot_of_ne_zero h0
  have htarget : ∀ r : Ref, F r.file → r.target (v.setSlot f k 0).mem ≠ 0 →
      r.target (v.setSlot f k 0).mem = r.target v.mem := by
    intro r hr hr0
    cases r with
    | data g j =>
        have hg : F g := hr
        change fileBlock _ g j ≠ 0 at hr0
        change fileBlock _ g j = fileBlock _ g j
        rw [h.fileBlock_setSlot hf hs hg] at hr0 ⊢
        split at hr0
        · exact absurd rfl hr0
        · rename_i hne
          rw [if_neg hne]
    | indirect g =>
        have hg : F g := hr
        exact h.indirectBlock_setSlot hf hs hg
  refine h.step (.indirect sRoot) (h.nblocks_setSlot hf hs) (fun _ hg => (h.isDir_setSlot hf hs hg).mpr)
    (fun d j hd hdir _ => ?_) (fun r hr hr0 => .inl (htarget r hr hr0)) (fun r hr hr0 => ?_)
    (fun x hx => ?_)
  · rw [h.fileBlock_setSlot hf hs hd, if_neg]
    rintro ⟨rfl, -⟩
    exact hreg hdir
  · have heq := htarget r hr hr0
    rw [heq] at hr0 ⊢
    rw [h.freeIn_setSlot hf hs]
    exact h.used r hr hr0
  · rw [h.freeIn_setSlot hf hs]
    exact h.reserved x hx

/-- Nothing else refers to the block. -/
theorem target_setSlot_zero (r : Ref) (hr : F r.file) :
    r.target (v.setSlot f k 0).mem ≠ fileBlock v.mem f k := by
  have hs := hasSlot_of_ne_zero h0
  intro heq
  cases r with
  | data g j =>
      have hg : F g := hr
      change fileBlock _ g j = _ at heq
      rw [h.fileBlock_setSlot hf hs hg] at heq
      split at heq
      · exact h0 heq.symm
      · rename_i hne
        obtain ⟨rfl, rfl⟩ := h.fileBlock_inj hf hg h0 heq.symm
        exact hne ⟨rfl, rfl⟩
  | indirect g =>
      have hg : F g := hr
      change indirectBlock _ g = _ at heq
      rw [h.indirectBlock_setSlot hf hs hg] at heq
      cases h.once (.data f k) (.indirect g) hf hg h0 heq.symm

theorem shrink : Owned (v.shrink f k).mem F := by
  have hs := hasSlot_of_ne_zero h0
  have hrange : firstData v.mem ≤ fileBlock v.mem f k ∧ fileBlock v.mem f k < nblocks v.mem :=
    h.range (.data f k) hf h0
  have hn := h.nblocks_setSlot (w := 0) hf hs
  rw [h.shrink_eq hf h0]
  refine (h.setSlot_zero hf hreg h0).release ?_ ?_ (h.target_setSlot_zero hf hreg h0)
  · rw [firstData_congr hn]
    exact hrange.1
  · rw [hn]
    exact hrange.2

theorem mem_release_setSlot (hx : IsMeta (v.setSlot f k 0).mem F x) :
    (v.shrink f k).mem x = (v.setSlot f k 0).mem x := by
  rw [h.shrink_eq hf h0]
  refine (h.setSlot_zero hf hreg h0).mem_release ?_ x hx
  rw [h.nblocks_setSlot hf (hasSlot_of_ne_zero h0)]
  exact (h.range (.data f k) hf h0).2

theorem fileBlock_shrink (hg : F g) (j : Nat) : fileBlock (v.shrink f k).mem g j =
    if g = f ∧ j = k then 0 else fileBlock v.mem g j := by
  rw [fileBlock_congr (fun _ => h.mem_release_setSlot hf hreg h0) hg,
    h.fileBlock_setSlot hf (hasSlot_of_ne_zero h0) hg]
  rfl

theorem field_shrink (hg : F g) (hi : i < 64) (hne : g = f → i < 34 ∨ 44 ≤ i) :
    (v.shrink f k).mem g.blk (g.idx + i) = v.mem g.blk (g.idx + i) := by
  rw [h.mem_release_setSlot hf hreg h0 ⟨g, hg, .inl rfl⟩,
    h.field_setSlot hf (hasSlot_of_ne_zero h0) hg hi hne]

theorem indirectBlock_shrink (hg : F g) :
    indirectBlock (v.shrink f k).mem g = indirectBlock v.mem g :=
  congrArg _ (h.field_shrink hf hreg h0 hg (by decide) fun _ => .inr le_rfl)

theorem isDir_shrink (hg : F g) : IsDir (v.shrink f k).mem g ↔ IsDir v.mem g := by
  unfold IsDir
  rw [h.field_shrink hf hreg h0 hg (by decide) fun _ => .inl (by decide)]

end Owned

/-! ## The indirect block -/

/-- The indirect block of `f` is freed. -/
def View.dropIndirect (v : View) (f : FilePtr) : View :=
  (v.release (indirectBlock v.mem f)).set f.fIndirect 0

namespace Owned

variable (h : Owned v.mem F) (hf : F f)

include h hf

theorem field_clearIndirect (hg : F g) (hj : j < 64) (hne : g = f → j ≠ 44) :
    (v.set f.fIndirect w).mem g.blk (g.idx + j) = v.mem g.blk (g.idx + j) := by
  rw [FilePtr.fIndirect, FilePtr.field, View.mem_set, if_neg]
  rintro ⟨hblk, hidx⟩
  obtain ⟨rfl, rfl⟩ := h.field_inj hg hf hj (show 44 < 64 by decide) (congrArg₂ Cell.disk hblk hidx)
  exact hne rfl rfl

theorem indirectBlock_clearIndirect (hg : F g) : indirectBlock (v.set f.fIndirect 0).mem g =
    if g = f then 0 else indirectBlock v.mem g := by
  split
  · rename_i heq
    subst heq
    unfold indirectBlock
    rw [FilePtr.fIndirect, FilePtr.field, View.mem_set, if_pos ⟨rfl, rfl⟩]
    rfl
  · rename_i hne
    exact congrArg _ (h.field_clearIndirect hf hg (by decide) fun heq => absurd heq hne)

theorem isDir_clearIndirect (hg : F g) : IsDir (v.set f.fIndirect w).mem g ↔ IsDir v.mem g := by
  unfold IsDir
  rw [h.field_clearIndirect hf hg (by decide) fun _ => by decide]

theorem fileBlock_clearIndirect (hg : F g) (j : Nat) : fileBlock (v.set f.fIndirect 0).mem g j =
    if g = f ∧ NDIRECT ≤ j then 0 else fileBlock v.mem g j := by
  have hten : NDIRECT = 10 := rfl
  have hind := h.indirectBlock_clearIndirect hf hg
  by_cases hj : j < NDIRECT
  · have hs : HasSlot v.mem g j := .inl hj
    have hs' : HasSlot (v.set f.fIndirect 0).mem g j := .inl hj
    rw [if_neg fun hgf => hgf.2.not_gt hj, fileBlock_of_slot hs, fileBlock_of_slot hs']
    unfold slotBlk slotIdx
    rw [if_pos hj, if_pos hj, if_pos hj, h.field_clearIndirect hf hg (by omega) fun _ => by omega]
  · by_cases hgf : g = f
    · have hs' : ¬ HasSlot (v.set f.fIndirect 0).mem g j := by
        unfold HasSlot
        rw [hind, if_pos hgf]
        exact fun hs => hs.elim hj fun hs => hs.2 rfl
      rw [fileBlock_of_no_slot hs', if_pos ⟨hgf, not_lt.mp hj⟩]
    · rw [if_neg hgf] at hind
      rw [if_neg fun h => hgf h.1]
      have hslot : HasSlot (v.set f.fIndirect 0).mem g j ↔ HasSlot v.mem g j := by
        unfold HasSlot
        rw [hind]
      by_cases hs : HasSlot v.mem g j
      · rw [fileBlock_of_slot hs, fileBlock_of_slot (hslot.mpr hs)]
        unfold slotBlk
        rw [hind, if_neg hj, FilePtr.fIndirect, FilePtr.field,
          View.mem_set_of_ne _ _ (h.blk_ne_indirect hf hg (hs.resolve_left hj).2).symm]
      · rw [fileBlock_of_no_slot hs, fileBlock_of_no_slot (mt hslot.mp hs)]

theorem freeIn_clearIndirect (b : Nat) : FreeIn (v.set f.fIndirect w).mem b ↔ FreeIn v.mem b := by
  refine freeIn_congr (nblocks_set (fIndirect_ne_sNblocks f))
    (fun x hx hlt => View.mem_set_of_ne _ _ ?_) b
  rcases h.meta_cases ⟨f, hf, .inl rfl⟩ with heq | hlo <;> omega

theorem target_clearIndirect (r : Ref) (hr : F r.file)
    (h0 : r.target (v.set f.fIndirect 0).mem ≠ 0) :
    r.target (v.set f.fIndirect 0).mem = r.target v.mem ∧ r ≠ .indirect f := by
  cases r with
  | data g j =>
      have hg : F g := hr
      change fileBlock _ g j ≠ 0 at h0
      refine ⟨?_, fun heq => by cases heq⟩
      change fileBlock _ g j = fileBlock _ g j
      rw [h.fileBlock_clearIndirect hf hg] at h0 ⊢
      split at h0
      · exact absurd rfl h0
      · rename_i hne
        rw [if_neg hne]
  | indirect g =>
      have hg : F g := hr
      change indirectBlock _ g ≠ 0 at h0
      rw [h.indirectBlock_clearIndirect hf hg] at h0
      split at h0
      · exact absurd rfl h0
      · rename_i hne
        refine ⟨?_, fun heq => hne (Ref.indirect.inj heq)⟩
        change indirectBlock _ g = indirectBlock _ g
        rw [h.indirectBlock_clearIndirect hf hg, if_neg hne]

theorem clearIndirect (hreg : ¬ IsDir v.mem f) : Owned (v.set f.fIndirect 0).mem F := by
  have hn : nblocks (v.set f.fIndirect 0).mem = nblocks v.mem := nblocks_set (fIndirect_ne_sNblocks f)
  refine h.step (.indirect sRoot) hn (fun _ hg => (h.isDir_clearIndirect hf hg).mpr)
    (fun d j hd hdir _ => ?_) (fun r hr h0 => .inl (h.target_clearIndirect hf r hr h0).1)
    (fun r hr h0 => ?_) (fun x hx => ?_)
  · rw [h.fileBlock_clearIndirect hf hd, if_neg]
    rintro ⟨rfl, -⟩
    exact hreg hdir
  · have heq := (h.target_clearIndirect hf r hr h0).1
    rw [heq] at h0 ⊢
    rw [h.freeIn_clearIndirect hf]
    exact h.used r hr h0
  · rw [h.freeIn_clearIndirect hf]
    exact h.reserved x hx

variable (h0 : indirectBlock v.mem f ≠ 0)

include h0

theorem dropIndirect_eq :
    v.dropIndirect f = (v.set f.fIndirect 0).release (indirectBlock v.mem f) := by
  have hrange : firstData v.mem ≤ indirectBlock v.mem f ∧ indirectBlock v.mem f < nblocks v.mem :=
    h.range (.indirect f) hf h0
  have hne : bitmapCell (indirectBlock v.mem f) ≠ f.fIndirect := fun heq =>
    h.meta_ne_bitmap hrange.2 ⟨f, hf, .inl rfl⟩ (Cell.disk.inj heq).1.symm
  unfold View.dropIndirect View.release
  rw [View.set_comm _ _ hne, View.get_set_of_ne _ _ hne]

theorem freeIn_dropIndirect (x : Nat) :
    FreeIn (v.dropIndirect f).mem x ↔ FreeIn v.mem x ∨ x = indirectBlock v.mem f := by
  have hlt : indirectBlock v.mem f < nblocks v.mem := (h.range (.indirect f) hf h0).2
  rw [h.dropIndirect_eq hf h0, freeIn_release, h.freeIn_clearIndirect hf,
    nblocks_set (fIndirect_ne_sNblocks f), and_iff_left hlt]

/-- The other words of the disk. -/
theorem mem_dropIndirect (hx : x ≠ bitmapBlock (indirectBlock v.mem f))
    (hne : ¬ (x = f.blk ∧ y = f.idx + 44)) : (v.dropIndirect f).mem x y = v.mem x y := by
  rw [h.dropIndirect_eq hf h0, mem_release_of_ne hx, FilePtr.fIndirect, FilePtr.field, View.mem_set,
    if_neg hne]

variable (hreg : ¬ IsDir v.mem f)

include hreg

theorem dropIndirect : Owned (v.dropIndirect f).mem F := by
  have hrange : firstData v.mem ≤ indirectBlock v.mem f ∧ indirectBlock v.mem f < nblocks v.mem :=
    h.range (.indirect f) hf h0
  have hn : nblocks (v.set f.fIndirect 0).mem = nblocks v.mem := nblocks_set (fIndirect_ne_sNblocks f)
  rw [h.dropIndirect_eq hf h0]
  refine (h.clearIndirect hf hreg).release ?_ ?_ fun r hr heq => ?_
  · rw [firstData_congr hn]
    exact hrange.1
  · rw [hn]
    exact hrange.2
  · have hr0 : r.target (v.set f.fIndirect 0).mem ≠ 0 := heq ▸ h0
    obtain ⟨hold, hne⟩ := h.target_clearIndirect hf r hr hr0
    exact hne (h.once r (.indirect f) hr hf (hold ▸ hr0) (hold.symm.trans heq))

theorem mem_release_clearIndirect (hx : IsMeta (v.set f.fIndirect 0).mem F x) :
    (v.dropIndirect f).mem x = (v.set f.fIndirect 0).mem x := by
  rw [h.dropIndirect_eq hf h0]
  refine (h.clearIndirect hf hreg).mem_release ?_ x hx
  rw [nblocks_set (fIndirect_ne_sNblocks f)]
  exact (h.range (.indirect f) hf h0).2

theorem fileBlock_dropIndirect (hg : F g) (j : Nat) : fileBlock (v.dropIndirect f).mem g j =
    if g = f ∧ NDIRECT ≤ j then 0 else fileBlock v.mem g j := by
  rw [fileBlock_congr (fun _ => h.mem_release_clearIndirect hf h0 hreg) hg,
    h.fileBlock_clearIndirect hf hg]

theorem field_dropIndirect (hg : F g) (hj : j < 64) (hne : g = f → j ≠ 44) :
    (v.dropIndirect f).mem g.blk (g.idx + j) = v.mem g.blk (g.idx + j) := by
  rw [h.mem_release_clearIndirect hf h0 hreg ⟨g, hg, .inl rfl⟩, h.field_clearIndirect hf hg hj hne]

theorem indirectBlock_dropIndirect (hg : F g) : indirectBlock (v.dropIndirect f).mem g =
    if g = f then 0 else indirectBlock v.mem g := by
  rw [indirectBlock_congr (fun _ => h.mem_release_clearIndirect hf h0 hreg) hg,
    h.indirectBlock_clearIndirect hf hg]

end Owned

end

/-! ## The functions -/

section

variable {v : View} {F : FilePtr → Prop} {f : FilePtr} {filebno : Word}

/-- `file_get_block` of a block that needs an indirect block, with none free. -/
theorem run_fileGetBlock_full (hk : NDIRECT ≤ filebno.toNat) (hk' : filebno.toNat < NDIRECT + NINDIRECT)
    (h0 : v.get f.fIndirect = 0) (hfull : firstFree v.mem = none) :
    (fileGetBlock f filebno).run onView v = (.ok (.error (-E_NO_DISK)), v) := by
  have halloc : allocBlock.run onView v = (.ok (.error (-E_NO_DISK)), v) := by
    rw [run_allocBlock, hfull]
  have hwalk : (fileBlockWalk f filebno true).run onView v = (.ok (.error (-E_NO_DISK)), v) := by
    unfold fileBlockWalk
    rw [if_neg hk'.not_ge, if_neg hk.not_gt, Prog.run_bind_ok (run_load _ v), if_pos h0, if_pos rfl,
      Prog.run_bind_ok halloc]
    rfl
  unfold fileGetBlock
  rw [Prog.run_bind_ok hwalk]
  rfl

namespace Owned

variable (h : Owned v.mem F) (hf : F f)

include h hf

theorem run_diskaddr_indirect (h0 : v.get f.fIndirect ≠ 0) :
    (diskaddr (v.get f.fIndirect)).run onView v = (.ok (indirectBlock v.mem f), v) := by
  have hlt : indirectBlock v.mem f < nblocks v.mem := (h.range (.indirect f) hf (toNat_ne_zero h0)).2
  rw [run_diskaddr, if_pos ⟨h0, hlt⟩]
  rfl

/-- `file_block_walk` of a block that needs no new indirect block. -/
theorem run_fileBlockWalk (alloc : Bool)
    (hind : filebno.toNat < NDIRECT ∨ v.get f.fIndirect ≠ 0 ∨ NDIRECT + NINDIRECT ≤ filebno.toNat ∨
      alloc = false) :
    (fileBlockWalk f filebno alloc).run onView v =
      if NDIRECT + NINDIRECT ≤ filebno.toNat then (.ok (.error (-E_INVAL)), v)
      else if HasSlot v.mem f filebno.toNat then (.ok (.ok (slot v.mem f filebno.toNat)), v)
      else (.ok (.error (-E_NOT_FOUND)), v) := by
  unfold fileBlockWalk
  rw [run_ite]
  split
  · rfl
  · rename_i hrange
    rw [run_ite]
    split
    · rename_i hk
      rw [if_pos (.inl hk), slot, slotBlk, slotIdx, if_pos hk, if_pos hk]
      rfl
    · rename_i hk
      rw [Prog.run_bind_ok (run_load _ v), run_ite]
      split
      · rename_i h0
        have hno : ¬ HasSlot v.mem f filebno.toNat := by
          rintro (hk' | ⟨-, h0'⟩)
          · exact hk hk'
          · exact h0' (by unfold indirectBlock; exact congrArg BitVec.toNat h0)
        have halloc : alloc = false :=
          ((hind.resolve_left hk).resolve_left (not_not.mpr h0)).resolve_left hrange
        rw [if_neg hno, halloc]
        rfl
      · rename_i h0
        rw [if_pos (.inr ⟨not_le.mp hrange, toNat_ne_zero h0⟩)]
        unfold indirectSlot
        rw [Prog.run_bind_ok (run_load _ v), Prog.run_bind_ok (h.run_diskaddr_indirect hf h0), slot,
          slotBlk, slotIdx, if_neg hk, if_neg hk]
        rfl

/-- `file_get_block` of a block that needs no new indirect block. -/
theorem run_fileGetBlock (hind : filebno.toNat < NDIRECT ∨ v.get f.fIndirect ≠ 0 ∨
      NDIRECT + NINDIRECT ≤ filebno.toNat) :
    (fileGetBlock f filebno).run onView v =
      if NDIRECT + NINDIRECT ≤ filebno.toNat then (.ok (.error (-E_INVAL)), v)
      else if fileBlock v.mem f filebno.toNat ≠ 0 then (.ok (.ok (fileBlock v.mem f filebno.toNat)), v)
      else
        match firstFree v.mem with
        | none => (.ok (.error (-E_NO_DISK)), v)
        | some b => (.ok (.ok b), v.grow f filebno.toNat b) := by
  have hwalk := h.run_fileBlockWalk hf true (hind.imp_right fun hk => hk.imp_right .inl)
  unfold fileGetBlock
  by_cases hrange : NDIRECT + NINDIRECT ≤ filebno.toNat
  · rw [if_pos hrange] at hwalk ⊢
    rw [Prog.run_bind_ok hwalk]
    rfl
  · have hs : HasSlot v.mem f filebno.toNat :=
      hind.imp_right fun h0 => ⟨not_le.mp hrange, toNat_ne_zero (h0.resolve_right hrange)⟩
    rw [if_neg hrange, if_pos hs] at hwalk
    rw [if_neg hrange, Prog.run_bind_ok hwalk]
    simp only
    rw [Prog.run_bind_ok (run_load _ v), run_ite]
    have hget : (v.get (slot v.mem f filebno.toNat)).toNat = fileBlock v.mem f filebno.toNat :=
      (fileBlock_of_slot hs).symm
    by_cases h0 : v.get (slot v.mem f filebno.toNat) = 0
    · have hzero : fileBlock v.mem f filebno.toNat = 0 := by
        rw [← hget, h0]
        rfl
      rw [if_pos h0, if_neg (not_not.mpr hzero), Prog.run_bind, run_allocBlock]
      rcases hb : firstFree v.mem with _ | b
      · rfl
      · have hfree := firstFree_some hb
        have hslot := h.slot_use (k := filebno.toNat) hf hfree
        have hne := ofNat_ne_zero_of_free hfree (h.ne_zero_of_free hfree)
        have hgrow : (v.use b).set (slot v.mem f filebno.toNat) (BitVec.ofNat 32 b) =
            v.grow f filebno.toNat b := by
          rw [View.grow, View.setSlot, hslot]
        have haddr : (diskaddr (BitVec.ofNat 32 b)).run onView (v.grow f filebno.toNat b) =
            (.ok b, v.grow f filebno.toNat b) := by
          rw [run_diskaddr, if_pos, toNat_ofNat_of_free hfree]
          rw [toNat_ofNat_of_free hfree, h.nblocks_grow hf hs hfree]
          exact ⟨hne, hfree.1⟩
        simp only
        rw [Prog.run_bind_ok (run_store _ _ _), Prog.run_bind_ok (run_load _ _), View.get_set_self,
          hgrow, Prog.run_bind_ok haddr]
        rfl
    · have hne : fileBlock v.mem f filebno.toNat ≠ 0 := hget ▸ toNat_ne_zero h0
      have hlt : fileBlock v.mem f filebno.toNat < nblocks v.mem :=
        (h.range (.data f filebno.toNat) hf hne).2
      have haddr : (diskaddr (v.get (slot v.mem f filebno.toNat))).run onView v =
          (.ok (fileBlock v.mem f filebno.toNat), v) := by
        rw [run_diskaddr, if_pos, hget]
        exact ⟨h0, hget ▸ hlt⟩
      rw [if_neg h0, if_pos hne, Prog.run_bind_ok (run_load _ v), Prog.run_bind_ok haddr]
      rfl

/-- `file_free_block`. -/
theorem run_fileFreeBlock (filebno : Word) : ∃ r, (fileFreeBlock f filebno).run onView v =
    (.ok r, if fileBlock v.mem f filebno.toNat = 0 then v else v.shrink f filebno.toNat) := by
  have hwalk : (fileBlockWalk f filebno false).run onView v = _ :=
    h.run_fileBlockWalk hf false (.inr (.inr (.inr rfl)))
  unfold fileFreeBlock
  by_cases hs : HasSlot v.mem f filebno.toNat
  · have hrange : ¬ NDIRECT + NINDIRECT ≤ filebno.toNat := by
      rcases hs with hk | ⟨hk, -⟩ <;> omega
    have hget : (v.get (slot v.mem f filebno.toNat)).toNat = fileBlock v.mem f filebno.toNat :=
      (fileBlock_of_slot hs).symm
    rw [if_neg hrange, if_pos hs] at hwalk
    rw [Prog.run_bind_ok hwalk]
    simp only
    rw [Prog.run_bind_ok (run_load _ v), run_ite]
    by_cases h0 : v.get (slot v.mem f filebno.toNat) = 0
    · have hzero : fileBlock v.mem f filebno.toNat = 0 := by
        rw [← hget, h0]
        rfl
      exact ⟨0, by rw [if_pos h0, if_pos hzero]; rfl⟩
    · have hne : fileBlock v.mem f filebno.toNat ≠ 0 := hget ▸ toNat_ne_zero h0
      have hfree := run_freeBlock (v.get (slot v.mem f filebno.toNat)) v
      rw [if_neg h0, hget] at hfree
      refine ⟨0, ?_⟩
      rw [if_neg h0, if_neg hne, Prog.run_bind_ok hfree, Prog.run_bind_ok (run_store _ _ _)]
      rfl
  · have hzero := fileBlock_of_no_slot hs
    rw [if_pos hzero]
    rw [if_neg hs] at hwalk
    split at hwalk
    · exact ⟨-E_INVAL, Prog.run_bind_ok hwalk⟩
    · exact ⟨-E_NOT_FOUND, Prog.run_bind_ok hwalk⟩

end Owned

end

end SisOp.Fs
