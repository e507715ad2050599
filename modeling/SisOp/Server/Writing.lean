/-
# `SisOp.Server.Writing` — what `file_write` changes

The invariant of the loop of `file_write` (`Writing`): the bytes before the position are
those of the buffer, and every other byte of an allocated block is what it was.  A turn
fails when the position has left the range of block numbers or no block is free
(`WriteFails`).
-/
import Mathlib.Data.Finset.Card
import Mathlib.Order.Interval.Finset.Nat
import SisOp.Server.Resident

namespace SisOp.Fs

open SisOp.Lib SisOp.Jos

/-- The bytes of `f` from `n0` to `n` have been written, from `buf` on. -/
structure Writing (F : FilePtr → Prop) (f : FilePtr) (n0 buf : Nat) (v0 : View) (n : Nat) (v : View) :
    Prop where
  owned : Owned v.mem F
  small : n < 2 ^ 31
  own : ∀ va, Private va → v.byteAt va = v0.byteAt va
  field : ∀ g i, F g → i < 64 → (g = f → i < 34 ∨ 44 ≤ i) →
    v.mem g.blk (g.idx + i) = v0.mem g.blk (g.idx + i)
  others : ∀ g k, F g → g ≠ f → fileBlock v.mem g k = fileBlock v0.mem g k
  keeps : ∀ k, fileBlock v0.mem f k ≠ 0 → fileBlock v.mem f k = fileBlock v0.mem f k
  written : ∀ p, n0 ≤ p → p < n →
    fileBlock v.mem f (p / BLKSIZE) ≠ 0 ∧ fileByte v.mem f p = v0.byteAt (buf + (p - n0))
  rest : ∀ g p, F g → fileBlock v0.mem g (p / BLKSIZE) ≠ 0 → (g = f → p < n0 ∨ n ≤ p) →
    ¬ InStruct f (fileBlock v0.mem g (p / BLKSIZE)) (p % BLKSIZE / 4) →
    fileByte v.mem g p = fileByte v0.mem g p

/-- The turn at `n` fails. -/
inductive WriteFails (F : FilePtr → Prop) (f : FilePtr) (n0 buf : Nat) (v0 : View) (n : Nat) :
    Int → View → Prop
  | range {v : View} (hv : Writing F f n0 buf v0 n v) (hn : MAXFILESIZE ≤ n) :
      WriteFails F f n0 buf v0 n (-E_INVAL) v
  | full {v : View} (hv : Writing F f n0 buf v0 n v) (hn : n < MAXFILESIZE)
      (h0 : fileBlock v.mem f (n / BLKSIZE) = 0) (hfull : firstFree v.mem = none) :
      WriteFails F f n0 buf v0 n (-E_NO_DISK) v

/-! ## New blocks and copies -/

section

variable {v : View} {F : FilePtr → Prop} {f g : FilePtr} {b b' c k n o p va : Nat} {bs : List Byte}

theorem byteAt_set_disk (hva : Private va) (b i : Nat) (w : Word) :
    (v.set (.disk b i) w).byteAt va = v.byteAt va := by
  unfold View.byteAt
  split
  · rfl
  · rename_i cell hcell
    rw [View.get_set_of_ne v w (hva.cell hcell b i)]

theorem byteAt_grow (hva : Private va) (f : FilePtr) (k b : Nat) :
    (v.grow f k b).byteAt va = v.byteAt va :=
  (byteAt_set_disk hva _ _ _).trans (byteAt_set_disk hva _ _ _)

theorem Owned.not_inStruct (h : Owned v.mem F) (hf : F f) (hreg : ¬ IsDir v.mem f) (hg : F g)
    (h0 : fileBlock v.mem f k ≠ 0) (i : Nat) : ¬ InStruct g (fileBlock v.mem f k) i :=
  fun hin => h.data_not_meta hf hreg h0 ⟨g, hg, .inl hin.1⟩

/-- A byte of a block, outside the slots of `f`, is not changed by a new block. -/
theorem Owned.fileByte_grow (h : Owned v.mem F) (hf : F f) (hs : HasSlot v.mem f k) (hb : FreeIn v.mem b)
    (hk0 : fileBlock v.mem f k = 0) (hg : F g) (h0 : fileBlock v.mem g (p / BLKSIZE) ≠ 0)
    (hout : ¬ InStruct f (fileBlock v.mem g (p / BLKSIZE)) (p % BLKSIZE / 4)) :
    fileBlock (v.grow f k b).mem g (p / BLKSIZE) = fileBlock v.mem g (p / BLKSIZE) ∧
      fileByte (v.grow f k b).mem g p = fileByte v.mem g p := by
  have hblk : fileBlock (v.grow f k b).mem g (p / BLKSIZE) = fileBlock v.mem g (p / BLKSIZE) := by
    rw [h.fileBlock_grow hf hs hb hg, if_neg]
    rintro ⟨rfl, heq⟩
    exact h0 (heq ▸ hk0)
  refine ⟨hblk, ?_⟩
  have hlo : firstData v.mem ≤ fileBlock v.mem g (p / BLKSIZE) :=
    (h.range (.data g (p / BLKSIZE)) hg h0).1
  have hbit := bitmapBlock_lt hb.1
  unfold fileByte
  rw [hblk, h.mem_grow hf hb (by omega)]
  rintro ⟨heq, hidx⟩
  by_cases hk : k < NDIRECT
  · have hten : NDIRECT = 10 := rfl
    rw [slotBlk, if_pos hk] at heq
    rw [slotIdx, if_pos hk] at hidx
    exact hout ⟨heq, by omega, by omega⟩
  · rw [slotBlk, if_neg hk] at heq
    cases h.once (.data g (p / BLKSIZE)) (.indirect f) hg hf h0 heq

/-- A copy into a block of a regular file leaves the block numbers and the bitmap. -/
theorem Owned.copy (h : Owned v.mem F) (hf : F f) (hreg : ¬ IsDir v.mem f)
    (h0 : fileBlock v.mem f k ≠ 0) (ho : o + bs.length ≤ BLKSIZE) :
    Owned (v.setBytes (diskVa (fileBlock v.mem f k) o) bs).mem F ∧
      (∀ x, IsMeta v.mem F x → (v.setBytes (diskVa (fileBlock v.mem f k) o) bs).mem x = v.mem x) ∧
      nblocks (v.setBytes (diskVa (fileBlock v.mem f k) o) bs).mem = nblocks v.mem ∧
      ∀ b, FreeIn (v.setBytes (diskVa (fileBlock v.mem f k) o) bs).mem b ↔ FreeIn v.mem b := by
  have hother : ∀ x, x ≠ fileBlock v.mem f k →
      (v.setBytes (diskVa (fileBlock v.mem f k) o) bs).mem x = v.mem x := fun x hne =>
    mem_setBytes_disk (h.block_lt hf h0) ho hne
  have hlo : firstData v.mem ≤ fileBlock v.mem f k := (h.range (.data f k) hf h0).1
  have h2 := two_le_firstData v.mem
  have hmeta : ∀ x, IsMeta v.mem F x →
      (v.setBytes (diskVa (fileBlock v.mem f k) o) bs).mem x = v.mem x := fun x hx =>
    hother x fun heq => h.data_not_meta hf hreg h0 (heq ▸ hx)
  have hn : nblocks (v.setBytes (diskVa (fileBlock v.mem f k) o) bs).mem = nblocks v.mem := by
    unfold nblocks
    rw [hother 1 (by omega)]
  have hfree := freeIn_congr hn fun x _ hlt => hother x (by omega)
  exact ⟨h.congr hn hmeta hfree, hmeta, hn, hfree⟩

theorem Owned.fileByte_copy (h : Owned v.mem F) (hf : F f) (hreg : ¬ IsDir v.mem f)
    (h0 : fileBlock v.mem f (n / BLKSIZE) ≠ 0) (ho : n % BLKSIZE + bs.length ≤ BLKSIZE) (hg : F g)
    (hp0 : fileBlock v.mem g (p / BLKSIZE) ≠ 0) :
    fileByte (v.setBytes (diskVa (fileBlock v.mem f (n / BLKSIZE)) (n % BLKSIZE)) bs).mem g p =
      if g = f ∧ n ≤ p ∧ p < n + bs.length then bs.getD (p - n) 0 else fileByte v.mem g p := by
  obtain ⟨hown, hmeta, -, -⟩ := h.copy hf hreg h0 ho
  have hblk : fileBlock (v.setBytes (diskVa (fileBlock v.mem f (n / BLKSIZE)) (n % BLKSIZE)) bs).mem g
      (p / BLKSIZE) = fileBlock v.mem g (p / BLKSIZE) := fileBlock_congr hmeta hg
  have hdst : ∀ i, i < bs.length →
      Mapped (diskVa (fileBlock v.mem f (n / BLKSIZE)) (n % BLKSIZE) + i) := fun i hi => by
    rw [diskVa_add]
    exact mapped_diskVa (h.block_lt hf h0) (by omega)
  rw [hown.fileByte_eq hg (hblk.symm ▸ hp0), View.byteAt_setBytes hdst, hblk, h.fileByte_eq hg hp0]
  have hmod : p % BLKSIZE < BLKSIZE := Nat.mod_lt _ (by decide)
  by_cases hin : g = f ∧ n ≤ p ∧ p < n + bs.length
  · obtain ⟨rfl, hlo, hhi⟩ := hin
    have hdiv : p / BLKSIZE = n / BLKSIZE ∧ p % BLKSIZE = n % BLKSIZE + (p - n) := by
      unfold BLKSIZE at *
      omega
    have haddr : diskVa (fileBlock v.mem g (p / BLKSIZE)) (p % BLKSIZE) =
        diskVa (fileBlock v.mem g (n / BLKSIZE)) (n % BLKSIZE) + (p - n) := by
      rw [hdiv.1, hdiv.2, diskVa_add]
    have hrange : ∀ a i, i < bs.length → a ≤ a + i ∧ a + i < a + bs.length := fun a i hi => by omega
    have hcond : g = g ∧ n ≤ p ∧ p < n + bs.length := ⟨rfl, hlo, hhi⟩
    rw [haddr, if_pos (hrange _ _ (by omega)), if_pos hcond, Nat.add_sub_cancel_left]
  · rw [if_neg hin, if_neg]
    rintro ⟨hlo, hhi⟩
    obtain ⟨i, hi⟩ := Nat.exists_eq_add_of_le hlo
    have hlt : i < bs.length := by omega
    rw [diskVa_add] at hi
    obtain ⟨hsame, hoff⟩ := diskVa_inj hmod (by omega) hi
    obtain ⟨rfl, hdiv⟩ := h.fileBlock_inj hg hf hp0 hsame
    have hpn : p = n + i := by
      unfold BLKSIZE at *
      omega
    exact hin ⟨rfl, by omega, by omega⟩

end

/-! ## The invariant -/

section

variable {v v0 : View} {F : FilePtr → Prop} {f g : FilePtr} {b k n n0 buf s p : Nat}

theorem WriteFails.neg {e : Int} (h : WriteFails F f n0 buf v0 n e v) : e < 0 := by
  cases h <;> decide

theorem Writing.refl (h : Owned v.mem F) (hn : n < 2 ^ 31) : Writing F f n buf v n v where
  owned := h
  small := hn
  own := fun _ _ => rfl
  field := fun _ _ _ _ _ => rfl
  others := fun _ _ _ _ => rfl
  keeps := fun _ _ => rfl
  written := fun p hlo hhi => absurd hlo (not_le.mpr hhi)
  rest := fun _ _ _ _ _ _ => rfl

namespace Writing

variable (hv : Writing F f n0 buf v0 n v) (hf : F f)

include hv

theorem indirectBlock_eq (hg : F g) : indirectBlock v.mem g = indirectBlock v0.mem g :=
  congrArg _ (hv.field g 44 hg (by decide) fun _ => .inr le_rfl)

theorem isDir_iff (hg : F g) : IsDir v.mem g ↔ IsDir v0.mem g := by
  unfold IsDir
  rw [hv.field g 33 hg (by decide) fun _ => .inl (by decide)]

theorem fileSize_eq (hg : F g) : fileSize v.mem g = fileSize v0.mem g :=
  hv.field g 32 hg (by decide) fun _ => .inl (by decide)

/-- A block that was there stays. -/
theorem block_eq (hg : F g) (h0 : fileBlock v0.mem g k ≠ 0) :
    fileBlock v.mem g k = fileBlock v0.mem g k := by
  by_cases hgf : g = f
  · subst hgf
    exact hv.keeps k h0
  · exact hv.others g k hg hgf

include hf

/-- A free block is put into the empty slot of the position. -/
theorem grow (hreg : ¬ IsDir v0.mem f) (hs : HasSlot v.mem f k) (hb : FreeIn v.mem b)
    (h0 : fileBlock v.mem f k = 0) : Writing F f n0 buf v0 n (v.grow f k b) where
  owned := hv.owned.grow hf hs hb h0
  small := hv.small
  own := fun va hva => (byteAt_grow hva f k b).trans (hv.own va hva)
  field := fun g i hg hi hne => by
    rw [hv.owned.field_grow hf hs hb hg hi hne]
    exact hv.field g i hg hi hne
  others := fun g j hg hne => by
    rw [hv.owned.fileBlock_grow hf hs hb hg, if_neg fun h => hne h.1]
    exact hv.others g j hg hne
  keeps := fun j hj => by
    have hold := hv.keeps j hj
    rw [hv.owned.fileBlock_grow hf hs hb hf, if_neg]
    · exact hold
    · rintro ⟨-, rfl⟩
      exact hj (hold.symm.trans h0)
  written := fun p hlo hhi => by
    obtain ⟨hp0, hbyte⟩ := hv.written p hlo hhi
    obtain ⟨hblk, hsame⟩ := hv.owned.fileByte_grow hf hs hb h0 hf hp0
      (hv.owned.not_inStruct hf (mt (hv.isDir_iff hf).mp hreg) hf hp0 _)
    exact ⟨hblk ▸ hp0, hsame.trans hbyte⟩
  rest := fun g p hg hp0 hpos hout => by
    have hblk := hv.block_eq hg hp0
    have hsame := hv.owned.fileByte_grow hf hs hb h0 hg (hblk.symm ▸ hp0) (hblk.symm ▸ hout)
    exact hsame.2.trans (hv.rest g p hg hp0 hpos hout)

/-- A chunk is copied into the block of the position. -/
theorem setBytes {bs : List Byte} (hreg : ¬ IsDir v0.mem f) (hlo : n0 ≤ n) (hlen : bs.length = chunk n s)
    (h0 : fileBlock v.mem f (n / BLKSIZE) ≠ 0)
    (hbs : ∀ i, i < chunk n s → bs.getD i 0 = v0.byteAt (buf + (n - n0) + i)) :
    Writing F f n0 buf v0 (n + chunk n s)
      (v.setBytes (diskVa (fileBlock v.mem f (n / BLKSIZE)) (n % BLKSIZE)) bs) := by
  have hreg' := mt (hv.isDir_iff hf).mp hreg
  have hfits : n % BLKSIZE + bs.length ≤ BLKSIZE := hlen ▸ chunk_fits n s
  have hdst : ∀ i, i < bs.length →
      Mapped (diskVa (fileBlock v.mem f (n / BLKSIZE)) (n % BLKSIZE) + i) := fun i hi => by
    rw [diskVa_add]
    exact mapped_diskVa (hv.owned.block_lt hf h0) (by omega)
  obtain ⟨hown, hmeta, -, -⟩ := hv.owned.copy hf hreg' h0 hfits
  refine ⟨hown, ?_, fun va hva => ?_, fun g i hg hi hne => ?_, fun g j hg hne => ?_, fun j hj => ?_,
    fun p hplo hphi => ?_, fun g p hg hp0 hpos hout => ?_⟩
  · have hrange := range_of_block h0
    have hval : NDIRECT + NINDIRECT = 1034 := rfl
    unfold BLKSIZE at *
    omega
  · rw [View.byteAt_setBytes hdst, if_neg, hv.own va hva]
    rintro ⟨hlo', -⟩
    obtain ⟨i, rfl⟩ := Nat.exists_eq_add_of_le hlo'
    exact hva.ne_diskVa (diskVa_add _ _ _)
  · exact (congrFun (hmeta _ ⟨g, hg, .inl rfl⟩) _).trans (hv.field g i hg hi hne)
  · exact (fileBlock_congr hmeta hg).trans (hv.others g j hg hne)
  · exact (fileBlock_congr hmeta hf).trans (hv.keeps j hj)
  · by_cases hold : p < n
    · obtain ⟨hp0, hpbyte⟩ := hv.written p hplo hold
      refine ⟨(fileBlock_congr hmeta hf).trans_ne hp0, ?_⟩
      rw [hv.owned.fileByte_copy hf hreg' h0 hfits hf hp0, if_neg (by omega), hpbyte]
    · have hdiv : p / BLKSIZE = n / BLKSIZE := by
        obtain ⟨hdiv, -⟩ := chunk_block (show p - n < chunk n s by omega)
        rwa [Nat.add_sub_cancel' (by omega)] at hdiv
      have hp0 : fileBlock v.mem f (p / BLKSIZE) ≠ 0 := hdiv ▸ h0
      refine ⟨(fileBlock_congr hmeta hf).trans_ne hp0, ?_⟩
      rw [hv.owned.fileByte_copy hf hreg' h0 hfits hf hp0, if_pos ⟨rfl, by omega, by omega⟩,
        hbs _ (by omega), Nat.add_assoc, show n - n0 + (p - n) = p - n0 by omega]
  · have hp0' : fileBlock v.mem g (p / BLKSIZE) ≠ 0 := (hv.block_eq hg hp0).symm ▸ hp0
    rw [hv.owned.fileByte_copy hf hreg' h0 hfits hg hp0', if_neg]
    · exact hv.rest g p hg hp0 (fun heq => (hpos heq).imp_right fun hge => by omega) hout
    · rintro ⟨heq, hge, hlt⟩
      have := hpos heq
      omega

omit hf in
theorem noted (m : Move) : Writing F f n0 buf v0 n (v.noted m) where
  owned := hv.owned
  small := hv.small
  own := fun va hva => (congrFun (View.noted_byteAt v m) va).trans (hv.own va hva)
  field := hv.field
  others := hv.others
  keeps := hv.keeps
  written := hv.written
  rest := hv.rest

theorem copy (hreg : ¬ IsDir v0.mem f) (hlo : n0 ≤ n) (h0 : fileBlock v.mem f (n / BLKSIZE) ≠ 0)
    (hbuf : ∀ i, i < chunk n s → Private (buf + (n - n0) + i)) :
    ∃ v', (memmove (diskVa (fileBlock v.mem f (n / BLKSIZE)) (n % BLKSIZE)) (buf + (n - n0))
      (chunk n s)).run onView v = (.ok (), v') ∧ Writing F f n0 buf v0 (n + chunk n s) v' ∧
      (∀ k, fileBlock v'.mem f k = fileBlock v.mem f k) ∧
      nblocks v'.mem = nblocks v.mem ∧ ∀ b, FreeIn v'.mem b ↔ FreeIn v.mem b := by
  have hfits := chunk_fits n s
  have hdst : ∀ i, i < chunk n s →
      Mapped (diskVa (fileBlock v.mem f (n / BLKSIZE)) (n % BLKSIZE) + i) := fun i hi => by
    rw [diskVa_add]
    exact mapped_diskVa (hv.owned.block_lt hf h0) (by omega)
  have hlen : (v.bytes (buf + (n - n0)) (chunk n s)).length = chunk n s := View.length_bytes _ _ _
  refine ⟨_, run_memmove (fun i hi => (hbuf i hi).mapped) hdst, ?_, ?_⟩
  · refine (hv.noted _).setBytes hf hreg hlo hlen h0 fun i hi => ?_
    rw [View.getD_bytes hi]
    exact hv.own _ (hbuf i hi)
  · obtain ⟨-, hmeta, hn, hfree⟩ := (hv.noted ⟨_, _, _⟩).owned.copy hf (mt (hv.isDir_iff hf).mp hreg) h0
      (hlen.symm ▸ hfits)
    exact ⟨fun k => fileBlock_congr hmeta hf, hn, hfree⟩

end Writing

/-! ## Running out of blocks -/

def freeBlockSet (mem : Nat → Block) : Finset Nat := (Finset.range (nblocks mem)).filter (FreeIn mem)

/-- The empty direct slots from `k` on. -/
def emptySlots (mem : Nat → Block) (f : FilePtr) (k : Nat) : Finset Nat :=
  (Finset.Ico k NDIRECT).filter fun j => fileBlock mem f j = 0

/-- There are no more free blocks than empty direct slots. -/
def Scarce (mem : Nat → Block) (f : FilePtr) (k : Nat) : Prop :=
  (freeBlockSet mem).card ≤ (emptySlots mem f k).card

/-- From `lo` to `hi` no indirect block is allocated: none is needed, or the free blocks do not last
until then. -/
def NoNewIndirect (mem : Nat → Block) (f : FilePtr) (lo hi : Nat) : Prop :=
  (∀ p, lo ≤ p → p < hi → p / BLKSIZE < NDIRECT ∨ indirectBlock mem f ≠ 0 ∨
    NDIRECT + NINDIRECT ≤ p / BLKSIZE) ∨ Scarce mem f (lo / BLKSIZE)

section

variable {mem mem' : Nat → Block}

theorem scarce_congr (hn : nblocks mem' = nblocks mem) (hfree : ∀ b, FreeIn mem' b ↔ FreeIn mem b)
    (hblk : ∀ k, fileBlock mem' f k = fileBlock mem f k) : Scarce mem' f k ↔ Scarce mem f k := by
  unfold Scarce freeBlockSet emptySlots
  simp only [hn, hfree, hblk]

/-- A slot that is not empty does not count. -/
theorem scarce_succ (h0 : fileBlock mem f k ≠ 0) (h : Scarce mem f k) : Scarce mem f (k + 1) := by
  have hsame : emptySlots mem f (k + 1) = emptySlots mem f k := by
    ext j
    simp only [emptySlots, Finset.mem_filter, Finset.mem_Ico]
    refine and_congr_left fun hj => and_congr_left fun _ => ⟨fun hlt => by omega, fun hle => ?_⟩
    rcases hle.eq_or_lt with rfl | hlt
    · exact absurd hj h0
    · exact hlt
  unfold Scarce at *
  rwa [hsame]

theorem firstFree_of_scarce (h : Scarce v.mem f k) (hk : NDIRECT ≤ k) : firstFree v.mem = none := by
  rcases hb : firstFree v.mem with _ | b
  · rfl
  · have hfree := firstFree_some hb
    have hempty : emptySlots v.mem f k = ∅ := by
      rw [emptySlots, Finset.Ico_eq_empty hk.not_gt, Finset.filter_empty]
    have hzero : (freeBlockSet v.mem).card = 0 := by
      have hle := h
      unfold Scarce at hle
      rw [hempty, Finset.card_empty] at hle
      omega
    have hmem : b ∈ freeBlockSet v.mem := by simp [freeBlockSet, hfree, hfree.1]
    rw [Finset.card_eq_zero.mp hzero] at hmem
    exact absurd hmem (Finset.notMem_empty b)

/-- A new block takes a free block and fills a slot. -/
theorem Owned.scarce_grow (h : Owned v.mem F) (hf : F f) (hs : HasSlot v.mem f k) (hb : FreeIn v.mem b)
    (h0 : fileBlock v.mem f k = 0) (hsc : Scarce v.mem f k) : Scarce (v.grow f k b).mem f k := by
  have hblocks : freeBlockSet (v.grow f k b).mem = (freeBlockSet v.mem).erase b := by
    ext x
    simp only [freeBlockSet, Finset.mem_filter, Finset.mem_range, Finset.mem_erase,
      h.nblocks_grow hf hs hb, h.freeIn_grow hf hs hb]
    tauto
  have hmem : b ∈ freeBlockSet v.mem := by simp [freeBlockSet, hb, hb.1]
  have hslots : emptySlots (v.grow f k b).mem f k = (emptySlots v.mem f k).erase k := by
    ext x
    simp only [emptySlots, Finset.mem_filter, Finset.mem_Ico, Finset.mem_erase,
      h.fileBlock_grow hf hs hb hf]
    by_cases hx : x = k
    · simp [hx, h.ne_zero_of_free hb]
    · simp [hx]
  unfold Scarce at *
  rw [hblocks, hslots, Finset.card_erase_of_mem hmem]
  have hle := Finset.pred_card_le_card_erase (s := emptySlots v.mem f k) (a := k)
  omega

end

/-! ## The loop of `file_write` -/

/-- The bytes from `n0` to `n` have been touched, and the slots of their blocks. -/
def Touched (R : Nat → Prop) (f : FilePtr) (n0 n : Nat) (v : View) : Prop :=
  ∀ p, n0 ≤ p → p < n →
    R 1 ∧ R (slotBlk v.mem f (p / BLKSIZE)) ∧ R (fileBlock v.mem f (p / BLKSIZE))

namespace Writing

variable (hv : Writing F f n0 buf v0 n v) (hf : F f)

include hv hf

theorem slotBlk_eq (k : Nat) : slotBlk v.mem f k = slotBlk v0.mem f k := by
  unfold slotBlk
  rw [hv.indirectBlock_eq hf]

/-- What has been touched stays so. -/
theorem touched {n' : Nat} {v' : View} {R : Nat → Prop} (hv' : Writing F f n0 buf v0 n' v')
    (hle : n ≤ n') (hkeep : ∀ k, fileBlock v.mem f k ≠ 0 → fileBlock v'.mem f k = fileBlock v.mem f k)
    (ht : Touched R f n0 n v)
    (hnew : ∀ p, n ≤ p → p < n' →
      R 1 ∧ R (slotBlk v.mem f (p / BLKSIZE)) ∧ R (fileBlock v'.mem f (p / BLKSIZE))) :
    Touched R f n0 n' v' := by
  intro p hlo hhi
  rw [hv'.slotBlk_eq hf, ← hv.slotBlk_eq hf]
  by_cases hold : p < n
  · obtain ⟨h1, hslot, hblk⟩ := ht p hlo hold
    rw [hkeep _ (hv.written p hlo hold).1]
    exact ⟨h1, hslot, hblk⟩
  · exact hnew p (by omega) hhi

end Writing

/-- A turn of the loop. -/
theorem write_turn {R : Nat → Prop} (hw : Writing F f n0 buf v0 n v) (hf : F f) (hreg : ¬ IsDir v0.mem f)
    (hlo : n0 ≤ n) (hhi : n < s) (ht : Touched R f n0 n v) (hind : NoNewIndirect v.mem f n s)
    (hbuf : ∀ i, i < chunk n s → Private (buf + (n - n0) + i)) :
    Turn (Only R) (fun blk buf n => memmove blk buf n) f n s (buf + (n - n0)) v
      (fun v' => Writing F f n0 buf v0 (n + chunk n s) v' ∧ Touched R f n0 (n + chunk n s) v' ∧
        NoNewIndirect v'.mem f (n + chunk n s) s)
      (WriteFails F f n0 buf v0 n) := by
  have hval : NDIRECT + NINDIRECT = 1034 := rfl
  have hsize : BLKSIZE = 4096 := rfl
  have hmax : MAXFILESIZE = 1034 * 4096 := rfl
  have hn := hw.small
  have hk : (BitVec.ofNat 32 (n / BLKSIZE)).toNat = n / BLKSIZE := by
    rw [BitVec.toNat_ofNat, Nat.mod_eq_of_lt (by rw [hsize]; omega)]
  by_cases hrange : NDIRECT + NINDIRECT ≤ n / BLKSIZE
  · have hget : (fileGetBlock f (BitVec.ofNat 32 (n / BLKSIZE))).run onView v = _ :=
      hw.owned.run_fileGetBlock hf (.inr (.inr (hk.symm ▸ hrange)))
    rw [hk, if_pos hrange] at hget
    refine .error hget (.range hw ?_)
    rw [hsize] at hrange
    omega
  · have hmaxn : n < MAXFILESIZE := by
      rw [hsize] at hrange
      omega
    by_cases hs : HasSlot v.mem f (n / BLKSIZE)
    · have hslot : n / BLKSIZE < NDIRECT ∨ v.get f.fIndirect ≠ 0 ∨
          NDIRECT + NINDIRECT ≤ n / BLKSIZE :=
        hs.imp_right fun hk' => .inl fun hzero => hk'.2 (congrArg BitVec.toNat hzero)
      have hget : (fileGetBlock f (BitVec.ofNat 32 (n / BLKSIZE))).run onView v = _ :=
        hw.owned.run_fileGetBlock hf (hk.symm ▸ hslot)
      rw [hk, if_neg hrange] at hget
      have hadd := add_chunk_le hhi.le
      have hdiv : ∀ p, n ≤ p → p < n + chunk n s → p / BLKSIZE = n / BLKSIZE := fun p hplo hphi => by
        obtain ⟨hdiv, -⟩ := chunk_block (show p - n < chunk n s by omega)
        rwa [Nat.add_sub_cancel' hplo] at hdiv
      have hnext : (n + chunk n s) / BLKSIZE = n / BLKSIZE ∨
          (n + chunk n s) / BLKSIZE = n / BLKSIZE + 1 := by
        have hfits := chunk_fits n s
        rw [hsize] at *
        omega
      -- the block is copied to, and then it has been touched
      have hcopied : ∀ v1 b, Writing F f n0 buf v0 n v1 → fileBlock v1.mem f (n / BLKSIZE) = b → b ≠ 0 →
          (∀ k, fileBlock v.mem f k ≠ 0 → fileBlock v1.mem f k = fileBlock v.mem f k) →
          (Scarce v.mem f (n / BLKSIZE) → Scarce v1.mem f (n / BLKSIZE)) →
          (fileGetBlock f (BitVec.ofNat 32 (n / BLKSIZE))).run onView v = (.ok (.ok b), v1) →
          Turn (Only R) (fun blk buf n => memmove blk buf n) f n s (buf + (n - n0)) v
            (fun v' => Writing F f n0 buf v0 (n + chunk n s) v' ∧ Touched R f n0 (n + chunk n s) v' ∧
              NoNewIndirect v'.mem f (n + chunk n s) s)
            (WriteFails F f n0 buf v0 n) := by
        rintro v1 b hw1 rfl hb0 hkeep hscarce hrun
        obtain ⟨v2, hcopy, hw2, hblocks, hnb, hfree⟩ := hw1.copy hf hreg hlo hb0 hbuf
        refine .copied hrun hcopy fun hcovget hcovcopy => ⟨hw2, ?_, ?_⟩
        · obtain ⟨hR, h1⟩ := touched_fileGetBlock hw.owned hf (hk.symm ▸ hs) hcovget
          have hblk := touched_memmove (chunk_pos hhi) (fun i hi => (hbuf i hi).mapped)
            (inBlock_diskVa_self (hw1.owned.block_lt hf hb0) (Nat.mod_lt _ (by decide))) hcovcopy
          refine hw.touched hf hw2 (Nat.le_add_right _ _) (fun k hk0 => ?_) ht fun p hplo hphi => ?_
          · rw [hblocks, hkeep k hk0]
          · rw [hdiv p hplo hphi, hblocks]
            exact ⟨h1, hk ▸ hR, hblk⟩
        · refine hind.imp (fun hall p hplo hphi => ?_) fun hsc => ?_
          · rw [hw2.indirectBlock_eq hf, ← hw.indirectBlock_eq hf]
            exact hall p (by omega) hphi
          · have hsc1 := hscarce hsc
            rw [scarce_congr hnb hfree hblocks]
            rcases hnext with heq | heq
            · rwa [heq]
            · rw [heq]
              exact scarce_succ hb0 hsc1
      by_cases h0 : fileBlock v.mem f (n / BLKSIZE) = 0
      · rw [if_neg (not_not.mpr h0)] at hget
        rcases hfree : firstFree v.mem with _ | b
        · rw [hfree] at hget
          exact .error hget (.full hw hmaxn h0 hfree)
        · rw [hfree] at hget
          have hb := firstFree_some hfree
          refine hcopied _ b (hw.grow hf hreg hs hb h0) ?_ (hw.owned.ne_zero_of_free hb) (fun k hk0 => ?_)
            (hw.owned.scarce_grow hf hs hb h0) hget
          · rw [hw.owned.fileBlock_grow hf hs hb hf, if_pos ⟨rfl, rfl⟩]
          · rw [hw.owned.fileBlock_grow hf hs hb hf, if_neg]
            rintro ⟨-, rfl⟩
            exact hk0 h0
      · rw [if_pos h0] at hget
        exact hcopied v _ hw rfl h0 (fun _ _ => rfl) id hget
    · -- an indirect block is needed: there is no free block
      have hdir : ¬ n / BLKSIZE < NDIRECT := fun hlt => hs (.inl hlt)
      have hzero : indirectBlock v.mem f = 0 := by
        by_contra hne
        exact hs (.inr ⟨not_le.mp hrange, hne⟩)
      have hfull : firstFree v.mem = none := by
        rcases hind with hall | hsc
        · rcases hall n le_rfl hhi with hlt | hne | hge
          · exact absurd hlt hdir
          · exact absurd hzero hne
          · exact absurd hge hrange
        · exact firstFree_of_scarce hsc (not_lt.mp hdir)
      refine .error (run_fileGetBlock_full ?_ ?_ (BitVec.eq_of_toNat_eq hzero) hfull)
        (.full hw hmaxn (fileBlock_of_no_slot hs) hfull)
      · rw [hk]
        exact not_lt.mp hdir
      · rw [hk]
        exact not_le.mp hrange

/-- The loop reaches the end, or fails at some position. -/
theorem run_transfer_write {R : Nat → Prop} {stop pos : Word} {fuel : Nat} (h : Owned v.mem F)
    (hf : F f) (hreg : ¬ IsDir v.mem f) (hsmall : pos.toNat < 2 ^ 31) (hle : pos.toNat ≤ stop.toNat)
    (hfuel : stop.toNat - pos.toNat ≤ fuel) (hind : NoNewIndirect v.mem f pos.toNat stop.toNat)
    (hbuf : ∀ i, i < stop.toNat - pos.toNat → Private (buf + i))
    (hcov : Prog.Covered onView (Only R)
      (transfer (fun blk buf n => memmove blk buf n) f stop fuel pos buf) v) :
    Done (transfer (fun blk buf n => memmove blk buf n) f stop fuel pos buf) pos.toNat stop.toNat v
      (fun n v' => Writing F f pos.toNat buf v n v' ∧ Touched R f pos.toNat n v' ∧
        NoNewIndirect v'.mem f n stop.toNat)
      (WriteFails F f pos.toNat buf v) := by
  have hrule : Done (transfer (fun blk buf n => memmove blk buf n) f stop fuel pos
      (buf + (pos.toNat - pos.toNat))) pos.toNat stop.toNat v
      (fun n v' => Writing F f pos.toNat buf v n v' ∧ Touched R f pos.toNat n v' ∧
        NoNewIndirect v'.mem f n stop.toNat)
      (WriteFails F f pos.toNat buf v) := by
    refine transfer_rule (P := Only R) _ _ (fun n w hlo hhi hw => ⟨hw.1.small, ?_⟩) le_rfl hle hfuel ?_
      ⟨.refl h hsmall, fun p hlo hhi => absurd hlo hhi.not_ge, hind⟩
    · have hadd := add_chunk_le hhi.le
      refine write_turn hw.1 hf hreg hlo hhi hw.2.1 hw.2.2 fun i hi => ?_
      rw [Nat.add_assoc]
      exact hbuf _ (by omega)
    · rwa [Nat.sub_self, Nat.add_zero]
  rwa [Nat.sub_self, Nat.add_zero] at hrule

end

end SisOp.Fs
