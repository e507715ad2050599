/-
# `SisOp.Server.GetBlock` — `file_get_block` on a sound disk

What `file_get_block` leaves where the indirect block it takes, if it takes one, is
blank (`GotBlock`), and what the loop of `file_read` and `file_write` leaves then.
Which block becomes the indirect block of a file is settled before the loop starts:
the empty slots on the way take the free blocks before it (`IndexBlank`).
-/
import Mathlib.Algebra.Order.SuccPred
import Mathlib.Data.Nat.SuccPred
import Mathlib.Order.Interval.Finset.SuccPred
import SisOp.Server.Sound

namespace SisOp.Fs

open SisOp.Lib SisOp.Jos

/-! ## One block -/

/-- The file has an indirect block now, if block `k` needs one. -/
inductive Indexed (v : View) (f : FilePtr) (k : Nat) : View → Prop
  | same : Indexed v f k v
  | new {b : Nat} (hk : NDIRECT ≤ k) (hk' : k < NDIRECT + NINDIRECT) (h0 : indirectBlock v.mem f = 0)
      (hb : NthFree v.mem 0 b) : Indexed v f k (v.growIndirect f b)

/-- What `file_get_block(f, k, &blk)` returns and leaves. -/
inductive GotBlock (v : View) (f : FilePtr) (k : Nat) : Except Int Nat → View → Prop
  | error {e : Int} {v1 : View} (hv : Indexed v f k v1)
      (hno : NDIRECT + NINDIRECT ≤ k ∨ ∀ b, ¬ FreeIn v1.mem b) : GotBlock v f k (.error e) v1
  | held {v1 : View} (hv : Indexed v f k v1) (h0 : fileBlock v1.mem f k ≠ 0) :
      GotBlock v f k (.ok (fileBlock v1.mem f k)) v1
  | new {v1 : View} {b : Nat} (hv : Indexed v f k v1) (hs : HasSlot v1.mem f k)
      (h0 : fileBlock v1.mem f k = 0) (hb : NthFree v1.mem 0 b) : GotBlock v f k (.ok b) (v1.grow f k b)

/-- The block that becomes the indirect block of `f` is blank, if block `k` needs one. -/
def NextBlank (mem : Nat → Block) (f : FilePtr) (k : Nat) : Prop :=
  NDIRECT ≤ k → k < NDIRECT + NINDIRECT → indirectBlock mem f = 0 → ∀ b, NthFree mem 0 b → Blank (mem b)

section

variable {v v' v1 : View} {F : FilePtr → Prop} {f g : FilePtr} {k : Nat} {r : Except Int Nat}

theorem Indexed.keeps (hv : Indexed v f k v1) (h : Owned v.mem F) (hf : F f) (hblank : NextBlank v.mem f k) :
    Keeps F v.mem v1.mem := by
  cases hv with
  | same => exact .refl h
  | @new b hlo hhi h0 hb => exact h.keeps_growIndirect hf hb.free h0 (hblank hlo hhi h0 b hb)

/-- A block that is there needs none. -/
theorem Indexed.eq_of_ne_zero (hv : Indexed v f k v1) (h0 : fileBlock v.mem f k ≠ 0) : v1 = v := by
  cases hv with
  | same => rfl
  | new hlo _ hzero _ =>
      rcases hasSlot_of_ne_zero h0 with hk | ⟨-, hne⟩
      · exact absurd hlo hk.not_ge
      · exact absurd hzero hne

theorem indexed_of_slot {slot' : Cell} (h : Owned v.mem F) (hf : F f)
    (hslot : SlotOf v f k true (.ok slot') v1) :
    Indexed v f k v1 ∧ HasSlot v1.mem f k ∧ slot' = slot v1.mem f k := by
  cases hslot with
  | direct hk =>
      refine ⟨.same, .inl hk, ?_⟩
      rw [slot, slotBlk, slotIdx, if_pos hk, if_pos hk]
      rfl
  | indirect hk hk' h0 _ =>
      refine ⟨.same, .inr ⟨hk', toNat_ne_zero h0⟩, ?_⟩
      rw [slot, slotBlk, slotIdx, if_neg hk.not_gt, if_neg hk.not_gt]
      rfl
  | newIndirect b hk hk' h0 hb hb0 _ =>
      have hfree := firstFree_some hb
      have hind : indirectBlock (v.growIndirect f b).mem f = b :=
        (h.indirectBlock_growIndirect hf hfree hf).trans (if_pos rfl)
      refine ⟨.new hk hk' (congrArg BitVec.toNat h0) (firstFree_nth hb), .inr ⟨hk', hind.symm ▸ hb0⟩, ?_⟩
      change _ = slot (v.growIndirect f b).mem f k
      rw [slot, slotBlk, slotIdx, if_neg hk.not_gt, if_neg hk.not_gt, hind]

theorem gotBlock_of_run {filebno : Word} (h : Owned v.mem F) (hf : F f)
    (hblank : NextBlank v.mem f filebno.toNat)
    (hrun : (fileGetBlock f filebno).run onView v = (.ok r, v')) : GotBlock v f filebno.toNat r v' := by
  have hget := blockOf_of_run hrun
  have hsame : ∀ {v1 : View} {w : Cell}, HasSlot v1.mem f filebno.toNat → w = slot v1.mem f filebno.toNat →
      (v1.get w).toNat = fileBlock v1.mem f filebno.toNat := by
    rintro v1 w hs rfl
    exact (fileBlock_of_slot hs).symm
  cases hget with
  | error hslot =>
      cases hslot with
      | full hk hk' h0 hb _ => exact .error .same (.inr (firstFree_none hb))
      | range hk => exact .error .same (.inl hk)
      | absent _ _ _ halloc => cases halloc
  | held hslot h0 hlt =>
      obtain ⟨hv, hs, heq⟩ := indexed_of_slot h hf hslot
      rw [hsame hs heq]
      exact .held hv (hsame hs heq ▸ toNat_ne_zero h0)
  | full hslot h0 hb =>
      obtain ⟨hv, -, -⟩ := indexed_of_slot h hf hslot
      exact .error hv (.inr (firstFree_none hb))
  | @new slot' v1 b hslot h0 hb hb0 =>
      obtain ⟨hv, hs, heq⟩ := indexed_of_slot h hf hslot
      have hown := (hv.keeps h hf hblank).owned
      have hgrow : (v1.use b).set slot' (BitVec.ofNat 32 b) = v1.grow f filebno.toNat b := by
        rw [View.grow, View.setSlot, hown.slot_use hf (firstFree_some hb), heq]
      rw [hgrow]
      exact .new hv hs ((hsame hs heq).symm.trans (congrArg BitVec.toNat h0)) (firstFree_nth hb)

/-- A block of a regular file, or one that is there. -/
theorem GotBlock.keeps (hgot : GotBlock v f k r v') (h : Owned v.mem F) (hf : F f)
    (hblank : NextBlank v.mem f k) (hreg : ¬ IsDir v.mem f ∨ fileBlock v.mem f k ≠ 0) :
    Keeps F v.mem v'.mem ∧ ∀ b, r = .ok b → b = fileBlock v'.mem f k ∧ b ≠ 0 := by
  cases hgot with
  | error hv _ => exact ⟨hv.keeps h hf hblank, fun b hb => by cases hb⟩
  | held hv h0 =>
      refine ⟨hv.keeps h hf hblank, fun b hb => ?_⟩
      cases hb
      exact ⟨rfl, h0⟩
  | @new v1 b hv hs h0 hb =>
      have hkeeps := hv.keeps h hf hblank
      have hreg' : ¬ IsDir v.mem f := by
        refine hreg.resolve_right fun hne => hne ?_
        rw [← hv.eq_of_ne_zero hne, h0]
      have hreg1 := mt (hkeeps.isDir_iff hf).mp hreg'
      refine ⟨hkeeps.trans (hkeeps.owned.keeps_grow hf hreg1 hs hb.free h0), fun b' hb' => ?_⟩
      cases hb'
      rw [hkeeps.owned.fileBlock_grow hf hs hb.free hf, if_pos ⟨rfl, rfl⟩]
      exact ⟨rfl, hkeeps.owned.ne_zero_of_free hb.free⟩

theorem GotBlock.eq_of_ge (hgot : GotBlock v f k r v') (hge : NDIRECT + NINDIRECT ≤ k) : v' = v := by
  have hsame : ∀ {v1}, Indexed v f k v1 → v1 = v := by
    intro v1 hv
    cases hv with
    | same => rfl
    | new _ hk' _ _ => exact absurd hge hk'.not_ge
  cases hgot with
  | error hv _ => exact hsame hv
  | held hv _ => exact hsame hv
  | new _ hs _ _ =>
      rcases hs with hk | ⟨hk, -⟩
      · exact absurd (hge.trans hk.le) (by decide)
      · exact absurd hge hk.not_ge

theorem nextBlank_of_ne_zero {mem : Nat → Block} (h0 : fileBlock mem f k ≠ 0) : NextBlank mem f k := by
  intro hlo _ hzero
  rcases hasSlot_of_ne_zero h0 with hk | ⟨-, hne⟩
  · exact absurd hlo hk.not_ge
  · exact absurd hzero hne

/-- A block that is there is found, and nothing changes. -/
theorem GotBlock.eq_of_ne_zero (hgot : GotBlock v f k r v') (h0 : fileBlock v.mem f k ≠ 0) :
    v' = v ∧ ∀ b, r = .ok b → b = fileBlock v.mem f k := by
  cases hgot with
  | error hv _ => exact ⟨hv.eq_of_ne_zero h0, fun b hb => by cases hb⟩
  | held hv _ =>
      obtain rfl := hv.eq_of_ne_zero h0
      refine ⟨rfl, fun b hb => ?_⟩
      cases hb
      rfl
  | new hv _ hzero _ =>
      obtain rfl := hv.eq_of_ne_zero h0
      exact absurd hzero h0

end

/-! ## The next blocks -/

/-- How many of the direct slots from `k` on are empty. -/
def holes (mem : Nat → Block) (f : FilePtr) (k : Nat) : Nat :=
  ((Finset.Ico k NDIRECT).filter fun i => fileBlock mem f i = 0).card

/-- If the bytes from `lo` to `hi` need an indirect block that is not there, the block it will be is
blank: the empty slots before it take the free blocks before it. -/
def IndexBlank (mem : Nat → Block) (f : FilePtr) (lo hi : Nat) : Prop :=
  NDIRECT * BLKSIZE < hi → lo < hi → indirectBlock mem f = 0 →
    ∀ b, NthFree mem (holes mem f (lo / BLKSIZE)) b → Blank (mem b)

section

variable {v v' v1 : View} {F : FilePtr → Prop} {f g : FilePtr} {b k n m stop : Nat}

theorem holes_of_ge {mem : Nat → Block} (h : NDIRECT ≤ k) : holes mem f k = 0 := by
  unfold holes
  rw [Finset.Ico_eq_empty_of_le h]
  rfl

theorem holes_succ {mem : Nat → Block} (h : k < NDIRECT) :
    holes mem f k = holes mem f (k + 1) + if fileBlock mem f k = 0 then 1 else 0 := by
  have hnot : k ∉ Finset.Ico (k + 1) NDIRECT := by simp
  unfold holes
  rw [← Finset.insert_Ico_succ_left_eq_Ico h, Order.succ_eq_add_one, Finset.filter_insert]
  split
  · rw [Finset.card_insert_of_notMem fun hmem => hnot (Finset.mem_filter.mp hmem).1]
  · rfl

theorem holes_congr {mem mem' : Nat → Block} (h : ∀ i, k ≤ i → fileBlock mem' f i = fileBlock mem f i) :
    holes mem' f k = holes mem f k := by
  unfold holes
  refine congrArg _ (Finset.filter_congr fun i hi => ?_)
  rw [h i (Finset.mem_Ico.mp hi).1]

theorem IndexBlank.nextBlank {mem : Nat → Block} (h : IndexBlank mem f n stop) (hlt : n < stop) :
    NextBlank mem f (n / BLKSIZE) := by
  intro hlo _ h0 b hb
  have hge : NDIRECT * BLKSIZE ≤ n := (Nat.le_div_iff_mul_le (by decide)).mp hlo
  refine h (hge.trans_lt hlt) hlt h0 b ?_
  rwa [holes_of_ge hlo]

/-- One turn further. -/
theorem IndexBlank.next (hidx : IndexBlank v.mem f n stop) (h : Owned v.mem F) (hf : F f) (hlt : n < stop)
    (hgot : GotBlock v f (n / BLKSIZE) (.ok b) v') (hm : m / BLKSIZE = n / BLKSIZE + 1 ∨ m = stop) :
    IndexBlank v'.mem f m stop := by
  intro hhi hlt' h0 x hx
  have hnext : m / BLKSIZE = n / BLKSIZE + 1 := hm.resolve_right hlt'.ne
  rw [hnext] at hx
  have hnew : ∀ {v1}, Indexed v f (n / BLKSIZE) v1 → indirectBlock v1.mem f = 0 → v1 = v := by
    intro v1 hv hzero
    cases hv with
    | same => rfl
    | @new b1 _ _ _ hb1 =>
        have hind := h.indirectBlock_growIndirect hf hb1.free hf
        rw [if_pos rfl, hzero] at hind
        exact absurd hind.symm (h.ne_zero_of_free hb1.free)
  cases hgot with
  | held hv hne =>
      obtain rfl := hnew hv h0
      refine hidx hhi hlt h0 x ?_
      by_cases hk : n / BLKSIZE < NDIRECT
      · rw [holes_succ hk, if_neg hne]
        exact hx
      · rw [holes_of_ge (not_lt.mp hk)]
        rwa [holes_of_ge (by omega)] at hx
  | @new v1 b hv hs hzero hb =>
      have hown := (hv.keeps h hf (hidx.nextBlank hlt)).owned
      rw [hown.indirectBlock_grow hf hs hb.free hf] at h0
      obtain rfl := hnew hv h0
      have hk : n / BLKSIZE < NDIRECT := hs.resolve_right fun hind => hind.2 h0
      have hslot : slotBlk v1.mem f (n / BLKSIZE) = f.blk := if_pos hk
      have hholes : holes (v1.grow f (n / BLKSIZE) b).mem f (n / BLKSIZE + 1) =
          holes v1.mem f (n / BLKSIZE + 1) := by
        refine holes_congr fun i hi => ?_
        rw [h.fileBlock_grow hf hs hb.free hf, if_neg]
        rintro ⟨-, rfl⟩
        omega
      have hfree : ∀ y, FreeIn (v1.grow f (n / BLKSIZE) b).mem y ↔ FreeIn (v1.use b).mem y := fun y => by
        rw [h.freeIn_grow hf hs hb.free, freeIn_use]
      rw [hholes, nthFree_congr hfree, nthFree_use hb] at hx
      have hblank : Blank (v1.mem x) := by
        refine hidx hhi hlt h0 x ?_
        rwa [holes_succ hk, if_pos hzero]
      have hbit : x ≠ bitmapBlock b := by
        have hlo := h.le_of_free hx.free
        have hbm := bitmapBlock_lt hb.free.1
        omega
      have hblk : x ≠ slotBlk v1.mem f (n / BLKSIZE) := by
        rw [hslot]
        exact h.free_ne_blk hf hx.free
      have hsame : (v1.grow f (n / BLKSIZE) b).mem x = v1.mem x := by
        funext y
        exact h.mem_grow hf hb.free hbit fun heq => hblk heq.1
      rwa [hsame]

end

/-! ## The loop -/

section

variable {v v' : View} {F : FilePtr → Prop} {f : FilePtr} {b k m : Nat} {pos stop : Word}
  {copy : Nat → Nat → Nat → FsM Unit} {J : Word → Nat → Prop}

/-- A copy into the block leaves the next ones. -/
theorem IndexBlank.of_block {hi : Nat} (hidx : IndexBlank v.mem f m hi) (h : Owned v.mem F) (hf : F f)
    (hreg : ¬ IsDir v.mem f) (h0 : fileBlock v.mem f k ≠ 0)
    (hother : ∀ x, x ≠ fileBlock v.mem f k → v'.mem x = v.mem x) : IndexBlank v'.mem f m hi := by
  obtain ⟨-, -, hfree, hmeta⟩ := keeps_of_block h hf hreg h0 hother
  intro hhi hlt hzero x hx
  rw [indirectBlock_congr hmeta hf] at hzero
  rw [holes_congr fun i _ => fileBlock_congr hmeta hf, nthFree_congr hfree] at hx
  have hne : x ≠ fileBlock v.mem f k := by
    rintro rfl
    exact h.used (.data f k) hf h0 hx.free
  rw [hother x hne]
  exact hidx hhi hlt hzero x hx

theorem toNat_sdiv_page (h : pos.toNat < 2 ^ 31) : (pos.sdiv 4096).toNat = pos.toNat / BLKSIZE := by
  rw [sdiv_page h, BitVec.toNat_ofNat, Nat.mod_eq_of_lt]
  unfold BLKSIZE
  omega

/-- At a negative position: the first block, or none. -/
theorem toNat_sdiv_page_neg (h : 2 ^ 31 ≤ pos.toNat) :
    (pos.sdiv 4096).toNat = 0 ∨ NDIRECT + NINDIRECT ≤ (pos.sdiv 4096).toNat := by
  have hint := BitVec.toInt_eq_toNat_cond pos
  have hlt := pos.isLt
  by_cases hsmall : pos.toInt ≤ -4096
  · exact .inr (toNat_sdiv_page_of_le hsmall)
  · left
    have hdiv : (pos.sdiv 4096).toInt = pos.toInt.tdiv 4096 :=
      BitVec.toInt_sdiv_of_ne_or_ne pos 4096 (.inr (by decide))
    have hzero : pos.toInt.tdiv 4096 = 0 := by
      have hneg : (-pos.toInt).tdiv 4096 = 0 := by
        rw [Int.tdiv_eq_ediv_of_nonneg (by omega)]
        omega
      rw [Int.neg_tdiv] at hneg
      omega
    have hcond := BitVec.toInt_eq_toNat_cond (pos.sdiv 4096)
    have hlt' := (pos.sdiv 4096).isLt
    omega

/-- What a turn needs of the next block, wherever the position is. -/
theorem nextBlank_of_pos (hlt : pos < stop)
    (hidx : pos.toNat < 2 ^ 31 → IndexBlank v.mem f pos.toNat stop.toNat) :
    NextBlank v.mem f (pos.sdiv 4096).toNat := by
  by_cases hpos : pos.toNat < 2 ^ 31
  · rw [toNat_sdiv_page hpos]
    exact (hidx hpos).nextBlank (BitVec.lt_def.mp hlt)
  · intro hlo hhi
    have hten : NDIRECT = 10 := rfl
    rcases toNat_sdiv_page_neg (not_lt.mp hpos) with h0 | hge <;> omega

/-- A chunk ends at the end of its block or of the transfer. -/
theorem chunk_end {n s : Nat} (hlt : n < s) :
    (n + chunk n s) / BLKSIZE = n / BLKSIZE + 1 ∨ n + chunk n s = s := by
  unfold chunk BLKSIZE
  omega

/-- The loop over a regular file, when every copy stays in the block it is given; `J` says where the
loop stands. -/
theorem transfer_advances {fuel buf : Nat} {r : Except Int Unit}
    (hrun : (transfer copy f stop fuel pos buf).run onView v = (.ok r, v'))
    (hcopy : ∀ v v' pos buf b, J pos buf → pos < stop → b < DISKSIZE / BLKSIZE →
      (copy (blkAddr b (pos.srem 4096).toInt) buf (chunkLen pos stop).toNat).run onView v = (.ok (), v') →
      ∀ x, x ≠ b → v'.mem x = v.mem x)
    (hstep : ∀ pos buf, J pos buf → pos < stop →
      J (pos + chunkLen pos stop) (buf + (chunkLen pos stop).toNat))
    (h : Sound F v.mem) (hs : Filled F v.mem) (hf : F f) (hreg : ¬ IsDir v.mem f)
    (hidx : pos.toNat < 2 ^ 31 → IndexBlank v.mem f pos.toNat stop.toNat) (hJ : J pos buf) :
    Advances F v.mem v'.mem := by
  induction fuel generalizing pos buf v with
  | zero =>
      cases hrun
      exact .refl h hs
  | succ fuel ih =>
      rw [transfer, run_ite] at hrun
      split at hrun
      swap
      · cases hrun
        exact .refl h hs
      rename_i hlt
      obtain ⟨blk, v1, hget, hrun⟩ := Prog.bind_ok hrun
      have hblank := nextBlank_of_pos hlt hidx
      have hgot := gotBlock_of_run h.owned hf hblank hget
      obtain ⟨hkeeps, hblk⟩ := hgot.keeps h.owned hf hblank (.inl hreg)
      have hadv := hkeeps.advances h hs
      cases blk with
      | error e =>
          cases hrun
          exact hadv
      | ok b =>
          obtain ⟨hb, h0⟩ := hblk b rfl
          simp only at hrun
          obtain ⟨_, v2, hmove, hrun⟩ := Prog.bind_ok hrun
          have hown := hkeeps.owned
          have hreg1 := mt (hkeeps.isDir_iff hf).mp hreg
          have h0' : fileBlock v1.mem f (pos.sdiv 4096).toNat ≠ 0 := hb ▸ h0
          have hother : ∀ x, x ≠ fileBlock v1.mem f (pos.sdiv 4096).toNat → v2.mem x = v1.mem x :=
            hb ▸ hcopy v1 v2 pos buf b hJ hlt (hb ▸ hown.block_lt hf h0') hmove
          obtain ⟨hkeeps2, -⟩ := keeps_of_block hown hf hreg1 h0' hother
          have hadv2 := hadv.trans (hkeeps2.advances hadv.sound hadv.filled)
          refine hadv2.trans (ih hrun hadv2.sound hadv2.filled (mt (hkeeps2.isDir_iff hf).mp hreg1)
            (fun hsmall => ?_) (hstep pos buf hJ hlt))
          have hsum := add_chunkLen hlt
          have hpos : pos.toNat < 2 ^ 31 := by omega
          have hnat := BitVec.lt_def.mp hlt
          rw [toNat_sdiv_page hpos] at hgot
          rw [hsum, chunkLen_page hpos hlt]
          exact ((hidx hpos).next h.owned hf hnat hgot (chunk_end hnat)).of_block hown hf hreg1 h0' hother

/-- The loop over blocks that are there, when no copy touches the disk. -/
theorem transfer_same {fuel buf : Nat} {r : Except Int Unit}
    (hrun : (transfer copy f stop fuel pos buf).run onView v = (.ok r, v'))
    (hcopy : ∀ v v' pos buf b, J pos buf → pos < stop →
      (copy (blkAddr b (pos.srem 4096).toInt) buf (chunkLen pos stop).toNat).run onView v = (.ok (), v') →
      v'.mem = v.mem)
    (hstep : ∀ pos buf, J pos buf → pos < stop →
      J (pos + chunkLen pos stop) (buf + (chunkLen pos stop).toNat))
    (h : Owned v.mem F) (hf : F f)
    (hall : ∀ p buf, J p buf → p < stop → NDIRECT + NINDIRECT ≤ (p.sdiv 4096).toNat ∨
      fileBlock v.mem f (p.sdiv 4096).toNat ≠ 0) (hJ : J pos buf) : v'.mem = v.mem := by
  induction fuel generalizing pos buf v with
  | zero =>
      cases hrun
      rfl
  | succ fuel ih =>
      rw [transfer, run_ite] at hrun
      split at hrun
      swap
      · cases hrun
        rfl
      rename_i hlt
      obtain ⟨blk, v1, hget, hrun⟩ := Prog.bind_ok hrun
      have hpresent := hall pos buf hJ hlt
      have hblank : NextBlank v.mem f (pos.sdiv 4096).toNat := by
        intro hlo hhi hzero
        rcases hpresent with hge | h0
        · exact absurd hge hhi.not_ge
        · exact nextBlank_of_ne_zero h0 hlo hhi hzero
      have hgot := gotBlock_of_run h hf hblank hget
      obtain rfl : v1 = v := by
        rcases hpresent with hge | h0
        · exact hgot.eq_of_ge hge
        · exact (hgot.eq_of_ne_zero h0).1
      cases blk with
      | error e =>
          cases hrun
          rfl
      | ok b =>
          simp only at hrun
          obtain ⟨_, v2, hmove, hrun⟩ := Prog.bind_ok hrun
          have hsame := hcopy v1 v2 pos buf b hJ hlt hmove
          exact (ih hrun (hsame ▸ h) (hsame ▸ hall) (hstep pos buf hJ hlt)).trans hsame

end

end SisOp.Fs
