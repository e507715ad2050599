/-
# `SisOp.Server.Content` — the bytes of a file

`fileByte` is a byte of a file, in the block its slot holds.  The loop of `file_read`
and `file_write` goes through a range a chunk at a time, `transfer_rule` is its rule: an
invariant of the position that every chunk keeps.  With it, reading allocated blocks
copies their bytes (`run_transfer_read`), and writing changes the bytes it has passed
and nothing else (`Writing`, `run_transfer_write`).
-/
import SisOp.Server.Slots
import SisOp.Server.InFile

namespace SisOp.Fs

open SisOp.Lib SisOp.Jos

/-! ## Bytes of a block -/

/-- Byte `p` of `f`; of block 0 where `f` has no block. -/
def fileByte (mem : Nat → Block) (f : FilePtr) (p : Nat) : Byte :=
  byteOf (mem (fileBlock mem f (p / BLKSIZE)) (p % BLKSIZE / 4)) (p % BLKSIZE % 4)

/-- Word `i` of block `b` belongs to the `File`. -/
def InStruct (f : FilePtr) (b i : Nat) : Prop := b = f.blk ∧ f.idx ≤ i ∧ i < f.idx + 64

section

variable {v : View} {mem : Nat → Block} {F : FilePtr → Prop} {f g : FilePtr} {b b' o o' i k n p va : Nat}
  {bs : List Byte}

theorem View.getD_bytes (hi : i < n) : (v.bytes va n).getD i 0 = v.byteAt (va + i) := by
  simp [View.bytes, List.getD_eq_getElem?_getD, List.getElem?_range hi]

theorem byteAt_disk (hb : b < DISKSIZE / BLKSIZE) (ho : o < BLKSIZE) :
    v.byteAt (diskVa b o) = byteOf (v.mem b (o / 4)) (o % 4) := by
  have hmod : diskVa b o % 4 = o % 4 := by
    unfold diskVa DISKMAP BLKSIZE
    omega
  rw [View.byteAt_of_cell (cellOf_diskVa hb ho), hmod]
  rfl

theorem diskVa_inj (ho : o < BLKSIZE) (ho' : o' < BLKSIZE) (h : diskVa b o = diskVa b' o') :
    b = b' ∧ o = o' := by
  unfold diskVa BLKSIZE at *
  omega

theorem diskVa_add (b o i : Nat) : diskVa b o + i = diskVa b (o + i) := Nat.add_assoc _ _ _

theorem mapped_diskVa (hb : b < DISKSIZE / BLKSIZE) (ho : o < BLKSIZE) : Mapped (diskVa b o) :=
  cellOf_isSome.mp (by rw [cellOf_diskVa hb ho]; rfl)

theorem Owned.block_lt (h : Owned mem F) (hf : F f) (h0 : fileBlock mem f k ≠ 0) :
    fileBlock mem f k < DISKSIZE / BLKSIZE :=
  (h.range (.data f k) hf h0).2.trans_le h.disk

theorem Owned.fileByte_eq (h : Owned v.mem F) (hf : F f) (h0 : fileBlock v.mem f (p / BLKSIZE) ≠ 0) :
    fileByte v.mem f p = v.byteAt (diskVa (fileBlock v.mem f (p / BLKSIZE)) (p % BLKSIZE)) :=
  (byteAt_disk (h.block_lt hf h0) (Nat.mod_lt _ (by decide))).symm

theorem range_of_block (h0 : fileBlock mem f k ≠ 0) : k < NDIRECT + NINDIRECT := by
  rcases hasSlot_of_ne_zero h0 with hk | ⟨hk, -⟩
  · exact hk.trans_le (Nat.le_add_right _ _)
  · exact hk

theorem direct_of_block {v : View} (h0 : fileBlock v.mem f k ≠ 0) :
    k < NDIRECT ∨ v.get f.fIndirect ≠ 0 ∨ NDIRECT + NINDIRECT ≤ k := by
  refine (hasSlot_of_ne_zero h0).imp_right fun hk => .inl fun hzero => hk.2 ?_
  exact congrArg BitVec.toNat hzero

/-- A copy to the program's own memory leaves the disk. -/
theorem mem_setBytes_private (h : ∀ i, i < bs.length → Private (va + i)) :
    (v.setBytes va bs).mem = v.mem := by
  funext b i
  exact View.get_setBytes (c := .disk b i) fun j hj hc => (h j hj).cell hc b i rfl

/-- A copy into block `b` leaves the other blocks. -/
theorem mem_setBytes_disk (hb : b < DISKSIZE / BLKSIZE) (ho : o + bs.length ≤ BLKSIZE) (hne : b' ≠ b) :
    (v.setBytes (diskVa b o) bs).mem b' = v.mem b' := by
  funext i
  refine View.get_setBytes (c := .disk b' i) fun j hj hc => hne ?_
  rw [diskVa_add, cellOf_diskVa hb (by omega)] at hc
  exact (Cell.disk.inj (Option.some.inj hc)).1.symm

end

/-! ## Positions -/

/-- The length of the chunk at position `n`. -/
def chunk (n stop : Nat) : Nat := min (BLKSIZE - n % BLKSIZE) (stop - n)

section

variable {pos stop : Word} {n s i : Nat}

theorem chunk_pos (h : n < s) : 0 < chunk n s := by
  unfold chunk BLKSIZE
  omega

theorem add_chunk_le (h : n ≤ s) : n + chunk n s ≤ s := by
  unfold chunk
  omega

/-- A chunk lies in one block. -/
theorem chunk_block (hi : i < chunk n s) :
    (n + i) / BLKSIZE = n / BLKSIZE ∧ (n + i) % BLKSIZE = n % BLKSIZE + i := by
  unfold chunk BLKSIZE at *
  omega

theorem chunk_fits (n s : Nat) : n % BLKSIZE + chunk n s ≤ BLKSIZE := by
  unfold chunk BLKSIZE
  omega

theorem toInt_of_lt (h : pos.toNat < 2 ^ 31) : pos.toInt = pos.toNat :=
  BitVec.toInt_eq_toNat_of_lt (by omega)

theorem sdiv_page (h : pos.toNat < 2 ^ 31) : pos.sdiv 4096 = BitVec.ofNat 32 (pos.toNat / BLKSIZE) := by
  have hint := toInt_of_lt h
  refine BitVec.eq_of_toInt_eq ?_
  unfold BLKSIZE
  rw [BitVec.toInt_sdiv_of_ne_or_ne pos 4096 (.inr (by decide)), hint,
    show (4096 : Word).toInt = 4096 from rfl, Int.tdiv_eq_ediv_of_nonneg (by omega),
    BitVec.toInt_eq_toNat_of_lt (by rw [BitVec.toNat_ofNat]; omega), BitVec.toNat_ofNat]
  omega

theorem blkAddr_page (h : pos.toNat < 2 ^ 31) (b : Nat) :
    blkAddr b (pos.srem 4096).toInt = diskVa b (pos.toNat % BLKSIZE) := by
  have hpos : 0 ≤ pos.toInt := by
    rw [toInt_of_lt h]
    omega
  have hsrem := (room_of_nonneg hpos).1
  rw [hsrem, blkAddr_of_nonneg (by omega)]
  rfl

theorem chunkLen_page (h : pos.toNat < 2 ^ 31) (hlt : pos < stop) :
    (chunkLen pos stop).toNat = chunk pos.toNat stop.toNat := by
  rw [toNat_chunkLen hlt, (room_of_nonneg (by rw [toInt_of_lt h]; omega)).2]
  rfl

end

/-! ## The loop -/

section

variable {copy : Nat → Nat → Nat → FsM Unit} {f : FilePtr} {stop pos : Word} {fuel n0 buf : Nat}
  {v : View} {P : Cmd → Prop}

/-- One turn at position `n`: no block, or a block and a chunk copied.  What then holds may depend
on what the turn has touched. -/
inductive Turn (P : Cmd → Prop) (copy : Nat → Nat → Nat → FsM Unit) (f : FilePtr) (n s buf : Nat)
    (v : View) (Inv : View → Prop) (Fails : Int → View → Prop) : Prop
  | error {e : Int} {v' : View}
      (hget : (fileGetBlock f (BitVec.ofNat 32 (n / BLKSIZE))).run onView v = (.ok (.error e), v'))
      (h : Fails e v')
  | copied {b : Nat} {v' v'' : View}
      (hget : (fileGetBlock f (BitVec.ofNat 32 (n / BLKSIZE))).run onView v = (.ok (.ok b), v'))
      (hcopy : (copy (diskVa b (n % BLKSIZE)) buf (chunk n s)).run onView v' = (.ok (), v''))
      (h : Prog.Covered onView P (fileGetBlock f (BitVec.ofNat 32 (n / BLKSIZE))) v →
        Prog.Covered onView P (copy (diskVa b (n % BLKSIZE)) buf (chunk n s)) v' → Inv v'')

/-- The end of the loop. -/
inductive Done (p : FsM (Except Int Unit)) (n0 s : Nat) (v : View) (Inv : Nat → View → Prop)
    (Fails : Nat → Int → View → Prop) : Prop
  | ok {v' : View} (hrun : p.run onView v = (.ok (.ok ()), v')) (h : Inv s v')
  | error {e : Int} {n : Nat} {v' : View} (hrun : p.run onView v = (.ok (.error e), v')) (hlo : n0 ≤ n)
      (hhi : n < s) (h : Fails n e v')

theorem transfer_error {e : Int} {v' : View} (hsmall : pos.toNat < 2 ^ 31) (hlt : pos < stop)
    (hget : (fileGetBlock f (BitVec.ofNat 32 (pos.toNat / BLKSIZE))).run onView v = (.ok (.error e), v')) :
    (transfer copy f stop (fuel + 1) pos buf).run onView v = (.ok (.error e), v') := by
  rw [transfer, if_pos hlt, sdiv_page hsmall, Prog.run_bind_ok hget]
  rfl

section

variable (fuel : Nat) {b : Nat} {v' v'' : View} (hsmall : pos.toNat < 2 ^ 31) (hlt : pos < stop)
  (hget : (fileGetBlock f (BitVec.ofNat 32 (pos.toNat / BLKSIZE))).run onView v = (.ok (.ok b), v'))
  (hcopy : (copy (diskVa b (pos.toNat % BLKSIZE)) buf (chunk pos.toNat stop.toNat)).run onView v' =
    (.ok (), v''))

include hsmall hlt hget hcopy

theorem transfer_copied : (transfer copy f stop (fuel + 1) pos buf).run onView v =
    (transfer copy f stop fuel (pos + chunkLen pos stop) (buf + chunk pos.toNat stop.toNat)).run
      onView v'' := by
  rw [transfer, if_pos hlt, sdiv_page hsmall, Prog.run_bind_ok hget]
  simp only
  rw [blkAddr_page hsmall, chunkLen_page hsmall hlt, Prog.run_bind_ok hcopy]

theorem covered_copied (hcov : Prog.Covered onView P (transfer copy f stop (fuel + 1) pos buf) v) :
    Prog.Covered onView P (fileGetBlock f (BitVec.ofNat 32 (pos.toNat / BLKSIZE))) v ∧
      Prog.Covered onView P
        (copy (diskVa b (pos.toNat % BLKSIZE)) buf (chunk pos.toNat stop.toNat)) v' ∧
      Prog.Covered onView P (transfer copy f stop fuel (pos + chunkLen pos stop)
        (buf + chunk pos.toNat stop.toNat)) v'' := by
  rw [transfer, if_pos hlt, sdiv_page hsmall, Prog.covered_bind] at hcov
  obtain ⟨hblk, hrest⟩ := hcov
  have hturn := hrest _ _ hget
  simp only at hturn
  rw [blkAddr_page hsmall, chunkLen_page hsmall hlt, Prog.covered_bind] at hturn
  exact ⟨hblk, hturn.1, hturn.2 _ _ hcopy⟩

end

theorem next_toNat (hsmall : pos.toNat < 2 ^ 31) (hlt : pos < stop) :
    (pos + chunkLen pos stop).toNat = pos.toNat + chunk pos.toNat stop.toNat := by
  rw [add_chunkLen hlt, chunkLen_page hsmall hlt]

/-- The rule of the loop: an invariant of the position, kept by every turn. -/
theorem transfer_rule (Inv : Nat → View → Prop) (Fails : Nat → Int → View → Prop)
    (hstep : ∀ n v, n0 ≤ n → n < stop.toNat → Inv n v → n < 2 ^ 31 ∧
      Turn P copy f n stop.toNat (buf + (n - n0)) v (Inv (n + chunk n stop.toNat)) (Fails n))
    (hlo : n0 ≤ pos.toNat) (hhi : pos.toNat ≤ stop.toNat) (hfuel : stop.toNat - pos.toNat ≤ fuel)
    (hcov : Prog.Covered onView P (transfer copy f stop fuel pos (buf + (pos.toNat - n0))) v)
    (hinv : Inv pos.toNat v) :
    Done (transfer copy f stop fuel pos (buf + (pos.toNat - n0))) n0 stop.toNat v Inv Fails := by
  induction fuel generalizing pos v with
  | zero =>
      have heq : pos.toNat = stop.toNat := by omega
      exact .ok rfl (heq ▸ hinv)
  | succ fuel ih =>
      by_cases hlt : pos < stop
      · have hlt' := BitVec.lt_def.mp hlt
        obtain ⟨hsmall, hturn⟩ := hstep _ v hlo hlt' hinv
        cases hturn with
        | error hget h => exact .error (transfer_error hsmall hlt hget) hlo hlt' h
        | @copied b v' v'' hget hcopy h =>
            have hpos := chunk_pos hlt'
            have hle := add_chunk_le hlt'.le
            have hnext := next_toNat hsmall hlt
            obtain ⟨hblk, hcpy, hrest⟩ := covered_copied fuel hsmall hlt hget hcopy hcov
            have hrun := transfer_copied fuel hsmall hlt hget hcopy
            have hbuf : buf + (pos.toNat - n0) + chunk pos.toNat stop.toNat =
                buf + ((pos + chunkLen pos stop).toNat - n0) := by omega
            rw [hbuf] at hrun hrest
            have hinv' := h hblk hcpy
            rw [← hnext] at hinv'
            cases ih (by omega) (by omega) (by omega) hrest hinv' with
            | ok hrest h => exact .ok (hrun.trans hrest) h
            | error hrest hlo' hhi' h => exact .error (hrun.trans hrest) hlo' hhi' h
      · have heq : pos.toNat = stop.toNat := by
          have := BitVec.le_def.mp (BitVec.not_lt.mp hlt)
          omega
        rw [transfer, if_neg hlt]
        exact .ok rfl (heq ▸ hinv)

/-- The same for what the loop touches. -/
theorem covered_transfer (Inv : Nat → View → Prop)
    (hstep : ∀ n v, n0 ≤ n → n < stop.toNat → Inv n v → n < 2 ^ 31 ∧
      Prog.Covered onView P (fileGetBlock f (BitVec.ofNat 32 (n / BLKSIZE))) v ∧
      ∀ b v', (fileGetBlock f (BitVec.ofNat 32 (n / BLKSIZE))).run onView v = (.ok (.ok b), v') →
        Prog.Covered onView P
          (copy (diskVa b (n % BLKSIZE)) (buf + (n - n0)) (chunk n stop.toNat)) v' ∧
        ∀ v'', (copy (diskVa b (n % BLKSIZE)) (buf + (n - n0)) (chunk n stop.toNat)).run onView v' =
          (.ok (), v'') → Inv (n + chunk n stop.toNat) v'')
    (hlo : n0 ≤ pos.toNat) (hhi : pos.toNat ≤ stop.toNat) (hinv : Inv pos.toNat v) :
    Prog.Covered onView P (transfer copy f stop fuel pos (buf + (pos.toNat - n0))) v := by
  induction fuel generalizing pos v with
  | zero => trivial
  | succ fuel ih =>
      by_cases hlt : pos < stop
      · have hlt' := BitVec.lt_def.mp hlt
        obtain ⟨hsmall, hblk, hturn⟩ := hstep _ v hlo hlt' hinv
        have hpos := chunk_pos hlt'
        have hle := add_chunk_le hlt'.le
        have hnext := next_toNat hsmall hlt
        rw [transfer, if_pos hlt, sdiv_page hsmall, Prog.covered_bind]
        refine ⟨hblk, fun r v' hget => ?_⟩
        cases r with
        | error e => exact Prog.covered_pure _
        | ok b =>
            obtain ⟨hcpy, hrest⟩ := hturn b v' hget
            simp only
            rw [blkAddr_page hsmall, chunkLen_page hsmall hlt, Prog.covered_bind]
            refine ⟨hcpy, fun _ v'' hcopy => ?_⟩
            have hbuf : buf + (pos.toNat - n0) + chunk pos.toNat stop.toNat =
                buf + ((pos + chunkLen pos stop).toNat - n0) := by omega
            have hinv' := hrest v'' hcopy
            rw [← hnext] at hinv'
            rw [hbuf]
            exact ih (by omega) (by omega) hinv'
      · rw [transfer, if_neg hlt]
        exact Prog.covered_pure _

end

/-! ## Reading -/

/-- Bytes `n0` to `n` of `f` have been copied to `buf`. -/
structure Copied (f : FilePtr) (n0 buf : Nat) (v0 : View) (n : Nat) (v : View) : Prop where
  mem : v.mem = v0.mem
  byteAt : ∀ va, v.byteAt va =
    if buf ≤ va ∧ va < buf + (n - n0) then fileByte v0.mem f (n0 + (va - buf)) else v0.byteAt va

section

variable {v v0 : View} {F : FilePtr → Prop} {f : FilePtr} {stop pos count offset : Word}
  {fuel n0 n s buf : Nat}

theorem Copied.refl (f : FilePtr) (n0 buf : Nat) (v : View) : Copied f n0 buf v n0 v :=
  ⟨rfl, fun va => by rw [if_neg (by omega)]⟩

/-- A chunk more. -/
theorem Copied.step (hv : Copied f n0 buf v0 n v) (h : Owned v0.mem F) (hf : F f) (hn : n0 ≤ n)
    (h0 : fileBlock v0.mem f (n / BLKSIZE) ≠ 0)
    (hbuf : ∀ i, i < chunk n s → Private (buf + (n - n0) + i)) :
    ∃ v', (memmove (buf + (n - n0)) (diskVa (fileBlock v0.mem f (n / BLKSIZE)) (n % BLKSIZE))
      (chunk n s)).run onView v = (.ok (), v') ∧ Copied f n0 buf v0 (n + chunk n s) v' := by
  have hblk := h.block_lt hf h0
  have hfits := chunk_fits n s
  have hsrc : ∀ i, i < chunk n s →
      Mapped (diskVa (fileBlock v0.mem f (n / BLKSIZE)) (n % BLKSIZE) + i) := fun i hi => by
    rw [diskVa_add]
    exact mapped_diskVa hblk (by omega)
  refine ⟨_, run_memmove hsrc fun i hi => (hbuf i hi).mapped, ?_, fun va => ?_⟩
  · rw [mem_setBytes_private (by simpa using hbuf), View.noted_mem, hv.mem]
  · rw [View.byteAt_setBytes (by simpa using fun i hi => (hbuf i hi).mapped), View.length_bytes,
      View.noted_byteAt, hv.byteAt]
    by_cases hnew : buf + (n - n0) ≤ va ∧ va < buf + (n - n0) + chunk n s
    · obtain ⟨hb, hm⟩ := chunk_block (n := n) (s := s) (i := va - (buf + (n - n0))) (by omega)
      have hbyte : n + (va - (buf + (n - n0))) = n0 + (va - buf) := by omega
      rw [if_pos hnew, if_pos (by omega), View.getD_bytes (by omega), diskVa_add,
        byteAt_disk hblk (by omega), hv.mem, ← hb, ← hm, ← hbyte]
      rfl
    · rw [if_neg hnew]
      by_cases hold : buf ≤ va ∧ va < buf + (n - n0)
      · rw [if_pos hold, if_pos (by omega)]
      · rw [if_neg hold, if_neg (by omega)]

theorem run_transfer_read (h : Owned v.mem F) (hf : F f) (hle : pos.toNat ≤ stop.toNat)
    (hfuel : stop.toNat - pos.toNat ≤ fuel)
    (hall : ∀ p, pos.toNat ≤ p → p < stop.toNat → fileBlock v.mem f (p / BLKSIZE) ≠ 0)
    (hbuf : ∀ i, i < stop.toNat - pos.toNat → Private (buf + i)) :
    ∃ v', (transfer (fun blk buf n => memmove buf blk n) f stop fuel pos buf).run onView v =
      (.ok (.ok ()), v') ∧ Copied f pos.toNat buf v stop.toNat v' := by
  have hrule : Done (transfer (fun blk buf n => memmove buf blk n) f stop fuel pos
      (buf + (pos.toNat - pos.toNat))) pos.toNat stop.toNat v (Copied f pos.toNat buf v)
      fun _ _ _ => False := by
    refine transfer_rule (P := fun _ => True) _ _ (fun n w hlo hhi hw => ?_) le_rfl hle hfuel
      (Prog.covered_of_all (fun _ => trivial) _ v) (.refl f pos.toNat buf v)
    have h0 := hall n hlo hhi
    have hrange := range_of_block h0
    have hval : NDIRECT + NINDIRECT = 1034 := rfl
    have hsmall : n < 2 ^ 31 := by
      unfold BLKSIZE at hrange
      omega
    have hk : (BitVec.ofNat 32 (n / BLKSIZE)).toNat = n / BLKSIZE := by
      rw [BitVec.toNat_ofNat, Nat.mod_eq_of_lt (by omega)]
    have hmem := hw.mem
    have how : Owned w.mem F := hmem ▸ h
    have h0w : fileBlock w.mem f (n / BLKSIZE) ≠ 0 := hmem ▸ h0
    have hget : (fileGetBlock f (BitVec.ofNat 32 (n / BLKSIZE))).run onView w = _ :=
      how.run_fileGetBlock hf (hk.symm ▸ direct_of_block h0w)
    rw [hk, if_neg (by omega), if_pos h0w, hmem] at hget
    have hadd := add_chunk_le hhi.le
    obtain ⟨w', hcopy, hw'⟩ := hw.step h hf hlo h0 (s := stop.toNat) fun i hi => by
      rw [Nat.add_assoc]
      exact hbuf _ (by omega)
    exact ⟨hsmall, .copied hget hcopy fun _ _ => hw'⟩
  rw [Nat.sub_self, Nat.add_zero] at hrule
  cases hrule with
  | ok hrun hw => exact ⟨_, hrun, hw⟩
  | error _ _ _ hfalse => exact hfalse.elim

/-- `file_read` within the size of the file, of blocks it has. -/
theorem run_fileRead_view (h : Owned v.mem F) (hf : F f)
    (hsize : offset.toNat + count.toNat ≤ (fileSize v.mem f).toNat)
    (hint : (fileSize v.mem f).toNat < 2 ^ 31)
    (hall : ∀ p, offset.toNat ≤ p → p < offset.toNat + count.toNat → fileBlock v.mem f (p / BLKSIZE) ≠ 0)
    (hbuf : ∀ i, i < count.toNat → Private (buf + i)) :
    ∃ v', (fileRead f buf count offset).run onView v = (.ok count.toInt, v') ∧
      Copied f offset.toNat buf v (offset.toNat + count.toNat) v' := by
  have hload : (load f.fSize).run onView v = (.ok (fileSize v.mem f), v) := run_load f.fSize v
  unfold fileRead
  rw [Prog.run_bind_ok hload, run_ite]
  have hsle : (fileSize v.mem f).sle offset = true ↔ (fileSize v.mem f).toNat ≤ offset.toNat := by
    rw [BitVec.sle_iff_toInt_le, toInt_of_lt hint, toInt_of_lt (by omega)]
    omega
  by_cases hend : (fileSize v.mem f).toNat ≤ offset.toNat
  · have hzero : count = 0 := BitVec.eq_of_toNat_eq (show count.toNat = 0 by omega)
    refine ⟨v, ?_, ?_⟩
    · rw [if_pos (hsle.mpr hend), hzero]
      rfl
    · rw [hzero]
      exact .refl f offset.toNat buf v
  · have hle : offset ≤ fileSize v.mem f := BitVec.le_def.mpr (by omega)
    have hmin : minWord count (fileSize v.mem f - offset) = count := by
      unfold minWord
      refine if_pos (BitVec.le_def.mpr ?_)
      rw [BitVec.toNat_sub_of_le hle]
      omega
    have hstop : (offset + count).toNat = offset.toNat + count.toNat := by
      rw [BitVec.toNat_add, Nat.mod_eq_of_lt (by omega)]
    obtain ⟨v', hrun, hv'⟩ : ∃ v', (transfer (fun blk buf n => memmove buf blk n) f (offset + count)
        ((offset + count).toNat - offset.toNat) offset buf).run onView v = (.ok (.ok ()), v') ∧
        Copied f offset.toNat buf v (offset + count).toNat v' :=
      run_transfer_read h hf (by omega) le_rfl (fun p hlo hhi => hall p hlo (by omega))
        fun i hi => hbuf i (by omega)
    refine ⟨v', ?_, hstop ▸ hv'⟩
    rw [if_neg (mt hsle.mp hend), Prog.run_bind_ok hload]
    simp only [hmin]
    rw [Prog.run_bind_ok hrun]
    rfl

end

end SisOp.Fs
