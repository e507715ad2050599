/-
# `SisOp.Server.InFile` — transfers stay in the opened file

`fd_offset` lies in a page the client writes to, so it can be any word.  What a
transfer of at most a block does with it: nothing, if offset and count wrap around;
one chunk before the first block of the file, if the offset is a little negative; and
otherwise one or two chunks of the file's own blocks (`moveAll_onlyIn`).
-/
import SisOp.Server.Buffers
import SisOp.Server.Blocks

namespace SisOp.Fs

open SisOp.Lib SisOp.Jos

/-! ## Blocks of a file -/

/-- Block `b` is one of the blocks of `f`. -/
def Belongs (mem : Nat → Block) (f : FilePtr) (b : Nat) : Prop :=
  b ≠ 0 ∧ ((∃ k < NDIRECT, (mem f.blk (f.idx + (34 + k))).toNat = b) ∨
    mem f.blk (f.idx + 44) ≠ 0 ∧
      ∃ k < NINDIRECT, (mem (mem f.blk (f.idx + 44)).toNat k).toNat = b)

/-- The `File` does not lie in the bitmap. -/
def OffBitmap (mem : Nat → Block) (f : FilePtr) : Prop := ∀ b < nblocks mem, bitmapBlock b ≠ f.blk

section

variable {v v' : View} {f : FilePtr} {k b : Nat}

theorem belongs_direct (hk : k < NDIRECT) (hb : (v.get (f.fDirect k)).toNat = b) (h0 : b ≠ 0) :
    Belongs v.mem f b := ⟨h0, .inl ⟨k, hk, hb⟩⟩

theorem belongs_indirect (hk : NDIRECT ≤ k) (hk' : k < NDIRECT + NINDIRECT)
    (hi : v.get f.fIndirect ≠ 0)
    (hb : (v.get (.disk (v.get f.fIndirect).toNat (k - NDIRECT))).toNat = b) (h0 : b ≠ 0) :
    Belongs v.mem f b :=
  ⟨h0, .inr ⟨hi, k - NDIRECT, by omega, hb⟩⟩

/-- Marking a block in use leaves `f_indirect`. -/
theorem get_fIndirect_use (hf : OffBitmap v.mem f) (hb : FreeIn v.mem b) :
    (v.use b).get f.fIndirect = v.get f.fIndirect :=
  View.get_set_of_ne _ _ fun h => hf b hb.1 (Cell.disk.inj h).1.symm

/-- What `file_get_block` gives belongs to the file. -/
theorem BlockOf.belongs (h : BlockOf v f k (.ok b) v') (hf : OffBitmap v.mem f) :
    Belongs v'.mem f b := by
  cases h with
  | held hslot h0 hlt =>
      have hne := toNat_ne_zero h0
      cases hslot with
      | direct hk => exact belongs_direct hk rfl hne
      | indirect hk hk' hi _ => exact belongs_indirect hk hk' hi rfl hne
      | newIndirect b0 hk hk' _ hb _ _ =>
          have hfree := firstFree_some hb
          refine belongs_indirect hk hk' ?_ ?_ hne
          · rw [View.get_set_self]
            exact ofNat_ne_zero_of_free hfree ‹_›
          · rw [View.get_set_self, toNat_ofNat_of_free hfree]
  | @new slot v1 b hslot h0 hb hb0 =>
      have hfree := firstFree_some hb
      cases hslot with
      | direct hk =>
          refine belongs_direct hk ?_ hb0
          rw [View.get_set_self, toNat_ofNat_of_free hfree]
      | indirect hk hk' hi _ =>
          have hkeep : ((v.use b).set (.disk (v.get f.fIndirect).toNat (k - NDIRECT))
              (BitVec.ofNat 32 b)).get f.fIndirect = v.get f.fIndirect := by
            rw [View.get_set_of_ne _ _ fun h => hi (by rw [h]; exact h0), get_fIndirect_use hf hfree]
          refine belongs_indirect hk hk' ?_ ?_ hb0
          · rwa [hkeep]
          · rw [hkeep, View.get_set_self, toNat_ofNat_of_free hfree]
      | newIndirect b1 hk hk' hi hb1 hb10 _ =>
          have hfree1 := firstFree_some hb1
          have hne1 := ofNat_ne_zero_of_free hfree1 hb10
          have hf1 : OffBitmap ((v.use b1).set f.fIndirect (BitVec.ofNat 32 b1)).mem f := by
            unfold OffBitmap
            rw [nblocks_set (fIndirect_ne_sNblocks f), nblocks_use]
            exact hf
          have hkeep : ((((v.use b1).set f.fIndirect (BitVec.ofNat 32 b1)).use b).set
              (.disk b1 (k - NDIRECT)) (BitVec.ofNat 32 b)).get f.fIndirect = BitVec.ofNat 32 b1 := by
            rw [View.get_set_of_ne, get_fIndirect_use hf1 hfree, View.get_set_self]
            intro h
            rw [← h, View.get_set_self] at h0
            exact hne1 h0
          refine belongs_indirect hk hk' ?_ ?_ hb0
          · rwa [hkeep]
          · rw [hkeep, toNat_ofNat_of_free hfree1, View.get_set_self, toNat_ofNat_of_free hfree]

theorem SlotOf.error_neg {alloc : Bool} {r : Int} (h : SlotOf v f k alloc (.error r) v') : r < 0 := by
  cases h <;> decide

theorem BlockOf.error_neg {r : Int} (h : BlockOf v f k (.error r) v') : r < 0 := by
  cases h with
  | error hslot => exact hslot.error_neg
  | full _ _ _ => decide

theorem BlockOf.range (h : BlockOf v f k (.ok b) v') : k < NDIRECT + NINDIRECT := by
  have hslot : ∀ slot v1, SlotOf v f k true (.ok slot) v1 → k < NDIRECT + NINDIRECT := by
    intro slot v1 hslot
    cases hslot with
    | direct hk => exact hk.trans_le (Nat.le_add_right _ _)
    | indirect _ hk' _ _ => exact hk'
    | newIndirect _ _ hk' _ _ _ _ => exact hk'
  cases h with
  | held h _ _ => exact hslot _ _ h
  | new _ h _ _ _ => exact hslot _ _ h

end

/-! ## What a transfer does -/

/-- Every byte of the disk map the call moves lies in a block of `f`; `disk` is the end of the call
in the disk map. -/
def InFile (disk : Move → Nat) (f : FilePtr) (a : Access) : Prop :=
  ∀ j < a.len, DISKMAP ≤ disk a.toMove + j ∧
    Belongs a.mem f ((disk a.toMove + j - DISKMAP) / BLKSIZE)

/-- From `s` to `s'` with the result `r`: either an error and no transfer, or transfers of `r` bytes
of `f`. -/
def OnlyIn (disk : Move → Nat) (f : FilePtr) (s s' : Machine) (r : Except String Int) : Prop :=
  ∃ as : List Access, s'.moves = as ++ s.moves ∧
    match r with
    | .error _ => ∀ a ∈ as, InFile disk f a
    | .ok r => r < 0 ∧ as = [] ∨
        0 ≤ r ∧ (∀ a ∈ as, InFile disk f a) ∧ ((as.map fun a => a.len).sum : Int) = r

/-- The error is returned. -/
def Fails (p : FsM (Except Int Nat)) (s : Machine) : Prop :=
  ∃ r s', p.run onMachine s = (.ok (.error r), s')

/-- A transfer and what is returned of it: the end of `file_read` and of `file_write`. -/
def moveAll (copy : Nat → Nat → Nat → FsM Unit) (f : FilePtr) (stop : Word) (fuel : Nat) (pos : Word)
    (buf : Nat) (count : Word) : FsM Int := do
  match ← transfer copy f stop fuel pos buf with
  | .error r => return r
  | .ok () => return count.toInt

/-- The transfer up to its second block. -/
def nextBlock (copy : Nat → Nat → Nat → FsM Unit) (f : FilePtr) (stop pos : Word) (buf : Nat) :
    FsM (Except Int Nat) := do
  match ← fileGetBlock f (pos.sdiv 4096) with
  | .error r => return .error r
  | .ok blk =>
      copy (blkAddr blk (pos.srem 4096).toInt) buf (chunkLen pos stop).toNat
      fileGetBlock f ((pos + chunkLen pos stop).sdiv 4096)

/-- The condition on a transfer that does not wrap around: it has no first block, it is one chunk,
it has a second block, or the offset is negative and the block before the first one is the file's. -/
def Fits (copy : Nat → Nat → Nat → FsM Unit) (f : FilePtr) (stop pos : Word) (buf : Nat)
    (s : Machine) : Prop :=
  ¬ Gets (fileGetBlock f (pos.sdiv 4096)) s ∨
    0 ≤ pos.toInt ∧ (chunkLen pos stop = stop - pos ∨ ¬ Fails (nextBlock copy f stop pos buf) s) ∨
    pos.toInt < 0 ∧ ∀ b s', (fileGetBlock f (pos.sdiv 4096)).run onMachine s = (.ok (.ok b), s') →
      Belongs s'.mem f (b - 1)

section

variable {s s' s1 s2 : Machine} {f : FilePtr} {disk : Move → Nat} {a : Access} {b : Nat}

theorem onlyIn_none_error {e : String} (h : s'.moves = s.moves) : OnlyIn disk f s s' (.error e) :=
  ⟨[], h, by simp⟩

theorem onlyIn_none_neg {r : Int} (h : s'.moves = s.moves) (hr : r < 0) :
    OnlyIn disk f s s' (.ok r) :=
  ⟨[], h, .inl ⟨hr, rfl⟩⟩

theorem onlyIn_none_iff {r : Int} (h : s'.moves = s.moves) (hr : 0 ≤ r) :
    OnlyIn disk f s s' (.ok r) ↔ r = 0 := by
  constructor
  · rintro ⟨as, heq, ⟨hneg, -⟩ | ⟨-, -, hsum⟩⟩
    · omega
    · rw [h] at heq
      rw [List.self_eq_append_left.mp heq] at hsum
      exact hsum.symm
  · rintro rfl
    exact ⟨[], h, .inr ⟨le_rfl, by simp, rfl⟩⟩

theorem onlyIn_error_iff (as : List Access) {e : String} (h : s'.moves = as ++ s.moves) :
    OnlyIn disk f s s' (.error e) ↔ ∀ a ∈ as, InFile disk f a := by
  constructor
  · rintro ⟨as', heq, hin⟩
    rw [h] at heq
    rwa [List.append_cancel_right heq]
  · exact fun hin => ⟨as, h, hin⟩

theorem onlyIn_ok_iff {as : List Access} {r : Int} (h : s'.moves = as ++ s.moves) (hr : 0 ≤ r)
    (hsum : ((as.map fun a => a.len).sum : Int) = r) :
    OnlyIn disk f s s' (.ok r) ↔ ∀ a ∈ as, InFile disk f a := by
  constructor
  · rintro ⟨as', heq, ⟨hneg, -⟩ | ⟨-, hin, -⟩⟩
    · omega
    · rw [h] at heq
      rwa [List.append_cancel_right heq]
  · exact fun hin => ⟨as, h, .inr ⟨hr, hin, hsum⟩⟩

/-- A partial transfer must not be answered with an error. -/
theorem not_onlyIn_neg (as : List Access) {r : Int} (h : s'.moves = as ++ s.moves) (has : as ≠ [])
    (hr : r < 0) : ¬ OnlyIn disk f s s' (.ok r) := by
  rintro ⟨as', heq, ⟨-, rfl⟩ | ⟨hpos, -⟩⟩
  · rw [h] at heq
    exact has (List.append_cancel_right heq)
  · omega

theorem run_memmove_moves (dst src len : Nat) (s : Machine) :
    ((memmove dst src len).run onMachine s).2.moves = ⟨⟨dst, src, len⟩, s.mem⟩ :: s.moves := by
  let noted : Machine := { s with moves := ⟨⟨dst, src, len⟩, s.mem⟩ :: s.moves }
  have hquiet : Quiet (do storeBytes dst (← loadBytes src len)) :=
    .bind (.loadBytes src len) fun bs => .storeBytes dst bs
  exact hquiet.moves noted

theorem blockOf_of_machine {filebno : Word} {r : Except Int Nat}
    (h : (fileGetBlock f filebno).run onMachine s = (.ok r, s')) :
    BlockOf s.view f filebno.toNat r s'.view :=
  blockOf_of_run (abstracts.run_ok h)

/-! ## Chunks and blocks -/

theorem blkAddr_of_nonneg {off : Int} (h : 0 ≤ off) (b : Nat) :
    blkAddr b off = DISKMAP + b * BLKSIZE + off.toNat := by
  unfold blkAddr
  omega

/-- A chunk within block `b`. -/
theorem inFile_block (off : Int) (hdisk : disk a.toMove = blkAddr b off) (h0 : 0 ≤ off)
    (hoff : off + a.len ≤ 4096) (hb : Belongs a.mem f b) : InFile disk f a := by
  intro j hj
  have hsize : BLKSIZE = 4096 := rfl
  have hblk : (disk a.toMove + j - DISKMAP) / BLKSIZE = b := by
    rw [hdisk, blkAddr_of_nonneg h0, hsize]
    omega
  rw [hblk]
  refine ⟨?_, hb⟩
  rw [hdisk, blkAddr_of_nonneg h0]
  omega

/-- A chunk within the block before block `b`. -/
theorem inFile_before (off : Int) (hdisk : disk a.toMove = blkAddr b off) (hb0 : b ≠ 0)
    (hlo : -4096 ≤ off) (hhi : off + a.len ≤ 0) (hlen : 0 < a.len) :
    InFile disk f a ↔ Belongs a.mem f (b - 1) := by
  have hsize : BLKSIZE = 4096 := rfl
  have haddr : ∀ j < a.len, DISKMAP ≤ disk a.toMove + j ∧
      (disk a.toMove + j - DISKMAP) / BLKSIZE = b - 1 := by
    intro j hj
    rw [hdisk]
    unfold blkAddr
    rw [hsize]
    omega
  constructor
  · intro hin
    rw [← (haddr 0 hlen).2]
    exact (hin 0 hlen).2
  · intro hb j hj
    rw [(haddr j hj).2]
    exact ⟨(haddr j hj).1, hb⟩

end

/-! ## Offsets -/

section

variable {pos stop : Word}

theorem toNat_sdiv_page_of_le (h : pos.toInt ≤ -4096) :
    NDIRECT + NINDIRECT ≤ (pos.sdiv 4096).toNat := by
  have hval : NDIRECT + NINDIRECT = 1034 := rfl
  have hdiv : (pos.sdiv 4096).toInt = pos.toInt.tdiv 4096 :=
    BitVec.toInt_sdiv_of_ne_or_ne pos 4096 (.inr (by decide))
  have hneg : pos.toInt.tdiv 4096 < 0 := by
    have hpos : 0 < (-pos.toInt).tdiv 4096 := by
      rw [Int.tdiv_eq_ediv_of_nonneg (by omega)]
      omega
    rw [Int.neg_tdiv] at hpos
    omega
  have hint := BitVec.toInt_eq_toNat_cond (pos.sdiv 4096)
  omega

/-- At a small negative offset everything is one chunk. -/
theorem chunkLen_of_neg (hlt : pos < stop) (hshort : stop.toNat - pos.toNat ≤ 4096)
    (hneg : pos.toInt < 0) (hsmall : -4096 < pos.toInt) :
    chunkLen pos stop = stop - pos ∧ (pos.srem 4096).toInt = pos.toInt := by
  have hsrem : pos.toInt.tmod 4096 = pos.toInt := by
    rw [← Int.neg_neg pos.toInt, Int.neg_tmod, Int.tmod_eq_emod_of_nonneg (by omega),
      Int.emod_eq_of_lt (by omega) (by omega)]
  have hroom := toNat_room pos
  have hchunk := toNat_chunkLen hlt
  have hsub : (stop - pos).toNat = stop.toNat - pos.toNat :=
    BitVec.toNat_sub_of_le (BitVec.le_of_lt hlt)
  refine ⟨BitVec.eq_of_toNat_eq ?_, (toInt_srem_page pos).trans hsrem⟩
  omega

theorem room_of_nonneg (h : 0 ≤ pos.toInt) : (pos.srem 4096).toInt = (pos.toNat % 4096 : Nat) ∧
    (4096 - pos.srem 4096).toNat = 4096 - pos.toNat % 4096 := by
  have hroom := toNat_room pos
  have hint := BitVec.toInt_eq_toNat_cond pos
  rw [toInt_srem_page]
  rw [Int.tmod_eq_emod_of_nonneg h] at hroom ⊢
  omega

/-- The first chunk of two ends at the end of a block; the second one is the rest. -/
theorem chunkLen_two (hlt : pos < stop) (hshort : stop.toNat - pos.toNat ≤ 4096) (hpos : 0 ≤ pos.toInt)
    (htwo : chunkLen pos stop ≠ stop - pos) :
    pos + chunkLen pos stop < stop ∧
      ((pos + chunkLen pos stop).srem 4096).toInt = 0 ∧
      chunkLen (pos + chunkLen pos stop) stop = stop - (pos + chunkLen pos stop) ∧
      (pos.srem 4096).toInt + (chunkLen pos stop).toNat = 4096 := by
  obtain ⟨hsrem, hroom⟩ := room_of_nonneg hpos
  have hchunk := toNat_chunkLen hlt
  have hsub : (stop - pos).toNat = stop.toNat - pos.toNat :=
    BitVec.toNat_sub_of_le (BitVec.le_of_lt hlt)
  have hadd := add_chunkLen hlt
  have hless : (chunkLen pos stop).toNat ≠ stop.toNat - pos.toNat :=
    fun h => htwo (BitVec.eq_of_toNat_eq (h.trans hsub.symm))
  have hint := BitVec.toInt_eq_toNat_cond pos
  have hnext : pos + chunkLen pos stop < stop := BitVec.lt_def.mpr (by omega)
  have hint' := BitVec.toInt_eq_toNat_cond (pos + chunkLen pos stop)
  have haligned : ((pos + chunkLen pos stop).srem 4096).toInt = 0 := by
    rw [toInt_srem_page]
    exact Int.tmod_eq_zero_of_dvd (by omega)
  have hroom' := toNat_room (pos + chunkLen pos stop)
  rw [← toInt_srem_page, haligned] at hroom'
  have hchunk' := toNat_chunkLen hnext
  have hsub' : (stop - (pos + chunkLen pos stop)).toNat =
      stop.toNat - (pos + chunkLen pos stop).toNat := BitVec.toNat_sub_of_le (BitVec.le_of_lt hnext)
  exact ⟨hnext, haligned, BitVec.eq_of_toNat_eq (by omega), by omega⟩

end

/-! ## The loop -/

section

variable {mv : Nat → Nat → Nat → Move} {disk : Move → Nat} {s s1 : Machine} {f : FilePtr}
  {stop pos count : Word} {buf fuel b : Nat}

theorem transfer_done (copy : Nat → Nat → Nat → FsM Unit) (f : FilePtr) (stop : Word) (fuel buf : Nat) :
    transfer copy f stop fuel stop buf = return .ok () := by
  cases fuel with
  | zero => rfl
  | succ n => rw [transfer, if_neg (BitVec.lt_irrefl stop)]

/-- The copying of a chunk. -/
def copyOf (mv : Nat → Nat → Nat → Move) (blk buf n : Nat) : FsM Unit :=
  memmove (mv blk buf n).dst (mv blk buf n).src (mv blk buf n).len

theorem run_copyOf_moves (mv : Nat → Nat → Nat → Move) (blk buf n : Nat) (s : Machine) :
    ((copyOf mv blk buf n).run onMachine s).2.moves = ⟨mv blk buf n, s.mem⟩ :: s.moves :=
  run_memmove_moves _ _ _ s

theorem moveAll_done (copy : Nat → Nat → Nat → FsM Unit) (f : FilePtr) (stop : Word) (fuel buf : Nat)
    (count : Word) : moveAll copy f stop fuel stop buf count = return count.toInt := by
  unfold moveAll
  rw [transfer_done]
  rfl

theorem add_sub_word (pos stop : Word) : pos + (stop - pos) = stop := by
  rw [BitVec.add_comm, BitVec.sub_add_cancel]

/-- A transfer after its first block. -/
theorem run_moveAll (hlt : pos < stop)
    (hget : (fileGetBlock f (pos.sdiv 4096)).run onMachine s = (.ok (.ok b), s1)) :
    (moveAll (copyOf mv) f stop (fuel + 1) pos buf count).run onMachine s =
      (copyOf mv (blkAddr b (pos.srem 4096).toInt) buf (chunkLen pos stop).toNat >>= fun _ =>
        moveAll (copyOf mv) f stop fuel (pos + chunkLen pos stop) (buf + (chunkLen pos stop).toNat)
          count).run onMachine s1 := by
  unfold moveAll
  rw [transfer, if_pos hlt, Prog.bind_assoc, Prog.run_bind_ok hget]
  simp only
  rw [Prog.bind_assoc]

/-- A transfer without a first block. -/
theorem run_moveAll_panic {e : String} (hlt : pos < stop)
    (hget : (fileGetBlock f (pos.sdiv 4096)).run onMachine s = (.error e, s1)) :
    (moveAll (copyOf mv) f stop (fuel + 1) pos buf count).run onMachine s = (.error e, s1) := by
  unfold moveAll
  rw [transfer, if_pos hlt, Prog.bind_assoc, Prog.run_bind_error hget]

theorem run_moveAll_error {r : Int} (hlt : pos < stop)
    (hget : (fileGetBlock f (pos.sdiv 4096)).run onMachine s = (.ok (.error r), s1)) :
    (moveAll (copyOf mv) f stop (fuel + 1) pos buf count).run onMachine s = (.ok r, s1) := by
  unfold moveAll
  rw [transfer, if_pos hlt, Prog.bind_assoc, Prog.run_bind_ok hget]
  rfl

/-- A transfer of a single chunk. -/
theorem run_moveAll_last (mv : Nat → Nat → Nat → Move) (buf : Nat) (count : Word) (fuel : Nat)
    (hlt : pos < stop) (hchunk : chunkLen pos stop = stop - pos)
    (hget : (fileGetBlock f (pos.sdiv 4096)).run onMachine s = (.ok (.ok b), s1)) :
    ∃ r s2, (moveAll (copyOf mv) f stop (fuel + 1) pos buf count).run onMachine s = (r, s2) ∧
      s2.moves = ⟨mv (blkAddr b (pos.srem 4096).toInt) buf (chunkLen pos stop).toNat, s1.mem⟩ ::
        s1.moves ∧
      ∀ n, r = .ok n → n = count.toInt := by
  rw [run_moveAll hlt hget]
  have hcopy := run_copyOf_moves mv (blkAddr b (pos.srem 4096).toInt) buf (chunkLen pos stop).toNat s1
  have hdone : ∀ buf, moveAll (copyOf mv) f stop fuel (pos + chunkLen pos stop) buf count =
      return count.toInt := by
    intro buf
    rw [hchunk, add_sub_word, moveAll_done]
  simp only [hdone]
  rw [Prog.run_bind]
  rcases hrun : (copyOf mv (blkAddr b (pos.srem 4096).toInt) buf (chunkLen pos stop).toNat).run
    onMachine s1 with ⟨e | u, s2⟩
  · rw [hrun] at hcopy
    exact ⟨_, _, rfl, hcopy, fun n hn => by cases hn⟩
  · rw [hrun] at hcopy
    exact ⟨_, _, rfl, hcopy, fun n hn => by cases hn; rfl⟩

/-- Whatever the end of a transfer is, it stays in the file if its calls do. -/
theorem onlyIn_result_iff (as : List Access) {r : Except String Int} {s2 : Machine}
    (hmoves : s2.moves = as ++ s.moves) (hr : ∀ n, r = .ok n → n = count.toInt)
    (hcount : 0 ≤ count.toInt) (hsum : ((as.map fun a => a.len).sum : Int) = count.toInt) :
    OnlyIn disk f s s2 r ↔ ∀ a ∈ as, InFile disk f a := by
  cases r with
  | error e => exact onlyIn_error_iff as hmoves
  | ok n =>
      cases hr n rfl
      exact onlyIn_ok_iff hmoves hcount hsum

theorem toNat_sub_word (hlt : pos < stop) : (stop - pos).toNat = stop.toNat - pos.toNat :=
  BitVec.toNat_sub_of_le (BitVec.le_of_lt hlt)

/-- The first chunk of a transfer leaves `s_nblocks` as it is: the super block is not one of the
blocks of the file. -/
def KeepsSuper (copy : Nat → Nat → Nat → FsM Unit) (f : FilePtr) (stop pos : Word) (buf : Nat)
    (s : Machine) : Prop :=
  ∀ b s1 u s2, (fileGetBlock f (pos.sdiv 4096)).run onMachine s = (.ok (.ok b), s1) →
    (copy (blkAddr b (pos.srem 4096).toInt) buf (chunkLen pos stop).toNat).run onMachine s1 =
      (.ok u, s2) → nblocks s2.mem = nblocks s.mem

/-- What is left of the condition once there is a first block. -/
theorem fits_iff_of_get {copy : Nat → Nat → Nat → FsM Unit}
    (hget : (fileGetBlock f (pos.sdiv 4096)).run onMachine s = (.ok (.ok b), s1)) :
    Fits copy f stop pos buf s ↔
      0 ≤ pos.toInt ∧ (chunkLen pos stop = stop - pos ∨ ¬ Fails (nextBlock copy f stop pos buf) s) ∨
        pos.toInt < 0 ∧ Belongs s1.mem f (b - 1) := by
  have hgets : Gets (fileGetBlock f (pos.sdiv 4096)) s := ⟨b, s1, hget⟩
  unfold Fits
  simp only [hgets, not_true_eq_false, false_or]
  refine or_congr Iff.rfl (and_congr Iff.rfl ⟨fun h => h b s1 hget, fun h b' s' hget' => ?_⟩)
  cases hget.symm.trans hget'
  exact h

/-- A transfer of two chunks stays in the file unless its second block is an error. -/
theorem onlyIn_two (hdisk : ∀ blk buf n, disk (mv blk buf n) = blk)
    (hlen : ∀ blk buf n, (mv blk buf n).len = n) (hf : OffBitmap s.mem f)
    (hsuper : KeepsSuper (copyOf mv) f stop pos buf s) (hlt : pos < stop) (hnonneg : 0 ≤ pos.toInt)
    (htwo : chunkLen pos stop ≠ stop - pos) (hshort : stop.toNat - pos.toNat ≤ 4096)
    (hcount : count.toInt = (stop.toNat - pos.toNat : Nat))
    (hfuel : stop.toNat - pos.toNat ≤ fuel + 1)
    (hget : (fileGetBlock f (pos.sdiv 4096)).run onMachine s = (.ok (.ok b), s1)) :
    OnlyIn disk f s ((moveAll (copyOf mv) f stop (fuel + 1) pos buf count).run onMachine s).2
        ((moveAll (copyOf mv) f stop (fuel + 1) pos buf count).run onMachine s).1 ↔
      ¬ Fails (nextBlock (copyOf mv) f stop pos buf) s := by
  have hmoves : s1.moves = s.moves := by
    have hquiet := (Quiet.fileGetBlock f (pos.sdiv 4096)).moves s
    rwa [hget] at hquiet
  obtain ⟨hnext, haligned, hlast, hfirst⟩ := chunkLen_two hlt hshort hnonneg htwo
  have hadd := add_chunkLen hlt
  have hpos := chunkLen_pos hlt
  have hnextNat := BitVec.lt_def.mp hnext
  obtain ⟨n, rfl⟩ : ∃ n, fuel = n + 1 := Nat.exists_eq_succ_of_ne_zero (by omega)
  let a : Access := ⟨mv (blkAddr b (pos.srem 4096).toInt) buf (chunkLen pos stop).toNat, s1.mem⟩
  have ha : InFile disk f a := by
    refine inFile_block (pos.srem 4096).toInt (hdisk _ _ _) ?_ ?_
      ((blockOf_of_machine hget).belongs hf)
    · have := (room_of_nonneg hnonneg).1
      omega
    · simp only [a, hlen]
      omega
  have hrunNext : (nextBlock (copyOf mv) f stop pos buf).run onMachine s =
      (copyOf mv (blkAddr b (pos.srem 4096).toInt) buf (chunkLen pos stop).toNat >>= fun _ =>
        fileGetBlock f ((pos + chunkLen pos stop).sdiv 4096)).run onMachine s1 := by
    unfold nextBlock
    rw [Prog.run_bind_ok hget]
  have hcopy := run_copyOf_moves mv (blkAddr b (pos.srem 4096).toInt) buf (chunkLen pos stop).toNat s1
  unfold Fails
  rw [run_moveAll hlt hget, hrunNext, Prog.run_bind, Prog.run_bind]
  rcases hrun : (copyOf mv (blkAddr b (pos.srem 4096).toInt) buf (chunkLen pos stop).toNat).run
    onMachine s1 with ⟨e | u, s2⟩
  · rw [hrun, hmoves] at hcopy
    rw [onlyIn_error_iff [a] hcopy]
    simp [ha]
  · rw [hrun, hmoves] at hcopy
    have hsame := hsuper b s1 u s2 hget hrun
    have hquiet := (Quiet.fileGetBlock f ((pos + chunkLen pos stop).sdiv 4096)).moves s2
    simp only
    rcases hget' : (fileGetBlock f ((pos + chunkLen pos stop).sdiv 4096)).run onMachine s2 with
      ⟨e | r, s3⟩
    · rw [hget', hcopy] at hquiet
      rw [run_moveAll_panic hnext hget', onlyIn_error_iff [a] hquiet]
      simp [ha]
    · have hblock := blockOf_of_machine hget'
      rw [hget', hcopy] at hquiet
      cases r with
      | error r =>
          rw [run_moveAll_error hnext hget']
          refine iff_of_false (not_onlyIn_neg [a] hquiet (by simp) hblock.error_neg) ?_
          exact not_not.mpr ⟨r, s3, rfl⟩
      | ok b' =>
          obtain ⟨r, s4, hrest, hcalls, hr⟩ := run_moveAll_last mv
            (buf + (chunkLen pos stop).toNat) count n hnext hlast hget'
          rw [hquiet] at hcalls
          have hf' : OffBitmap s2.mem f := by
            unfold OffBitmap
            rw [hsame]
            exact hf
          rw [hrest, onlyIn_result_iff [_, a] hcalls hr (by omega)]
          · refine iff_of_true (fun a' ha' => ?_) (by simp)
            rcases List.mem_cons.mp ha' with rfl | ha'
            · refine inFile_block 0 ?_ le_rfl ?_ (hblock.belongs hf')
              · exact (hdisk _ _ _).trans (congrArg (blkAddr b') haligned)
              · simp only [hlen, hlast, toNat_sub_word hnext]
                omega
            · rw [List.mem_singleton.mp ha']
              exact ha
          · simp only [a, List.map_cons, List.map_nil, List.sum_cons, List.sum_nil, hlen, hlast,
              toNat_sub_word hnext, hcount]
            omega

/-- After its first block a transfer stays in the file exactly when it fits. -/
theorem onlyIn_of_get (hdisk : ∀ blk buf n, disk (mv blk buf n) = blk)
    (hlen : ∀ blk buf n, (mv blk buf n).len = n) (hf : OffBitmap s.mem f)
    (hsuper : KeepsSuper (copyOf mv) f stop pos buf s) (hlt : pos < stop)
    (hshort : stop.toNat - pos.toNat ≤ 4096) (hcount : count.toInt = (stop.toNat - pos.toNat : Nat))
    (hfuel : stop.toNat - pos.toNat ≤ fuel + 1)
    (hget : (fileGetBlock f (pos.sdiv 4096)).run onMachine s = (.ok (.ok b), s1)) :
    OnlyIn disk f s ((moveAll (copyOf mv) f stop (fuel + 1) pos buf count).run onMachine s).2
        ((moveAll (copyOf mv) f stop (fuel + 1) pos buf count).run onMachine s).1 ↔
      Fits (copyOf mv) f stop pos buf s := by
  have hblock := blockOf_of_machine hget
  have hmoves : s1.moves = s.moves := by
    have hquiet := (Quiet.fileGetBlock f (pos.sdiv 4096)).moves s
    rwa [hget] at hquiet
  have hbelongs : Belongs s1.mem f b := hblock.belongs hf
  have hpos := chunkLen_pos hlt
  by_cases hone : chunkLen pos stop = stop - pos
  · obtain ⟨r, s2, hrun, hcalls, hr⟩ := run_moveAll_last mv buf count fuel hlt hone hget
    rw [hmoves] at hcalls
    rw [hrun, onlyIn_result_iff [_] hcalls hr (by omega)
      (by simp [hlen, hone, toNat_sub_word hlt, hcount])]
    simp only [List.mem_singleton, forall_eq]
    rw [fits_iff_of_get hget]
    by_cases hneg : pos.toInt < 0
    · have hsmall : -4096 < pos.toInt := by
        by_contra hno
        exact absurd hblock.range (toNat_sdiv_page_of_le (not_lt.mp hno)).not_gt
      have hsrem := (chunkLen_of_neg hlt hshort hneg hsmall).2
      have hint := BitVec.toInt_eq_toNat_cond pos
      have hb0 := hbelongs.1
      rw [inFile_before (pos.srem 4096).toInt (hdisk _ _ _) hb0 (by omega)]
      · simp [hneg, hneg.not_ge]
      · simp only [hlen, hone, toNat_sub_word hlt]
        omega
      · simpa only [hlen] using hpos
    · have hnonneg := not_lt.mp hneg
      obtain ⟨hsrem, hroom⟩ := room_of_nonneg hnonneg
      have hchunk := toNat_chunkLen hlt
      refine ⟨fun _ => .inl ⟨hnonneg, .inl hone⟩, fun _ => ?_⟩
      refine inFile_block (pos.srem 4096).toInt (hdisk _ _ _) (by omega) ?_ hbelongs
      simp only [hlen]
      omega
  · have hnonneg : 0 ≤ pos.toInt := by
      by_contra hneg
      have hsmall : -4096 < pos.toInt := by
        by_contra hno
        exact absurd hblock.range (toNat_sdiv_page_of_le (not_lt.mp hno)).not_gt
      exact hone (chunkLen_of_neg hlt hshort (not_le.mp hneg) hsmall).1
    obtain ⟨hnext, haligned, hlast, hfirst⟩ := chunkLen_two hlt hshort hnonneg hone
    rw [fits_iff_of_get hget, onlyIn_two hdisk hlen hf hsuper hlt hnonneg hone hshort hcount hfuel hget]
    simp [hnonneg, hone, hnonneg.not_gt]

/-- A transfer that does not wrap around stays in the file exactly when it fits. -/
theorem moveAll_onlyIn (hdisk : ∀ blk buf n, disk (mv blk buf n) = blk)
    (hlen : ∀ blk buf n, (mv blk buf n).len = n) (hf : OffBitmap s.mem f)
    (hsuper : KeepsSuper (copyOf mv) f stop pos buf s) (hlt : pos < stop)
    (hshort : stop.toNat - pos.toNat ≤ 4096) (hcount : count.toInt = (stop.toNat - pos.toNat : Nat)) :
    OnlyIn disk f s
        ((moveAll (copyOf mv) f stop (stop.toNat - pos.toNat) pos buf count).run onMachine s).2
        ((moveAll (copyOf mv) f stop (stop.toNat - pos.toNat) pos buf count).run onMachine s).1 ↔
      Fits (copyOf mv) f stop pos buf s := by
  obtain ⟨n, hn⟩ : ∃ n, stop.toNat - pos.toNat = n + 1 :=
    Nat.exists_eq_succ_of_ne_zero (by have := BitVec.lt_def.mp hlt; omega)
  have hquiet := (Quiet.fileGetBlock f (pos.sdiv 4096)).moves s
  rw [hn]
  rcases hget : (fileGetBlock f (pos.sdiv 4096)).run onMachine s with ⟨e | r, s1⟩
  · rw [hget] at hquiet
    have hget' := congrArg Prod.fst hget
    rw [run_moveAll_panic hlt hget]
    exact iff_of_true (onlyIn_none_error hquiet) (.inl (not_gets fun b => by rw [hget']; simp))
  · rw [hget] at hquiet
    cases r with
    | error r =>
        have hget' := congrArg Prod.fst hget
        rw [run_moveAll_error hlt hget]
        exact iff_of_true (onlyIn_none_neg hquiet (blockOf_of_machine hget).error_neg)
          (.inl (not_gets fun b => by rw [hget']; simp))
    | ok b => exact onlyIn_of_get hdisk hlen hf hsuper hlt hshort hcount hn.le hget

/-- A transfer that wraps around moves nothing. -/
theorem moveAll_wraps (copy : Nat → Nat → Nat → FsM Unit) (f : FilePtr) (hwrap : ¬ pos < stop)
    (buf : Nat) (count : Word) :
    moveAll copy f stop (stop.toNat - pos.toNat) pos buf count = return count.toInt := by
  have hzero : stop.toNat - pos.toNat = 0 := Nat.sub_eq_zero_of_le (BitVec.not_lt.mp hwrap)
  rw [hzero]
  rfl

end

/-! ## The handlers -/

def fileSize (mem : Nat → Block) (f : FilePtr) : Word := mem f.blk (f.idx + 32)

/-- The request is for the open regular file `f`; the page of its `File` was read in when it was
opened. -/
structure Opened (s : Server) (i : Fin MAXOPEN) (f : FilePtr) : Prop where
  look : openfileLookup s s.reqFileid = some i
  file : (s.opentab i).oFile = some f
  regular : s.mach.mem f.blk (f.idx + 33) = FTYPE_REG
  nonneg : 0 ≤ (fileSize s.mach.mem f).toInt
  small : (fileSize s.mach.mem f).toInt ≤ MAXFILESIZE
  cached : (s.mach.cache f.blk).isSome
  offBitmap : OffBitmap s.mach.mem f

/-- The calls of `serve_read` move bytes of `f` only, as many as it returns. -/
def ReadOk (s : Server) (f : FilePtr) : Prop :=
  OnlyIn Move.src f s.mach (serveRead s).2.mach (serveRead s).1

/-- The same for `serve_write`. -/
def WriteOk (s : Server) (f : FilePtr) : Prop :=
  OnlyIn Move.dst f s.mach (serveWrite s).2.mach (serveWrite s).1

def readMove (blk buf n : Nat) : Move := ⟨buf, blk, n⟩
def writeMove (blk buf n : Nat) : Move := ⟨blk, buf, n⟩

/-- What is left to read of the file, or the count asked for. -/
def Server.readLen (s : Server) (i : Fin MAXOPEN) (f : FilePtr) : Word :=
  minWord s.readCount (fileSize s.mach.mem f - (s.fds i).fd.fdOffset)

/-- The condition for `serve_read`: the offset is not below the size, nothing is asked for, or the
transfer does not wrap around and fits. -/
def ReadFits (s : Server) (i : Fin MAXOPEN) (f : FilePtr) : Prop :=
  let offset := (s.fds i).fd.fdOffset
  let stop := offset + s.readLen i f
  (fileSize s.mach.mem f).sle offset ∨ s.reqN = 0 ∨
    offset < stop ∧ Fits (copyOf readMove) f stop offset FSREQ s.mach

/-- The condition for `serve_write`: nothing is asked for, or once the file has been extended the
transfer does not wrap around and fits. -/
def WriteFits (s : Server) (i : Fin MAXOPEN) (f : FilePtr) : Prop :=
  let offset := (s.fds i).fd.fdOffset
  let stop := offset + s.reqN
  s.reqN = 0 ∨ ∀ r m, (extend f stop).run onMachine s.mach = (.ok r, m) →
    offset < stop ∧ Fits (copyOf writeMove) f stop offset REQ_BUF m

def ReadKeepsSuper (s : Server) (i : Fin MAXOPEN) (f : FilePtr) : Prop :=
  let offset := (s.fds i).fd.fdOffset
  KeepsSuper (copyOf readMove) f (offset + s.readLen i f) offset FSREQ s.mach

def WriteKeepsSuper (s : Server) (i : Fin MAXOPEN) (f : FilePtr) : Prop :=
  let offset := (s.fds i).fd.fdOffset
  ∀ r m, (extend f (offset + s.reqN)).run onMachine s.mach = (.ok r, m) →
    nblocks m.mem = nblocks s.mach.mem ∧
      KeepsSuper (copyOf writeMove) f (offset + s.reqN) offset REQ_BUF m

section

variable {m : Machine} {f : FilePtr}

theorem touch_cached {b : Nat} (h : (m.cache b).isSome) (off : Nat) :
    m.touch b off = (.ok (), m) := if_pos h

theorem run_load_fSize (h : (m.cache f.blk).isSome) :
    (load f.fSize).run onMachine m = (.ok (fileSize m.mem f), m) := by
  refine (Prog.run_single (Cmd.load f.fSize)).trans ?_
  simp only [FilePtr.fSize, FilePtr.field, onMachine, touch_cached h]
  rfl

theorem run_store_fSize {w : Word} (h : (m.cache f.blk).isSome) :
    (store f.fSize w).run onMachine m = (.ok (), m.store f.blk (f.idx + 32) w) := by
  refine (Prog.run_single (Cmd.store f.fSize w)).trans ?_
  simp only [FilePtr.fSize, FilePtr.field, onMachine, touch_cached h]
  rfl

/-- Setting a size that is not below the old one does not fault. -/
theorem run_fileSetSize_grow {size : Word} (h : (m.cache f.blk).isSome)
    (hsize : ¬ size.slt (fileSize m.mem f)) :
    ∃ m', (fileSetSize f size).run onMachine m = (.ok 0, m') := by
  unfold fileSetSize
  rw [Prog.run_bind_ok (run_load_fSize h), if_neg hsize, Prog.run_bind_ok (run_store_fSize h)]
  exact ⟨_, rfl⟩

/-- `serve_write` does not fail after the transfer. -/
theorem run_growTo (stop : Word) (h : (m.cache f.blk).isSome) :
    ∃ m', (growTo f stop).run onMachine m = (.ok (), m') := by
  unfold growTo
  rw [Prog.run_bind_ok (run_load_fSize h)]
  split
  · rename_i hle
    have hsize : ¬ stop.slt (fileSize m.mem f) := by
      rw [BitVec.sle_eq_not_slt] at hle
      simpa using hle
    obtain ⟨m', hrun⟩ := run_fileSetSize_grow h hsize
    rw [Prog.run_bind_ok hrun]
    exact ⟨_, rfl⟩
  · exact ⟨_, rfl⟩

/-- `file_read` after its test of the size. -/
theorem run_fileRead {buf : Nat} {count offset : Word} (h : (m.cache f.blk).isSome) :
    (fileRead f buf count offset).run onMachine m =
      if (fileSize m.mem f).sle offset then (.ok 0, m)
      else
        let len := minWord count (fileSize m.mem f - offset)
        (moveAll (copyOf readMove) f (offset + len) ((offset + len).toNat - offset.toNat) offset buf
          len).run onMachine m := by
  unfold fileRead
  rw [Prog.run_bind_ok (run_load_fSize h)]
  split
  · rfl
  · rw [Prog.run_bind_ok (run_load_fSize h)]
    rfl

theorem run_fileWrite {buf : Nat} {count offset : Word} :
    (fileWrite f buf count offset).run onMachine m =
      (extend f (offset + count) >>= fun _ =>
        moveAll (copyOf writeMove) f (offset + count) ((offset + count).toNat - offset.toNat) offset
          buf count).run onMachine m := by
  unfold fileWrite
  simp only
  rw [extend_bind]
  rfl

end

/-! ## Both handlers -/

section

variable {s : Server} {i : Fin MAXOPEN} {f : FilePtr}

/-- Short counts are the same as `int`s. -/
theorem toInt_of_short {w : Word} (h : w.toNat ≤ 4096) : w.toInt = w.toNat :=
  BitVec.toInt_eq_toNat_of_lt (by omega)

theorem add_toNat_of_lt {offset count : Word} (h : offset < offset + count) :
    (offset + count).toNat - offset.toNat = count.toNat := by
  have hlt := BitVec.lt_def.mp h
  rw [BitVec.toNat_add] at hlt ⊢
  omega

/-- The calls and the result of `serve_read` are those of `file_read`. -/
theorem serveRead_run (h : Opened s i f) :
    (serveRead s).2.mach.moves = ((fileRead f FSREQ s.readCount (s.fds i).fd.fdOffset).run onMachine
      s.mach).2.moves ∧
      (serveRead s).1 =
        ((fileRead f FSREQ s.readCount (s.fds i).fd.fdOffset).run onMachine s.mach).1 := by
  unfold serveRead Server.run
  simp only [h.look, theFile_some h.file, Prog.pure_bind]
  rcases (fileRead f FSREQ s.readCount (s.fds i).fd.fdOffset).run onMachine s.mach with ⟨e | r, m⟩
  · exact ⟨rfl, rfl⟩
  · simp only
    split <;> exact ⟨rfl, rfl⟩

theorem serveWrite_run (h : Opened s i f) :
    (serveWrite s).1 =
      ((fileWrite f REQ_BUF s.reqN (s.fds i).fd.fdOffset).run onMachine s.mach).1 := by
  have hcached := run_cached (fileWrite f REQ_BUF s.reqN (s.fds i).fd.fdOffset) s.mach h.cached
  unfold serveWrite Server.run
  simp only [h.look, theFile_some h.file, Prog.pure_bind]
  rcases hrun : (fileWrite f REQ_BUF s.reqN (s.fds i).fd.fdOffset).run onMachine s.mach with ⟨e | r, m⟩
  · rfl
  · rw [hrun] at hcached
    simp only [theFile_some h.file, Prog.pure_bind]
    split
    · rfl
    · obtain ⟨m', hgrow⟩ := run_growTo ((s.fds i).fd.fdOffset + BitVec.ofInt 32 r) hcached
      rw [hgrow]

theorem onlyIn_congr {disk : Move → Nat} {m m1 m2 : Machine} {r : Except String Int}
    (h : m1.moves = m2.moves) : OnlyIn disk f m m1 r ↔ OnlyIn disk f m m2 r := by
  unfold OnlyIn
  rw [h]

theorem onlyIn_congr_left {disk : Move → Nat} {m m1 m2 : Machine} {r : Except String Int}
    (h : m1.moves = m2.moves) : OnlyIn disk f m1 m r ↔ OnlyIn disk f m2 m r := by
  unfold OnlyIn
  rw [h]

/-- Nothing is left to read only if nothing was asked for. -/
theorem readLen_zero (hsize : ¬ (fileSize s.mach.mem f).sle (s.fds i).fd.fdOffset) :
    (s.readLen i f).toNat = 0 ↔ s.reqN = 0 := by
  have hne : (fileSize s.mach.mem f - (s.fds i).fd.fdOffset).toNat ≠ 0 := by
    refine toNat_ne_zero fun h0 => hsize ?_
    have heq : fileSize s.mach.mem f = (s.fds i).fd.fdOffset := by
      rw [← add_sub_word (s.fds i).fd.fdOffset (fileSize s.mach.mem f), h0]
      simp
    rw [heq]
    exact BitVec.sle_iff_toInt_le.mpr le_rfl
  have hcount : s.readCount.toNat = min s.reqN.toNat 4096 := toNat_minWord _ _
  have hzero : s.reqN = 0 ↔ s.reqN.toNat = 0 :=
    ⟨fun h => by rw [h]; rfl, fun h => BitVec.eq_of_toNat_eq h⟩
  unfold Server.readLen
  rw [toNat_minWord, hzero]
  omega

theorem readOk_iff (h : Opened s i f) (hsuper : ReadKeepsSuper s i f) :
    ReadOk s f ↔ ReadFits s i f := by
  obtain ⟨hmoves, hresult⟩ := serveRead_run h
  have hfold : minWord s.readCount (fileSize s.mach.mem f - (s.fds i).fd.fdOffset) =
      s.readLen i f := rfl
  have hcount : (s.readLen i f).toNat ≤ 4096 :=
    (minWord_le_left _ _).trans (minWord_le_right s.reqN 4096)
  have hint := toInt_of_short hcount
  unfold ReadOk ReadFits
  rw [onlyIn_congr hmoves, hresult, run_fileRead h.cached]
  simp only [hfold]
  split
  · rename_i hsize
    exact iff_of_true ((onlyIn_none_iff rfl le_rfl).mpr rfl) (.inl hsize)
  · rename_i hsize
    have hzero := readLen_zero hsize
    by_cases hlt : (s.fds i).fd.fdOffset < (s.fds i).fd.fdOffset + s.readLen i f
    · have hsub := add_toNat_of_lt hlt
      rw [moveAll_onlyIn (fun _ _ _ => rfl) (fun _ _ _ => rfl) h.offBitmap hsuper hlt (by omega)
        (by omega)]
      have hpos : s.reqN ≠ 0 := fun h0 => by
        have := BitVec.lt_def.mp hlt
        have := hzero.mpr h0
        omega
      simp only [hsize, hpos, hlt, false_or, true_and, Bool.false_eq_true]
    · rw [moveAll_wraps _ _ hlt, Prog.run_pure, onlyIn_none_iff rfl (by omega), hint]
      simp only [hsize, hlt, false_and, or_false, false_or, Bool.false_eq_true]
      rw [← hzero]
      omega

theorem writeOk_iff (h : Opened s i f) (hshort : s.reqN.toNat ≤ REQ_BUF_SIZE)
    (hsuper : WriteKeepsSuper s i f) : WriteOk s f ↔ WriteFits s i f := by
  have hsize : REQ_BUF_SIZE = 4088 := rfl
  have hint := toInt_of_short (w := s.reqN) (by omega)
  have hquiet := (Quiet.extend f ((s.fds i).fd.fdOffset + s.reqN)).moves s.mach
  unfold WriteOk WriteFits
  rw [onlyIn_congr (serveWrite_moves h.look h.file), serveWrite_run h, run_fileWrite, Prog.run_bind]
  simp only
  rcases hext : (extend f ((s.fds i).fd.fdOffset + s.reqN)).run onMachine s.mach with ⟨e | r, m⟩
  · rw [hext] at hquiet
    exact iff_of_true (onlyIn_none_error hquiet) (.inr fun r m' h' => by cases h')
  · rw [hext] at hquiet
    obtain ⟨hsame, hkeeps⟩ := hsuper r m hext
    have hf : OffBitmap m.mem f := by
      unfold OffBitmap
      rw [hsame]
      exact h.offBitmap
    have hthe : (∀ r' m', ((.ok r, m) : Except String Int × Machine) = (.ok r', m') →
        (s.fds i).fd.fdOffset < (s.fds i).fd.fdOffset + s.reqN ∧
          Fits (copyOf writeMove) f ((s.fds i).fd.fdOffset + s.reqN) (s.fds i).fd.fdOffset REQ_BUF m') ↔
        (s.fds i).fd.fdOffset < (s.fds i).fd.fdOffset + s.reqN ∧
          Fits (copyOf writeMove) f ((s.fds i).fd.fdOffset + s.reqN) (s.fds i).fd.fdOffset REQ_BUF m :=
      ⟨fun hall => hall r m rfl, fun hall r' m' heq => by cases heq; exact hall⟩
    rw [hthe, ← onlyIn_congr_left hquiet]
    simp only
    by_cases hlt : (s.fds i).fd.fdOffset < (s.fds i).fd.fdOffset + s.reqN
    · have hsub := add_toNat_of_lt hlt
      rw [moveAll_onlyIn (fun _ _ _ => rfl) (fun _ _ _ => rfl) hf hkeeps hlt (by omega) (by omega)]
      have hpos : s.reqN ≠ 0 := fun h0 => by
        rw [h0] at hlt
        simp at hlt
      simp only [hpos, hlt, false_or, true_and]
    · rw [moveAll_wraps _ _ hlt, Prog.run_pure, onlyIn_none_iff rfl (by omega), hint]
      simp only [hlt, false_and, or_false]
      exact ⟨fun h0 => BitVec.eq_of_toNat_eq (by simpa using h0), fun h0 => by rw [h0]; rfl⟩

end

/-! ## Two requests -/

theorem sample_opened : Opened (sampleServer 1 0) 0 sampleFile where
  look := by decide
  file := rfl
  regular := rfl
  nonneg := by decide
  small := by decide
  cached := rfl
  offBitmap := by
    show ∀ b < 16, bitmapBlock b ≠ 3
    decide

theorem sample_readKeepsSuper : ReadKeepsSuper (sampleServer 1 0) 0 sampleFile := by
  intro b s1 u s2 hget hcopy
  have hb : (.ok (.ok 4) : Except String (Except Int Nat)) = .ok (.ok b) := congrArg Prod.fst hget
  cases hb
  have hs1 := (congrArg Prod.snd hget).symm
  subst hs1
  have hs2 := (congrArg Prod.snd hcopy).symm
  subst hs2
  rfl

theorem sample_writeKeepsSuper : WriteKeepsSuper (sampleServer 1 0) 0 sampleFile := by
  intro r m hext
  have hm := (congrArg Prod.snd hext).symm
  subst hm
  refine ⟨rfl, fun b s1 u s2 hget hcopy => ?_⟩
  have hb : (.ok (.ok 4) : Except String (Except Int Nat)) = .ok (.ok b) := congrArg Prod.fst hget
  cases hb
  have hs1 := (congrArg Prod.snd hget).symm
  subst hs1
  have hs2 := (congrArg Prod.snd hcopy).symm
  subst hs2
  rfl

end SisOp.Fs
