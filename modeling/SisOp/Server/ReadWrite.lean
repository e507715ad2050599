/-
# `SisOp.Server.ReadWrite` — what is written is what is read

`file_write` and `file_read` of a regular file in a consistent file system.  A write
that returns has stored its bytes where a read finds them, has made the file as long as
it needs, and has left every other byte of an allocated block.  A write that fails has
made the file longer all the same, and has stored what comes before the block it could
not get.
-/
import SisOp.Server.Writing

namespace SisOp.Fs

open SisOp.Lib SisOp.Jos

/-! ## Files -/

/-- The files that paths lead to: the root, and the named entries of the blocks of a directory. -/
inductive Reach (mem : Nat → Block) : FilePtr → Prop
  | root : Reach mem sRoot
  | entry {d : FilePtr} {k j : Nat} (hd : Reach mem d) (hdir : IsDir mem d)
      (hk : k < ((fileSize mem d).sdiv 4096).toNat) (hblk : fileBlock mem d k ≠ 0) (hj : j < BLKFILES)
      (hname : byteOf (mem (fileBlock mem d k) (64 * j)) 0 ≠ 0) : Reach mem ⟨fileBlock mem d k, 64 * j⟩

/-- Every block a file refers to is a data block of the disk, in use, and referred to once. -/
def Consistent (mem : Nat → Block) : Prop := Owned mem (Reach mem)

/-- Consistency with more files than those that can be reached. -/
theorem Owned.consistent {mem : Nat → Block} {F : FilePtr → Prop} (h : Owned mem F)
    (hF : ∀ g, Reach mem g → F g) : Consistent mem where
  disk := h.disk
  reserved := h.reserved
  place := fun g hg => by
    cases hg with
    | root => exact .inl rfl
    | @entry d k j hd hdir _ hblk hj _ => exact .inr ⟨d, k, j, hd, hdir, hblk, hj, rfl⟩
  range := fun r hr => h.range r (hF _ hr)
  used := fun r hr => h.used r (hF _ hr)
  once := fun r r' hr hr' => h.once r r' (hF _ hr) (hF _ hr')

/-- The `n` bytes from `buf` on lie in the server's own memory. -/
def InMemory (buf n : Nat) : Prop := ∀ i, i < n → Private (buf + i)

/-- What `file_read` of byte `p` returns, and the byte it stores. -/
def readByte (v : View) (f : FilePtr) (p : Nat) : Except String Int × Byte :=
  let run := (fileRead f FSREQ 1 (BitVec.ofNat 32 p)).run onView v
  (run.1, run.2.byteAt FSREQ)

/-! ## Sizes -/

section

variable {w w' : Word}

theorem toNat_sizeBlocks_small (h : w.toNat + 4095 < 2 ^ 31) :
    (sizeBlocks w).toNat = (w.toNat + 4095) / 4096 := by
  have hsum : (w + 4095).toNat = w.toNat + 4095 := by
    rw [BitVec.toNat_add]
    exact Nat.mod_eq_of_lt (by simp; omega)
  unfold sizeBlocks
  rw [sdiv_page (by omega), BitVec.toNat_ofNat, hsum]
  unfold BLKSIZE
  omega

/-- The count of a negative size is a large number. -/
theorem toNat_sizeBlocks_large (h : 2 ^ 31 ≤ w.toNat + 4095) (hlt : w.toNat + 4095 ≤ 2 ^ 32 - 4096) :
    (sizeBlocks w).toNat = 2 ^ 32 - (2 ^ 32 - (w.toNat + 4095)) / 4096 := by
  have hsum : (w + 4095).toNat = w.toNat + 4095 := by
    rw [BitVec.toNat_add]
    exact Nat.mod_eq_of_lt (by simp; omega)
  have hint : (w + 4095).toInt = (w.toNat + 4095 : Int) - 2 ^ 32 := by
    rw [BitVec.toInt_eq_toNat_cond, hsum]
    omega
  have hdiv : (sizeBlocks w).toInt = (w + 4095).toInt.tdiv 4096 :=
    BitVec.toInt_sdiv_of_ne_or_ne (w + 4095) 4096 (.inr (by decide))
  have hneg : (-(w + 4095).toInt).tdiv 4096 = (-(w + 4095).toInt) / 4096 :=
    Int.tdiv_eq_ediv_of_nonneg (by omega)
  rw [Int.neg_tdiv] at hneg
  have hcond := BitVec.toInt_eq_toNat_cond (sizeBlocks w)
  omega

theorem toNat_sizeBlocks_mono (h : w.toNat ≤ w'.toNat) (hlt : w'.toNat + 4095 ≤ 2 ^ 32 - 4096) :
    (sizeBlocks w).toNat ≤ (sizeBlocks w').toNat := by
  by_cases hw : w.toNat + 4095 < 2 ^ 31
  · rw [toNat_sizeBlocks_small hw]
    by_cases hw' : w'.toNat + 4095 < 2 ^ 31
    · rw [toNat_sizeBlocks_small hw']
      omega
    · rw [toNat_sizeBlocks_large (by omega) hlt]
      omega
  · rw [toNat_sizeBlocks_large (by omega) (by omega), toNat_sizeBlocks_large (by omega) hlt]
    omega

end

/-! ## The first lines of `file_write` -/

/-- The file is at least `stop` bytes long. -/
def View.extended (v : View) (f : FilePtr) (stop : Word) : View :=
  if fileSize v.mem f < stop then v.set f.fSize stop else v

section

variable {v : View} {F : FilePtr → Prop} {f g : FilePtr} {stop : Word} {j k p va : Nat}

/-- Extending a file frees nothing, although a size from 2 GiB on is a negative `off_t`. -/
theorem run_extend (v : View) (f : FilePtr) (hstop : stop.toNat + 4095 ≤ 2 ^ 32 - 4096) :
    (extend f stop).run onView v = (.ok 0, v.extended f stop) := by
  have hload : (load f.fSize).run onView v = (.ok (fileSize v.mem f), v) := run_load f.fSize v
  unfold extend View.extended
  rw [Prog.run_bind_ok hload, run_ite]
  split
  · rename_i hlt
    have hlt' := BitVec.lt_def.mp hlt
    unfold fileSetSize
    rw [Prog.run_bind_ok hload, run_ite]
    split
    · rename_i hneg
      have hmono := toNat_sizeBlocks_mono hlt'.le hstop
      have hlarge : ¬ (sizeBlocks stop).toNat ≤ NDIRECT := by
        have hsign := BitVec.slt_iff_toInt_lt.mp hneg
        have hint := BitVec.toInt_eq_toNat_cond stop
        have hint' := BitVec.toInt_eq_toNat_cond (fileSize v.mem f)
        have hten : NDIRECT = 10 := rfl
        rw [toNat_sizeBlocks_large (by omega) hstop]
        omega
      have htrunc : (fileTruncateBlocks f stop).run onView v = (.ok (), v) := by
        unfold fileTruncateBlocks
        rw [Prog.run_bind_ok hload]
        simp only
        rw [Nat.sub_eq_zero_of_le hmono, if_neg hlarge]
        rfl
      rw [Prog.run_bind_ok htrunc]
      rfl
    · rfl
  · rfl

theorem fileSize_extended (v : View) (f : FilePtr) (stop : Word) :
    (fileSize (v.extended f stop).mem f).toNat = max (fileSize v.mem f).toNat stop.toNat := by
  unfold View.extended
  split
  · rename_i hlt
    have hlt' := BitVec.lt_def.mp hlt
    have hset : fileSize (v.set f.fSize stop).mem f = stop := View.get_set_self v f.fSize stop
    rw [hset, max_eq_right hlt'.le]
  · rename_i hge
    exact (max_eq_left (BitVec.not_lt.mp hge)).symm

theorem byteAt_extended (hva : Private va) (f : FilePtr) (stop : Word) :
    (v.extended f stop).byteAt va = v.byteAt va := by
  unfold View.extended
  split
  · exact byteAt_set_disk hva _ _ _
  · rfl

namespace Owned

variable (h : Owned v.mem F) (hf : F f)

include h hf

theorem extended : Owned (v.extended f stop).mem F := by
  unfold View.extended
  split
  · exact h.setField hf (by decide)
  · exact h

theorem fileBlock_extended (hg : F g) : fileBlock (v.extended f stop).mem g k = fileBlock v.mem g k := by
  unfold View.extended
  split
  · exact h.fileBlock_setField hf (by decide) hg k
  · rfl

theorem indirectBlock_extended (hg : F g) :
    indirectBlock (v.extended f stop).mem g = indirectBlock v.mem g := by
  unfold View.extended
  split
  · exact h.indirectBlock_setField hf (by decide) hg
  · rfl

theorem isDir_extended (hg : F g) : IsDir (v.extended f stop).mem g ↔ IsDir v.mem g := by
  unfold View.extended
  split
  · exact h.isDir_setField hf (by decide) hg
  · rfl

theorem field_extended (hg : F g) (hj : j < 64) (hne : g = f → j ≠ 32) :
    (v.extended f stop).mem g.blk (g.idx + j) = v.mem g.blk (g.idx + j) := by
  unfold View.extended
  split
  · exact h.field_setField hf (by decide) hg hj hne
  · rfl

theorem noNewIndirect_extended {lo hi : Nat} (hind : NoNewIndirect v.mem f lo hi) :
    NoNewIndirect (v.extended f stop).mem f lo hi := by
  refine hind.imp (fun hall p hlo hhi => ?_) fun hsc => ?_
  · rw [h.indirectBlock_extended hf hf]
    exact hall p hlo hhi
  · unfold View.extended
    split
    · exact (scarce_congr (h.nblocks_setField hf) (h.freeIn_setField hf)
        fun k => h.fileBlock_setField hf (by decide) hf k).mpr hsc
    · exact hsc

theorem fileByte_extended (hg : F g)
    (hout : ¬ InStruct f (fileBlock v.mem g (p / BLKSIZE)) (p % BLKSIZE / 4)) :
    fileByte (v.extended f stop).mem g p = fileByte v.mem g p := by
  have hblk : fileBlock (v.extended f stop).mem g (p / BLKSIZE) = fileBlock v.mem g (p / BLKSIZE) :=
    h.fileBlock_extended hf hg
  unfold fileByte
  rw [hblk]
  unfold View.extended
  split
  · rw [FilePtr.fSize, FilePtr.field, View.mem_set, if_neg]
    rintro ⟨heq, hidx⟩
    exact hout ⟨heq, by omega, by omega⟩
  · rfl

end Owned

/-! ## `file_write` -/

theorem InMemory.lt {buf n : Nat} (h : InMemory buf n) : n < 2 ^ 28 := by
  by_contra hge
  have hfirst := h 0 (by omega)
  have hlast := h (n - 1) (by omega)
  unfold Private UTEXT DISKMAP at *
  omega

/-- The end of `file_write`: it has written all, or failed at some position. -/
inductive WriteEnd (F : FilePtr → Prop) (R : Nat → Prop) (f : FilePtr) (buf : Nat) (count offset : Word)
    (v : View) : Prop
  | ok {v' : View} (hrun : (fileWrite f buf count offset).run onView v = (.ok count.toInt, v'))
      (h : Writing F f offset.toNat buf (v.extended f (offset + count)) (offset.toNat + count.toNat) v')
      (ht : Touched R f offset.toNat (offset.toNat + count.toNat) v')
  | error {e : Int} {n : Nat} {v' : View}
      (hrun : (fileWrite f buf count offset).run onView v = (.ok e, v')) (hlo : offset.toNat ≤ n)
      (hhi : n < offset.toNat + count.toNat)
      (h : WriteFails F f offset.toNat buf (v.extended f (offset + count)) n e v')

theorem run_fileWrite_view {R : Nat → Prop} {buf : Nat} {count offset : Word} (h : Owned v.mem F)
    (hf : F f) (hreg : ¬ IsDir v.mem f) (hoff : offset.toNat < 2 ^ 31)
    (hbuf : InMemory buf count.toNat)
    (hind : NoNewIndirect v.mem f offset.toNat (offset.toNat + count.toNat))
    (hcov : Prog.Covered onView (Only R) (fileWrite f buf count offset) v) :
    R f.blk ∧ WriteEnd F R f buf count offset v := by
  have hcount := hbuf.lt
  have hstop : (offset + count).toNat = offset.toNat + count.toNat := by
    rw [BitVec.toNat_add, Nat.mod_eq_of_lt (by omega)]
  have hbound : (offset + count).toNat + 4095 ≤ 2 ^ 32 - 4096 := by omega
  have hext := run_extend v f hbound
  unfold fileWrite at hcov
  simp only at hcov
  obtain ⟨hcovext, hcovloop⟩ := Prog.covered_bind.mp hcov
  have hloop := (Prog.covered_bind.mp (hcovloop _ _ hext)).1
  refine ⟨?_, ?_⟩
  · unfold extend at hcovext
    exact Prog.covered_cmd.mp (Prog.covered_bind.mp hcovext).1 _ rfl
  · have hdone := run_transfer_write (h.extended hf) hf (mt (h.isDir_extended hf hf).mp hreg) hoff
      (by omega) le_rfl
      (by
        rw [hstop]
        exact h.noNewIndirect_extended hf hind)
      (fun i hi => hbuf i (by omega)) hloop
    rw [hstop] at hdone
    cases hdone with
    | ok hrun hw =>
        refine .ok ?_ hw.1 hw.2.1
        unfold fileWrite
        simp only
        rw [Prog.run_bind_ok hext, if_neg (by decide), hstop, Prog.run_bind_ok hrun]
        rfl
    | error hrun hlo hhi hfails =>
        refine .error ?_ hlo hhi hfails
        unfold fileWrite
        simp only
        rw [Prog.run_bind_ok hext, if_neg (by decide), hstop, Prog.run_bind_ok hrun]
        rfl

end

/-! ## `file_read` -/

section

variable {v v' : View} {F : FilePtr → Prop} {f g : FilePtr} {count offset : Word} {buf p : Nat}

/-- Reading blocks the file has touches them, their slots, the `File` and the super block. -/
theorem covered_fileRead {R : Nat → Prop} (h : Owned v.mem F) (hf : F f)
    (hsize : offset.toNat + count.toNat ≤ (fileSize v.mem f).toNat)
    (hint : (fileSize v.mem f).toNat < 2 ^ 31)
    (hall : ∀ p, offset.toNat ≤ p → p < offset.toNat + count.toNat → fileBlock v.mem f (p / BLKSIZE) ≠ 0)
    (hbuf : InMemory buf count.toNat) (hR : R f.blk)
    (ht : Touched R f offset.toNat (offset.toNat + count.toNat) v) :
    Prog.Covered onView (Only R) (fileRead f buf count offset) v := by
  have hload : (load f.fSize).run onView v = (.ok (fileSize v.mem f), v) := run_load f.fSize v
  unfold fileRead
  refine Prog.covered_bind.mpr ⟨Prog.covered_cmd.mpr (only_disk hR _), fun w v1 hrun => ?_⟩
  rw [hload] at hrun
  cases hrun
  split
  · exact Prog.covered_pure _
  · rename_i hend
    refine Prog.covered_bind.mpr ⟨Prog.covered_cmd.mpr (only_disk hR _), fun w v1 hrun => ?_⟩
    rw [hload] at hrun
    cases hrun
    have hmin : minWord count (fileSize v.mem f - offset) = count := by
      have hle : offset ≤ fileSize v.mem f := BitVec.le_def.mpr (by omega)
      unfold minWord
      refine if_pos (BitVec.le_def.mpr ?_)
      rw [BitVec.toNat_sub_of_le hle]
      omega
    have hstop : (offset + count).toNat = offset.toNat + count.toNat := by
      rw [BitVec.toNat_add, Nat.mod_eq_of_lt (by omega)]
    simp only [hmin]
    refine Prog.covered_bind.mpr ⟨?_, fun r _ _ => by cases r <;> exact Prog.covered_pure _⟩
    have hloop : Prog.Covered onView (Only R) (transfer (fun blk buf n => memmove buf blk n) f
        (offset + count) ((offset + count).toNat - offset.toNat) offset
        (buf + (offset.toNat - offset.toNat))) v := by
      refine covered_transfer (fun _ w => w.mem = v.mem) (fun n w hlo hhi hw => ?_) le_rfl (by omega) rfl
      have h0 := hall n hlo (by omega)
      obtain ⟨h1, hslot, hblk⟩ := ht n hlo (by omega)
      have hrange := range_of_block h0
      have hval : NDIRECT + NINDIRECT = 1034 := rfl
      have hsize' : BLKSIZE = 4096 := rfl
      have hk : (BitVec.ofNat 32 (n / BLKSIZE)).toNat = n / BLKSIZE := by
        rw [BitVec.toNat_ofNat, Nat.mod_eq_of_lt (by omega)]
      have how : Owned w.mem F := hw ▸ h
      have h0w : fileBlock w.mem f (n / BLKSIZE) ≠ 0 := hw ▸ h0
      refine ⟨by omega, covered_fileGetBlock how hf (hk.symm ▸ h0w) hR (by rw [hk, hw]; exact hslot) h1,
        fun b w' hget => ?_⟩
      rw [how.run_fileGetBlock hf (hk.symm ▸ direct_of_block h0w), hk, if_neg (by omega), if_pos h0w]
        at hget
      cases hget
      have hlt := how.block_lt hf h0w
      have hfits := chunk_fits n (offset + count).toNat
      have hadd := add_chunk_le hhi.le
      have hdst : ∀ i, i < chunk n (offset + count).toNat → Private (buf + (n - offset.toNat) + i) :=
        fun i hi => by
          rw [Nat.add_assoc]
          exact hbuf _ (by omega)
      have hsrc : ∀ i, i < chunk n (offset + count).toNat →
          Mapped (diskVa (fileBlock w.mem f (n / BLKSIZE)) (n % BLKSIZE) + i) := fun i hi => by
        rw [diskVa_add]
        exact mapped_diskVa hlt (by omega)
      refine ⟨covered_memmove hsrc (fun i hi b hb => ?_) fun i hi b hb =>
        absurd hb (hdst i hi).not_inBlock, fun w'' hcopy => ?_⟩
      · rw [diskVa_add] at hb
        rw [inBlock_diskVa (by omega) hb, hw]
        exact hblk
      · rw [run_memmove hsrc fun i hi => (hdst i hi).mapped] at hcopy
        cases hcopy
        rw [mem_setBytes_private (by simpa using hdst), View.noted_mem, hw]
    rwa [Nat.sub_self, Nat.add_zero] at hloop

theorem private_fsreq : Private FSREQ := by
  unfold Private UTEXT FSREQ DISKMAP
  omega

/-- Reading a byte of an allocated block. -/
theorem readByte_of_lt (h : Owned v.mem F) (hf : F f) (h0 : fileBlock v.mem f (p / BLKSIZE) ≠ 0)
    (hp : p < (fileSize v.mem f).toNat) (hint : (fileSize v.mem f).toNat < 2 ^ 31) :
    readByte v f p = (.ok 1, fileByte v.mem f p) := by
  have hpos : (BitVec.ofNat 32 p).toNat = p := by
    rw [BitVec.toNat_ofNat, Nat.mod_eq_of_lt (by omega)]
  have hone : (1 : Word).toNat = 1 := rfl
  obtain ⟨w, hrun, hw⟩ : ∃ w, (fileRead f FSREQ 1 (BitVec.ofNat 32 p)).run onView v =
      (.ok (1 : Word).toInt, w) ∧ Copied f (BitVec.ofNat 32 p).toNat FSREQ v
        ((BitVec.ofNat 32 p).toNat + (1 : Word).toNat) w := by
    refine run_fileRead_view h hf (by omega) hint (fun q hlo hhi => ?_) fun i hi => ?_
    · rw [show q = p by omega]
      exact h0
    · rw [show i = 0 by omega]
      exact private_fsreq
  unfold readByte
  rw [hrun]
  refine Prod.ext rfl ?_
  show w.byteAt FSREQ = _
  rw [hw.byteAt, if_pos (by omega), Nat.sub_self, hpos]
  rfl

/-- There is nothing to read from the end of the file on. -/
theorem readByte_of_ge (hp : p < 2 ^ 31) (hge : (fileSize v.mem f).toInt ≤ p) :
    readByte v f p = (.ok 0, v.byteAt FSREQ) := by
  have hload : (load f.fSize).run onView v = (.ok (fileSize v.mem f), v) := run_load f.fSize v
  have hint : (BitVec.ofNat 32 p).toInt = p := by
    rw [toInt_of_lt, BitVec.toNat_ofNat, Nat.mod_eq_of_lt (by omega)]
    rw [BitVec.toNat_ofNat, Nat.mod_eq_of_lt (by omega)]
    exact hp
  unfold readByte fileRead
  rw [Prog.run_bind_ok hload, if_pos (BitVec.sle_iff_toInt_le.mpr (hint ▸ hge))]
  rfl

/-- Two states with the same size, block and byte. -/
theorem readByte_congr (h : Owned v.mem F) (h' : Owned v'.mem F) (hf : F f)
    (h0 : fileBlock v.mem f (p / BLKSIZE) ≠ 0)
    (hblk : fileBlock v'.mem f (p / BLKSIZE) = fileBlock v.mem f (p / BLKSIZE))
    (hbyte : fileByte v'.mem f p = fileByte v.mem f p) (hsize : fileSize v'.mem f = fileSize v.mem f)
    (hown : v'.byteAt FSREQ = v.byteAt FSREQ) : readByte v' f p = readByte v f p := by
  have hrange := range_of_block h0
  have hval : NDIRECT + NINDIRECT = 1034 := rfl
  have hblksize : BLKSIZE = 4096 := rfl
  by_cases hge : (fileSize v.mem f).toInt ≤ p
  · rw [readByte_of_ge (by rw [hblksize] at hrange; omega) (hsize ▸ hge),
      readByte_of_ge (by rw [hblksize] at hrange; omega) hge, hown]
  · have hcond := BitVec.toInt_eq_toNat_cond (fileSize v.mem f)
    have hlt := (fileSize v.mem f).isLt
    rw [readByte_of_lt h' hf (hblk.symm ▸ h0) (by rw [hsize]; omega) (by rw [hsize]; omega),
      readByte_of_lt h hf h0 (by omega) (by omega), hbyte]

end

/-! ## Reading what was written -/

section

variable {s s' : Machine} {f : FilePtr} {buf out : Nat} {count offset : Word}

/-- What is written is what is read: after `file_write` has returned, `file_read` returns the bytes
of the buffer, the file is as long as it must be, and the other bytes of allocated blocks of this
and of every other file read as before; only the `File` itself, in its directory, has changed. -/
theorem write_then_read (hcons : Consistent s.mem) (hf : Reach s.mem f)
    (hreg : s.mem f.blk (f.idx + 33) = FTYPE_REG) (hsize : 0 ≤ (fileSize s.mem f).toInt)
    (hrange : offset.toNat + count.toNat ≤ MAXFILESIZE)
    (hind : NoNewIndirect s.mem f offset.toNat (offset.toNat + count.toNat))
    (hbuf : InMemory buf count.toNat) (hout : InMemory out count.toNat)
    (hrun : (fileWrite f buf count offset).run onMachine s = (.ok count.toInt, s')) :
    (∃ s'', (fileRead f out count offset).run onMachine s' = (.ok count.toInt, s'') ∧
        s''.view.bytes out count.toNat = s.view.bytes buf count.toNat) ∧
      (fileSize s'.mem f).toNat = max (fileSize s.mem f).toNat (offset.toNat + count.toNat) ∧
      (∀ p, p < (fileSize s.mem f).toNat → fileBlock s.mem f (p / BLKSIZE) ≠ 0 →
        p < offset.toNat ∨ offset.toNat + count.toNat ≤ p →
        readByte s'.view f p = readByte s.view f p) ∧
      ∀ g p, Reach s.mem g → g ≠ f → fileBlock s.mem g (p / BLKSIZE) ≠ 0 →
        ¬ InStruct f (fileBlock s.mem g (p / BLKSIZE)) (p % BLKSIZE / 4) →
        readByte s'.view g p = readByte s.view g p := by
  have hmax : MAXFILESIZE = 1034 * 4096 := rfl
  have hreg' : ¬ IsDir s.view.mem f := fun hdir => by
    have hne := hreg.symm.trans hdir
    revert hne
    decide
  have hcons' : Owned s.view.mem (Reach s.mem) := hcons
  have hcount := hbuf.lt
  have hstop : (offset + count).toNat = offset.toNat + count.toNat := by
    rw [BitVec.toNat_add, Nat.mod_eq_of_lt (by omega)]
  have hsmall : (fileSize s.mem f).toNat < 2 ^ 31 := by
    have hcond := BitVec.toInt_eq_toNat_cond (fileSize s.mem f)
    omega
  have hview := abstracts.run_ok hrun
  obtain ⟨hR, hend⟩ := run_fileWrite_view hcons' hf hreg' (by omega) hbuf hind (covered_of_machine hrun)
  cases hend with
  | error hrun' hlo hhi hfails =>
      rw [hview] at hrun'
      cases hrun'
      have hneg := hfails.neg
      rw [toInt_of_lt (by omega)] at hneg
      omega
  | ok hrun' hw ht =>
      rw [hview] at hrun'
      cases hrun'
      have hext : Owned (s.view.extended f (offset + count)).mem (Reach s.mem) := hcons'.extended hf
      have hlen : (fileSize s'.mem f).toNat =
          max (fileSize s.mem f).toNat (offset.toNat + count.toNat) := by
        have hsame : fileSize s'.mem f = _ := hw.fileSize_eq hf
        rw [hsame, fileSize_extended, hstop]
        rfl
      refine ⟨?_, hlen, fun p hp h0 hpos => ?_, fun g p hg hne h0 hstruct => ?_⟩
      · have hall := fun p hlo hhi => (hw.written p hlo hhi).1
        have hsize' : offset.toNat + count.toNat ≤ (fileSize s'.view.mem f).toNat :=
          (le_max_right _ _).trans hlen.ge
        have hint : (fileSize s'.view.mem f).toNat < 2 ^ 31 := hlen.trans_lt (by omega)
        obtain ⟨w, hread, hcopied⟩ := run_fileRead_view hw.owned hf hsize' hint hall hout
        obtain ⟨s'', hrun'', rfl⟩ := run_of_resident
          (covered_fileRead hw.owned hf hsize' hint hall hout hR ht) (fun _ => id) hread
        refine ⟨s'', hrun'', List.map_congr_left fun i hi => ?_⟩
        have hi := List.mem_range.mp hi
        have hbyte := (hw.written (offset.toNat + i) (by omega) (by omega)).2
        rw [hcopied.byteAt, if_pos (by omega), Nat.add_sub_cancel_left, hbyte, Nat.add_sub_cancel_left,
          byteAt_extended (hbuf i hi)]
      · have h0' : fileBlock (s.view.extended f (offset + count)).mem f (p / BLKSIZE) ≠ 0 := by
          rw [hcons'.fileBlock_extended hf hf]
          exact h0
        have hbyte := hw.rest f p hf h0' (fun _ => hpos)
          (hext.not_inStruct hf (mt (hcons'.isDir_extended hf hf).mp hreg') hf h0' _)
        rw [hcons'.fileByte_extended hf hf (hcons'.not_inStruct hf hreg' hf h0 _)] at hbyte
        have hblk := hw.keeps _ h0'
        rw [readByte_of_lt hcons' hf h0 hp hsmall, readByte_of_lt hw.owned hf (hblk.symm ▸ h0')
          (hp.trans_le ((le_max_left _ _).trans hlen.ge)) (hlen.trans_lt (by omega)), hbyte]
      · have hsame : fileBlock (s.view.extended f (offset + count)).mem g (p / BLKSIZE) =
            fileBlock s.view.mem g (p / BLKSIZE) := hcons'.fileBlock_extended hf hg
        have hbyte := hw.rest g p hg (hsame.symm ▸ h0) (fun heq => absurd heq hne) (hsame.symm ▸ hstruct)
        refine readByte_congr hcons' hw.owned hg h0 ?_ ?_ ?_ ?_
        · exact (hw.others g _ hg hne).trans hsame
        · exact hbyte.trans (hcons'.fileByte_extended hf hg hstruct)
        · exact (hw.fileSize_eq hg).trans
            (hcons'.field_extended hf hg (by decide) fun heq => absurd heq hne)
        · exact (hw.own _ private_fsreq).trans (byteAt_extended private_fsreq f _)

end

/-! ## A disk with one file -/

/-- The files of `sampleDisk`. -/
def SampleFiles (g : FilePtr) : Prop := g = sRoot ∨ g = sampleFile

section

variable (stale : Block) {g : FilePtr} {k : Nat}

/-- The root has block 3, the file blocks 4 and 5. -/
theorem sample_fileBlock (hg : SampleFiles g) (h0 : fileBlock (sampleDisk stale) g k ≠ 0) :
    g = sRoot ∧ k = 0 ∧ fileBlock (sampleDisk stale) g k = 3 ∨
      g = sampleFile ∧ (k = 0 ∧ fileBlock (sampleDisk stale) g k = 4 ∨
        k = 1 ∧ fileBlock (sampleDisk stale) g k = 5) := by
  have hten : NDIRECT = 10 := rfl
  have hk : k < 10 := by
    rcases hasSlot_of_ne_zero h0 with hk | ⟨-, hind⟩
    · exact hk
    · rcases hg with rfl | rfl <;> exact absurd rfl hind
  rcases hg with rfl | rfl
  · left
    interval_cases k
    · exact ⟨rfl, rfl, rfl⟩
    all_goals exact absurd rfl h0
  · right
    interval_cases k
    · exact ⟨rfl, .inl ⟨rfl, rfl⟩⟩
    · exact ⟨rfl, .inr ⟨rfl, rfl⟩⟩
    all_goals exact absurd rfl h0

theorem sample_target (r : Ref) (hr : SampleFiles r.file) (h0 : r.target (sampleDisk stale) ≠ 0) :
    r = .data sRoot 0 ∧ r.target (sampleDisk stale) = 3 ∨
      r = .data sampleFile 0 ∧ r.target (sampleDisk stale) = 4 ∨
      r = .data sampleFile 1 ∧ r.target (sampleDisk stale) = 5 := by
  cases r with
  | indirect g =>
      have hg : SampleFiles g := hr
      rcases hg with rfl | rfl <;> exact absurd rfl h0
  | data g k =>
      have hg : SampleFiles g := hr
      rcases sample_fileBlock stale hg h0 with ⟨rfl, rfl, hb⟩ | ⟨rfl, ⟨rfl, hb⟩ | ⟨rfl, hb⟩⟩
      · exact .inl ⟨rfl, hb⟩
      · exact .inr (.inl ⟨rfl, hb⟩)
      · exact .inr (.inr ⟨rfl, hb⟩)

theorem sample_mem : (sampleMachine stale).mem = sampleDisk stale := by
  funext b
  unfold Machine.mem sampleMachine
  simp only
  by_cases hb : b ≤ 3
  · rw [if_pos hb]
  · rw [if_neg hb]

theorem sample_not_dir : ¬ IsDir (sampleDisk stale) sampleFile := fun hdir => by
  have hne : (0 : Word) = 1 := hdir
  exact absurd hne (by decide)

theorem sample_nblocks : nblocks (sampleDisk stale) = 16 := rfl

theorem sample_firstData : firstData (sampleDisk stale) = 3 := by
  unfold firstData
  rw [sample_nblocks]
  rfl

/-- Blocks 0 to 5 are in use. -/
theorem sample_in_use {b : Nat} (hb : b < 6) : ¬ FreeIn (sampleDisk stale) b := by
  rintro ⟨-, hbit⟩
  have hword : sampleDisk stale (bitmapBlock b) (b / 32 % 1024) = 0xFFC0 := by
    interval_cases b <;> rfl
  rw [hword] at hbit
  interval_cases b <;> exact absurd hbit (by decide)

theorem sample_root_block : fileBlock (sampleDisk stale) sRoot 0 = 3 := rfl

theorem sample_owned : Owned (sampleDisk stale) SampleFiles where
  disk := by
    rw [sample_nblocks]
    decide
  reserved := fun b hb => by
    rw [sample_firstData] at hb
    exact sample_in_use stale (by omega)
  place := by
    have hroot := sample_root_block stale
    rintro g (rfl | rfl)
    · exact .inl rfl
    · exact .inr ⟨sRoot, 0, 0, .inl rfl, rfl, by rw [hroot]; decide, by decide, by rw [hroot]; rfl⟩
  range := fun r hr h0 => by
    rw [sample_firstData, sample_nblocks]
    rcases sample_target stale r hr h0 with ⟨-, h⟩ | ⟨-, h⟩ | ⟨-, h⟩ <;> rw [h] <;> decide
  used := fun r hr h0 => by
    rcases sample_target stale r hr h0 with ⟨-, h⟩ | ⟨-, h⟩ | ⟨-, h⟩ <;> rw [h] <;>
      exact sample_in_use stale (by decide)
  once := fun r r' hr hr' h0 heq => by
    have h0' : r'.target (sampleDisk stale) ≠ 0 := heq ▸ h0
    rcases sample_target stale r hr h0 with ⟨rfl, h⟩ | ⟨rfl, h⟩ | ⟨rfl, h⟩ <;>
      rcases sample_target stale r' hr' h0' with ⟨rfl, h'⟩ | ⟨rfl, h'⟩ | ⟨rfl, h'⟩ <;>
      first | rfl | (rw [h, h'] at heq; cases heq)

theorem sample_reach : Reach (sampleDisk stale) sampleFile := by
  have hroot := sample_root_block stale
  have hname : byteOf (sampleDisk stale 3 0) 0 = 0x61 := rfl
  have hsize : fileSize (sampleDisk stale) sRoot = 4096 := rfl
  refine .entry (d := sRoot) (k := 0) (j := 0) .root rfl ?_ ?_ (by decide) ?_
  · rw [hsize]
    decide
  · rw [hroot]
    decide
  · rw [hroot, Nat.mul_zero, hname]
    decide

theorem sampleFiles_of_reach (hg : Reach (sampleDisk stale) g) : SampleFiles g := by
  induction hg with
  | root => exact .inl rfl
  | @entry d k j _ hdir _ hblk hj hname ih =>
      rcases sample_fileBlock stale ih hblk with ⟨rfl, rfl, hb⟩ | ⟨rfl, -⟩
      · have hj16 : j < 16 := hj
        rw [hb] at hname ⊢
        right
        interval_cases j
        · rfl
        all_goals exact absurd rfl hname
      · exact absurd hdir (sample_not_dir stale)

theorem sample_consistent : Consistent (sampleMachine stale).mem := by
  rw [sample_mem]
  exact (sample_owned stale).consistent fun g => sampleFiles_of_reach stale

theorem sample_regular : sampleDisk stale sampleFile.blk (sampleFile.idx + 33) = FTYPE_REG := rfl

theorem sample_fileSize : fileSize (sampleDisk stale) sampleFile = 8192 := rfl

end

theorem inMemory_fsreq : InMemory FSREQ 1 := fun i hi => by
  rw [show i = 0 by omega]
  exact private_fsreq

theorem noNewIndirect_direct {mem : Nat → Block} {f : FilePtr} {lo hi : Nat} (h : hi ≤ NDIRECT * BLKSIZE) :
    NoNewIndirect mem f lo hi := by
  refine .inl fun p _ hp => .inl ?_
  unfold NDIRECT BLKSIZE at *
  omega

/-- The byte in `fsreq` is written to the start of the file `a`. -/
theorem write_then_read_first : ∃ s', (fileWrite sampleFile FSREQ 1 0).run onMachine
    (sampleMachine fun _ => 0) = (.ok 1, s') ∧
    ∃ s'', (fileRead sampleFile FSREQ 1 0).run onMachine s' = (.ok 1, s'') ∧
      s''.view.bytes FSREQ 1 = (sampleMachine fun _ => 0).view.bytes FSREQ 1 := by
  have hrun : (fileWrite sampleFile FSREQ 1 0).run onMachine (sampleMachine fun _ => 0) =
      (.ok (1 : Word).toInt, ((fileWrite sampleFile FSREQ 1 0).run onMachine (sampleMachine fun _ => 0)).2) :=
    Prod.ext rfl rfl
  have hmem := sample_mem fun _ => 0
  refine ⟨_, hrun, (write_then_read (sample_consistent _) ?_ ?_ ?_ (by decide) (noNewIndirect_direct (by decide))
    inMemory_fsreq inMemory_fsreq hrun).1⟩
  · rw [hmem]
    exact sample_reach _
  · rw [hmem]
    exact sample_regular _
  · rw [hmem, sample_fileSize]
    decide

/-- The file `a` gets a third block: byte 128 of the root directory, the first of the size of `a`,
does not read as before. -/
theorem write_changes_directory : ¬ ∀ (s s' : Machine) (f : FilePtr) (buf : Nat) (count offset : Word),
    Consistent s.mem → Reach s.mem f → s.mem f.blk (f.idx + 33) = FTYPE_REG →
    offset.toNat + count.toNat ≤ MAXFILESIZE →
    NoNewIndirect s.mem f offset.toNat (offset.toNat + count.toNat) → InMemory buf count.toNat →
    (fileWrite f buf count offset).run onMachine s = (.ok count.toInt, s') →
    ∀ g p, Reach s.mem g → g ≠ f → readByte s'.view g p = readByte s.view g p := by
  intro hall
  have hmem := sample_mem fun _ => 0
  have hrun : (fileWrite sampleFile FSREQ 1 8192).run onMachine (sampleMachine fun _ => 0) =
      (.ok (1 : Word).toInt, ((fileWrite sampleFile FSREQ 1 8192).run onMachine (sampleMachine fun _ => 0)).2) :=
    Prod.ext rfl rfl
  have hsame := hall _ _ sampleFile FSREQ 1 8192 (sample_consistent _) (hmem ▸ sample_reach _)
    (hmem ▸ sample_regular _) (by decide) (noNewIndirect_direct (by decide)) inMemory_fsreq hrun sRoot 128
    .root (by decide)
  have hbefore : readByte (sampleMachine fun _ => 0).view sRoot 128 = (.ok 1, 0) := rfl
  rw [hbefore] at hsame
  have hafter : (readByte ((fileWrite sampleFile FSREQ 1 8192).run onMachine
    (sampleMachine fun _ => 0)).2.view sRoot 128).2 = 1 := rfl
  rw [hsame] at hafter
  exact absurd hafter (by decide)

end SisOp.Fs
