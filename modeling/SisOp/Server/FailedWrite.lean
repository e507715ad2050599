/-
# `SisOp.Server.FailedWrite` — a write that returns an error

`file_write` sets the size before it has any block, and takes nothing back: when a
block cannot be had the file keeps its new size, and the chunks before that block.  A
later `stat` replies with the new size.
-/
import SisOp.Server.ReadWrite
import SisOp.Server.Serve

namespace SisOp.Fs

open SisOp.Lib SisOp.Jos

/-! ## `strcpy` -/

section

variable {v : View} {dst src k fuel va : Nat} {R : Nat → Prop} {f : FilePtr}

theorem mem_setByte_private (h : Private va) (b : Byte) : (v.setByte va b).mem = v.mem := by
  refine @mem_setBytes_private v va [b] fun i hi => ?_
  have hi0 : i = 0 := by simpa using hi
  rwa [hi0]

/-- A string with its null byte is copied to the program's own memory, and its blocks are
touched. -/
theorem run_strcpy (hk : k < fuel) (hne : ∀ i < k, v.byteAt (src + i) ≠ 0) (h0 : v.byteAt (src + k) = 0)
    (hsrc : ∀ i, i ≤ k → Mapped (src + i) ∧ ¬ Private (src + i))
    (hdst : ∀ i, i ≤ k → Private (dst + i)) (hR : ∀ i, i ≤ k → ∀ b, InBlock (src + i) b → R b) :
    ∃ v', (strcpy fuel dst src).run onView v = (.ok (), v') ∧ v'.mem = v.mem ∧
      Prog.Covered onView (Only R) (strcpy fuel dst src) v := by
  induction k generalizing v dst src fuel with
  | zero =>
      obtain ⟨fuel, rfl⟩ := Nat.exists_eq_succ_of_ne_zero hk.ne'
      have hbyte : v.byteAt src = 0 := h0
      have hsrc0 : Mapped src := (hsrc 0 le_rfl).1
      have hdst0 : Private dst := hdst 0 le_rfl
      refine ⟨v.setByte dst 0, ?_, mem_setByte_private hdst0 0, ?_⟩
      · rw [strcpy, Prog.run_bind_ok (run_loadByte hsrc0), Prog.run_bind_ok (run_storeByte hdst0.mapped),
          if_pos hbyte, hbyte]
        rfl
      · rw [strcpy]
        refine Prog.covered_bind.mpr ⟨covered_loadByte (hR 0 le_rfl), fun b v1 hrun => ?_⟩
        rw [run_loadByte hsrc0] at hrun
        cases hrun
        refine Prog.covered_bind.mpr ⟨covered_storeByte _ fun b hb => absurd hb hdst0.not_inBlock,
          fun _ _ _ => ?_⟩
        rw [if_pos hbyte]
        exact Prog.covered_pure _
  | succ k ih =>
      obtain ⟨fuel, rfl⟩ := Nat.exists_eq_succ_of_ne_zero (Nat.ne_zero_of_lt hk)
      have hfirst : v.byteAt src ≠ 0 := hne 0 (by omega)
      have hsrc0 : Mapped src := (hsrc 0 (by omega)).1
      have hdst0 : Private dst := hdst 0 (by omega)
      have hbytes : ∀ i, i ≤ k + 1 →
          (v.setByte dst (v.byteAt src)).byteAt (src + i) = v.byteAt (src + i) := fun i hi => by
        have hne' : src + i ≠ dst := fun heq => (hsrc i hi).2 (heq ▸ hdst0)
        rw [View.byteAt_setByte hdst0.mapped, if_neg hne']
      have hshift : ∀ a i, a + 1 + i = a + (i + 1) := fun a i => by omega
      have hrest : ∃ v', (strcpy fuel (dst + 1) (src + 1)).run onView (v.setByte dst (v.byteAt src)) =
          (.ok (), v') ∧ v'.mem = (v.setByte dst (v.byteAt src)).mem ∧ Prog.Covered onView (Only R)
            (strcpy fuel (dst + 1) (src + 1)) (v.setByte dst (v.byteAt src)) := by
        refine ih (by omega) (fun i hi => ?_) ?_ (fun i hi => ?_) (fun i hi => ?_) fun i hi => ?_
        · rw [hshift, hbytes _ (by omega)]
          exact hne (i + 1) (by omega)
        · rw [hshift, hbytes _ le_rfl]
          exact h0
        · exact hshift src i ▸ hsrc (i + 1) (by omega)
        · exact hshift dst i ▸ hdst (i + 1) (by omega)
        · exact hshift src i ▸ hR (i + 1) (by omega)
      obtain ⟨v', hrun, hmem, hcov⟩ := hrest
      refine ⟨v', ?_, hmem.trans (mem_setByte_private hdst0 _), ?_⟩
      · rw [strcpy, Prog.run_bind_ok (run_loadByte hsrc0), Prog.run_bind_ok (run_storeByte hdst0.mapped),
          if_neg hfirst, hrun]
      · rw [strcpy]
        refine Prog.covered_bind.mpr ⟨covered_loadByte (hR 0 (by omega)), fun b v1 hrun' => ?_⟩
        rw [run_loadByte hsrc0] at hrun'
        cases hrun'
        refine Prog.covered_bind.mpr ⟨covered_storeByte _ fun b hb => absurd hb hdst0.not_inBlock,
          fun _ v2 hrun'' => ?_⟩
        rw [run_storeByte hdst0.mapped] at hrun''
        cases hrun''
        rw [if_neg hfirst]
        exact hcov

/-! ## `stat` -/

/-- Byte `k` of `f_name`. -/
def nameAt (mem : Nat → Block) (f : FilePtr) (k : Nat) : Byte :=
  byteOf (mem f.blk (f.idx + k / 4)) (k % 4)

/-- `f_name` has its null byte. -/
def Named (mem : Nat → Block) (f : FilePtr) : Prop := ∃ k < MAXNAMELEN, nameAt mem f k = 0

theorem byteAt_name (hblk : f.blk < DISKSIZE / BLKSIZE) (hidx : f.idx + 64 ≤ 1024) (hk : k < MAXNAMELEN) :
    v.byteAt (diskVa f.blk (4 * f.idx) + k) = nameAt v.mem f k := by
  have hname : MAXNAMELEN = 128 := rfl
  have hsize : BLKSIZE = 4096 := rfl
  rw [diskVa_add, byteAt_disk hblk (by omega), show (4 * f.idx + k) / 4 = f.idx + k / 4 by omega,
    show (4 * f.idx + k) % 4 = k % 4 by omega]
  rfl

/-- The reply to `stat`: the size. -/
theorem run_statFile (hblk : f.blk < DISKSIZE / BLKSIZE) (hidx : f.idx + 64 ≤ 1024)
    (hname : Named v.mem f) (hR : R f.blk) :
    ∃ v', (statFile f).run onView v = (.ok (), v') ∧ v'.req 32 = fileSize v.mem f ∧ v'.mem = v.mem ∧
      Prog.Covered onView (Only R) (statFile f) v := by
  have hlen : MAXNAMELEN = 128 := rfl
  have hsize : BLKSIZE = 4096 := rfl
  -- the length of the name
  obtain ⟨k, ⟨hk, h0⟩, hmin⟩ : ∃ k, (k < MAXNAMELEN ∧ nameAt v.mem f k = 0) ∧
      ∀ i < k, ¬ (i < MAXNAMELEN ∧ nameAt v.mem f i = 0) := by
    have hex : ∃ k, k < MAXNAMELEN ∧ nameAt v.mem f k = 0 := hname
    exact ⟨Nat.find hex, Nat.find_spec hex, fun i hi => Nat.find_min hex hi⟩
  have haddr : blkAddr f.blk (4 * (f.idx : Int)) = diskVa f.blk (4 * f.idx) := by
    rw [blkAddr_of_nonneg (by omega)]
    rfl
  have hcopy : ∃ v', (strcpy DISKSIZE FSREQ (diskVa f.blk (4 * f.idx))).run onView v = (.ok (), v') ∧
      v'.mem = v.mem ∧
      Prog.Covered onView (Only R) (strcpy DISKSIZE FSREQ (diskVa f.blk (4 * f.idx))) v := by
    refine run_strcpy (k := k) (hk.trans (by decide)) (fun i hi => ?_) ?_ (fun i hi => ?_) (fun i hi => ?_)
      fun i hi b hb => ?_
    · rw [byteAt_name hblk hidx (hi.trans hk)]
      exact fun hzero => hmin i hi ⟨hi.trans hk, hzero⟩
    · rw [byteAt_name hblk hidx hk]
      exact h0
    · rw [diskVa_add]
      exact ⟨mapped_diskVa hblk (by omega), fun hpriv => hpriv.ne_diskVa rfl⟩
    · unfold Private UTEXT FSREQ DISKMAP
      omega
    · rw [diskVa_add] at hb
      rw [inBlock_diskVa (by omega) hb]
      exact hR
  obtain ⟨v1, hrun, hmem, hcov⟩ := hcopy
  have hload : (load f.fSize).run onView v1 = (.ok (fileSize v.mem f), v1) := by
    rw [run_load, ← hmem]
    rfl
  unfold statFile
  rw [haddr, Prog.run_bind_ok hrun, Prog.run_bind_ok hload, Prog.run_bind_ok (run_store _ _ _),
    Prog.run_bind_ok (run_load _ _), run_store]
  refine ⟨_, rfl, ?_, hmem, ?_⟩
  · simp [View.set]
  · refine Prog.covered_bind.mpr ⟨hcov, fun _ v2 hrun2 => ?_⟩
    refine Prog.covered_bind.mpr ⟨Prog.covered_cmd.mpr (only_disk hR _), fun _ _ _ => ?_⟩
    refine Prog.covered_bind.mpr ⟨Prog.covered_cmd.mpr fun _ h => h.elim, fun _ _ _ => ?_⟩
    exact Prog.covered_bind.mpr ⟨Prog.covered_cmd.mpr (only_disk hR _), fun _ _ _ =>
      Prog.covered_cmd.mpr fun _ h => h.elim⟩

end

/-! ## The failure -/

section

variable {mem : Nat → Block} {F : FilePtr → Prop} {f : FilePtr}

/-- Where a `File` lies on the disk. -/
theorem Owned.struct_bounds (h : Owned mem F) (hf : F f) :
    f.blk < DISKSIZE / BLKSIZE ∧ f.idx + 64 ≤ 1024 := by
  rcases h.place_cases hf with rfl | ⟨-, ⟨j, hj, hidx⟩, d, k, hd, -, h0, hblk⟩
  · decide
  · have hfiles : BLKFILES = 16 := rfl
    exact ⟨hblk ▸ h.block_lt hd h0, by omega⟩

/-- Why a block could not be had for position `n`. -/
inductive NoBlock (mem : Nat → Block) (f : FilePtr) (n : Nat) : Int → Prop
  | range (hn : MAXFILESIZE ≤ n) : NoBlock mem f n (-E_INVAL)
  | full (hn : n < MAXFILESIZE) (h0 : fileBlock mem f (n / BLKSIZE) = 0) (hfull : firstFree mem = none) :
      NoBlock mem f n (-E_NO_DISK)

variable {s s' : Machine} {buf : Nat} {count offset : Word} {r : Int}

/-- A `file_write` that fails does so at some position, for which there is no block: the file has its
new size, and a later `stat` says so; the bytes before the position have been written, and the other
bytes of allocated blocks are what they were. -/
theorem failed_write (hcons : Consistent s.mem) (hf : Reach s.mem f)
    (hreg : s.mem f.blk (f.idx + 33) = FTYPE_REG) (hname : Named s.mem f) (hoff : 0 ≤ offset.toInt)
    (hind : NoNewIndirect s.mem f offset.toNat (offset.toNat + count.toNat))
    (hbuf : InMemory buf count.toNat) (hneg : r < 0)
    (hrun : (fileWrite f buf count offset).run onMachine s = (.ok r, s')) :
    ∃ n, offset.toNat ≤ n ∧ n < offset.toNat + count.toNat ∧ NoBlock s'.mem f n r ∧
      (fileSize s'.mem f).toNat = max (fileSize s.mem f).toNat (offset.toNat + count.toNat) ∧
      (∃ s'', (statFile f).run onMachine s' = (.ok (), s'') ∧ s''.req 32 = fileSize s'.mem f) ∧
      (∀ p, offset.toNat ≤ p → p < n → fileBlock s'.mem f (p / BLKSIZE) ≠ 0 ∧
        fileByte s'.mem f p = s.view.byteAt (buf + (p - offset.toNat))) ∧
      ∀ p, fileBlock s.mem f (p / BLKSIZE) ≠ 0 → p < offset.toNat ∨ n ≤ p →
        fileBlock s'.mem f (p / BLKSIZE) = fileBlock s.mem f (p / BLKSIZE) ∧
          fileByte s'.mem f p = fileByte s.mem f p := by
  have hreg' : ¬ IsDir s.view.mem f := fun hdir => by
    have hne := hreg.symm.trans hdir
    revert hne
    decide
  have hcons' : Owned s.view.mem (Reach s.mem) := hcons
  have hcount := hbuf.lt
  have hsmall : offset.toNat < 2 ^ 31 := by
    have hcond := BitVec.toInt_eq_toNat_cond offset
    omega
  have hstop : (offset + count).toNat = offset.toNat + count.toNat := by
    rw [BitVec.toNat_add, Nat.mod_eq_of_lt (by omega)]
  have hext : Owned (s.view.extended f (offset + count)).mem (Reach s.mem) := hcons'.extended hf
  have hview := abstracts.run_ok hrun
  obtain ⟨hR, hend⟩ := run_fileWrite_view hcons' hf hreg' hsmall hbuf hind (covered_of_machine hrun)
  -- what holds at the position where it failed
  have hall : ∀ n, n < offset.toNat + count.toNat →
      Writing (Reach s.mem) f offset.toNat buf (s.view.extended f (offset + count)) n s'.view →
      (fileSize s'.mem f).toNat = max (fileSize s.mem f).toNat (offset.toNat + count.toNat) ∧
      (∃ s'', (statFile f).run onMachine s' = (.ok (), s'') ∧ s''.req 32 = fileSize s'.mem f) ∧
      (∀ p, offset.toNat ≤ p → p < n → fileBlock s'.mem f (p / BLKSIZE) ≠ 0 ∧
        fileByte s'.mem f p = s.view.byteAt (buf + (p - offset.toNat))) ∧
      ∀ p, fileBlock s.mem f (p / BLKSIZE) ≠ 0 → p < offset.toNat ∨ n ≤ p →
        fileBlock s'.mem f (p / BLKSIZE) = fileBlock s.mem f (p / BLKSIZE) ∧
          fileByte s'.mem f p = fileByte s.mem f p := by
    intro n hn hw
    have hlen : (fileSize s'.mem f).toNat = max (fileSize s.mem f).toNat (offset.toNat + count.toNat) := by
      have hsame : fileSize s'.mem f = _ := hw.fileSize_eq hf
      rw [hsame, fileSize_extended, hstop]
      rfl
    refine ⟨hlen, ?_, fun p hlo hhi => ?_, fun p h0 hpos => ?_⟩
    · obtain ⟨hblk, hidx⟩ := hcons'.struct_bounds hf
      have hname' : Named s'.view.mem f := by
        obtain ⟨k, hk, h0⟩ := hname
        have hk' : k < 128 := hk
        refine ⟨k, hk, ?_⟩
        unfold nameAt at *
        rw [hw.field f (k / 4) hf (by omega) fun _ => .inl (by omega),
          hcons'.field_extended hf hf (by omega) fun _ => by omega]
        exact h0
      obtain ⟨w, hstat, hreq, -, hcov⟩ := run_statFile hblk hidx hname' hR
      obtain ⟨s'', hrun'', rfl⟩ := run_of_resident hcov (fun _ => id) hstat
      exact ⟨s'', hrun'', hreq⟩
    · obtain ⟨h0, hbyte⟩ := hw.written p hlo hhi
      exact ⟨h0, hbyte.trans (byteAt_extended (hbuf _ (by omega)) f _)⟩
    · have h0' : fileBlock (s.view.extended f (offset + count)).mem f (p / BLKSIZE) ≠ 0 := by
        rw [hcons'.fileBlock_extended hf hf]
        exact h0
      have hbyte := hw.rest f p hf h0' (fun _ => hpos)
        (hext.not_inStruct hf (mt (hcons'.isDir_extended hf hf).mp hreg') hf h0' _)
      rw [hcons'.fileByte_extended hf hf (hcons'.not_inStruct hf hreg' hf h0 _)] at hbyte
      exact ⟨(hw.keeps _ h0').trans (hcons'.fileBlock_extended hf hf), hbyte⟩
  cases hend with
  | ok hrun' hw ht =>
      rw [hview] at hrun'
      cases hrun'
      rw [toInt_of_lt (by omega)] at hneg
      omega
  | @error e n v' hrun' hlo hhi hfails =>
      rw [hview] at hrun'
      cases hrun'
      refine ⟨n, hlo, hhi, ?_⟩
      cases hfails with
      | range hw hn => exact ⟨.range hn, hall n hhi hw⟩
      | full hw hn h0 hfull => exact ⟨.full hn h0 hfull, hall n hhi hw⟩

end

/-! ## A write past the largest file -/

theorem sample_named (stale : Block) : Named (sampleDisk stale) sampleFile := by
  have hword : sampleDisk stale sampleFile.blk (sampleFile.idx + 1 / 4) = 0x61 := rfl
  refine ⟨1, by decide, ?_⟩
  unfold nameAt
  rw [hword]
  decide

/-- A byte at the offset `MAXFILESIZE` of the file `a`. -/
theorem failed_write_sample : ∃ s' n, (fileWrite sampleFile FSREQ 1 4235264).run onMachine
    (sampleMachine fun _ => 0) = (.ok (-E_INVAL), s') ∧ NoBlock s'.mem sampleFile n (-E_INVAL) := by
  have hmem := sample_mem fun _ => 0
  have hrun : (fileWrite sampleFile FSREQ 1 4235264).run onMachine (sampleMachine fun _ => 0) =
      (.ok (-E_INVAL), ((fileWrite sampleFile FSREQ 1 4235264).run onMachine (sampleMachine fun _ => 0)).2) :=
    Prod.ext rfl rfl
  have hind : NoNewIndirect (sampleMachine fun _ => 0).mem sampleFile (4235264 : Word).toNat
      ((4235264 : Word).toNat + (1 : Word).toNat) := by
    have hoff : (4235264 : Word).toNat = 4235264 := rfl
    refine .inl fun p hlo _ => .inr (.inr ?_)
    have hval : NDIRECT + NINDIRECT = 1034 := rfl
    unfold BLKSIZE
    omega
  obtain ⟨n, -, -, hno, -⟩ := failed_write (sample_consistent _) (hmem ▸ sample_reach _)
    (hmem ▸ sample_regular _) (hmem ▸ sample_named _) (by decide) hind inMemory_fsreq (by decide) hrun
  exact ⟨_, n, hrun, hno⟩

/-- A byte at the offset `MAXFILESIZE`: the write fails, and the file has grown all the same. -/
theorem failed_write_past_end : ¬ ∀ (s s' : Machine) (f : FilePtr) (buf : Nat) (count offset : Word) (r : Int),
    Consistent s.mem → Reach s.mem f → s.mem f.blk (f.idx + 33) = FTYPE_REG → 0 ≤ offset.toInt →
    InMemory buf count.toNat → r < 0 →
    (fileWrite f buf count offset).run onMachine s = (.ok r, s') →
    fileSize s'.mem f = fileSize s.mem f := by
  intro hall
  have hmem := sample_mem fun _ => 0
  have hrun : (fileWrite sampleFile FSREQ 1 4235264).run onMachine (sampleMachine fun _ => 0) =
      (.ok (-E_INVAL), ((fileWrite sampleFile FSREQ 1 4235264).run onMachine (sampleMachine fun _ => 0)).2) :=
    Prod.ext rfl rfl
  have hsame := hall _ _ sampleFile FSREQ 1 4235264 _ (sample_consistent _) (hmem ▸ sample_reach _)
    (hmem ▸ sample_regular _) (by decide) inMemory_fsreq (by decide) hrun
  have hafter : fileSize ((fileWrite sampleFile FSREQ 1 4235264).run onMachine
    (sampleMachine fun _ => 0)).2.mem sampleFile = 4235265 := rfl
  rw [hafter, hmem, sample_fileSize] at hsame
  exact absurd hsame (by decide)

end SisOp.Fs
