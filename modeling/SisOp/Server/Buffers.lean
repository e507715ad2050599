/-
# `SisOp.Server.Buffers` — the request page as a transfer buffer

`serve_read` clamps the count a client asks for, `serve_write` does not: it stays in
`req_buf` exactly when no chunk of the transfer gets past the end of it
(`transfers_inside`).
-/
import SisOp.Server.Moves

namespace SisOp.Fs

open SisOp.Lib SisOp.Jos

/-- The destination lies in `ret_buf`. -/
def FillsRetBuf (m : Move) : Prop := FSREQ ≤ m.dst ∧ m.dst + m.len ≤ FSREQ + 4096

/-- The source lies in `req_buf`. -/
def TakesReqBuf (m : Move) : Prop := REQ_BUF ≤ m.src ∧ m.src + m.len ≤ REQ_BUF + REQ_BUF_SIZE

/-- `serve_read` transfers into the request page only. -/
def ReadInside (s : Server) : Prop := s.mach.Grown FillsRetBuf (serveRead s).2.mach

/-- `serve_write` transfers from `req_buf` only. -/
def WriteInside (s : Server) : Prop := s.mach.Grown TakesReqBuf (serveWrite s).2.mach

/-! ## `serve_read` -/

theorem minWord_le_left (a b : Word) : (minWord a b).toNat ≤ a.toNat := by
  unfold minWord
  split
  · exact le_rfl
  · exact (BitVec.lt_def.mp (BitVec.not_le.mp ‹_›)).le

theorem minWord_le_right (a b : Word) : (minWord a b).toNat ≤ b.toNat := by
  unfold minWord
  split
  · exact BitVec.le_def.mp ‹_›
  · exact le_rfl

/-- However the sum wraps, no more than `count` bytes lie between the offset and it. -/
theorem add_sub_le (offset count : Word) : (offset + count).toNat - offset.toNat ≤ count.toNat := by
  have hmod := Nat.mod_le (offset.toNat + count.toNat) (2 ^ 32)
  rw [BitVec.toNat_add]
  omega

theorem within_fileRead (f : FilePtr) (count offset : Word) (hcount : count.toNat ≤ 4096) :
    Within FillsRetBuf (fileRead f FSREQ count offset) := by
  refine .bind (Quiet.load _ _) fun size => ?_
  split
  · exact .pure _
  · refine .bind (Quiet.load _ _) fun size' => ?_
    have hmin := minWord_le_left count (size' - offset)
    have hstop := add_sub_le offset (minWord count (size' - offset))
    refine .bind (within_transfer FSREQ (FSREQ + 4096)
      (fun blk buf n hlo hhi => within_memmove ⟨hlo, hhi⟩) _ _ _ le_rfl (by omega)) fun r => ?_
    cases r <;> exact .pure _

theorem Server.run_mach {α : Type} (s : Server) (p : FsM α) :
    (s.run p).2.mach = (p.run onMachine s.mach).2 := rfl

theorem readInside (s : Server) : ReadInside s := by
  unfold ReadInside serveRead
  split
  · exact .refl _
  · rename_i i hi
    have hp : Within FillsRetBuf (do
        fileRead (← theFile (s.opentab i)) FSREQ s.readCount (s.fds i).fd.fdOffset) :=
      .bind (Quiet.theFile _ _) fun f => within_fileRead f _ _ (minWord_le_right s.reqN 4096)
    have hgrown := hp.grown s.mach
    rw [← s.run_mach] at hgrown
    simp only
    split
    · rename_i msg s' hrun
      rw [hrun] at hgrown
      exact hgrown
    · rename_i r s' hrun
      rw [hrun] at hgrown
      split <;> exact hgrown

/-! ## `serve_write` -/

/-- `file_write` up to its first block. -/
def firstBlock (f : FilePtr) (offset stop : Word) : FsM (Except Int Nat) := do
  let _ ← extend f stop
  fileGetBlock f (offset.sdiv 4096)

/-- `file_write` up to its second block. -/
def secondBlock (f : FilePtr) (buf : Nat) (offset stop : Word) : FsM (Except Int Nat) := do
  match ← firstBlock f offset stop with
  | .error r => return .error r
  | .ok blk =>
      let bn := chunkLen offset stop
      memmove (blkAddr blk (offset.srem 4096).toInt) buf bn.toNat
      fileGetBlock f ((offset + bn).sdiv 4096)

/-- The block is got. -/
def Gets (p : FsM (Except Int Nat)) (s : Machine) : Prop :=
  ∃ b s', p.run onMachine s = (.ok (.ok b), s')

theorem not_gets {p : FsM (Except Int Nat)} {s : Machine}
    (h : ∀ b, (p.run onMachine s).1 ≠ .ok (.ok b)) : ¬ Gets p s := by
  rintro ⟨b, s', hrun⟩
  exact h b (congrArg Prod.fst hrun)

/-- What keeps a write of `count` bytes at `offset` in `req_buf`. -/
def Clamped (s : Machine) (f : FilePtr) (count offset : Word) : Prop :=
  count.toNat ≤ REQ_BUF_SIZE ∨ offset + count ≤ offset ∨
    ¬ Gets (firstBlock f offset (offset + count)) s ∨
    (chunkLen offset (offset + count)).toNat ≤ REQ_BUF_SIZE ∧
      ¬ Gets (secondBlock f REQ_BUF offset (offset + count)) s

/-- The request of `serve_write` is refused, or it is clamped. -/
def WriteClamped (s : Server) : Prop :=
  ∀ i f, openfileLookup s s.reqFileid = some i → (s.opentab i).oFile = some f →
    Clamped s.mach f s.reqN (s.fds i).fd.fdOffset

/-- `file_set_size` returns 0, so that `extend` does. -/
theorem extend_bind {α : Type} (f : FilePtr) (stop : Word) (k : Int → FsM α) :
    (extend f stop >>= k) = extend f stop >>= fun _ => k 0 := by
  unfold extend
  simp only [Prog.bind_assoc]
  refine congrArg _ (funext fun size => ?_)
  split
  · unfold fileSetSize
    simp only [Prog.bind_assoc]
    refine congrArg _ (funext fun size' => ?_)
    split <;> simp only [Prog.bind_assoc, Prog.pure_bind]
  · simp only [Prog.pure_bind]

/-- The rest of `file_write` after its first block. -/
def writeRest (f : FilePtr) (buf : Nat) (count offset stop : Word) (blk : Nat) : FsM Int := do
  let bn := chunkLen offset stop
  memmove (blkAddr blk (offset.srem 4096).toInt) buf bn.toNat
  match ← transfer (fun blk buf n => memmove blk buf n) f stop (stop.toNat - offset.toNat - 1)
    (offset + bn) (buf + bn.toNat) with
  | .error r => return r
  | .ok () => return count.toInt

theorem fileWrite_first (f : FilePtr) (buf : Nat) {count offset : Word}
    (h : offset < offset + count) :
    fileWrite f buf count offset = (do
      match ← firstBlock f offset (offset + count) with
      | .error r => return r
      | .ok blk => writeRest f buf count offset (offset + count) blk) := by
  obtain ⟨n, hn⟩ : ∃ n, (offset + count).toNat - offset.toNat = n + 1 :=
    Nat.exists_eq_succ_of_ne_zero (by have := BitVec.lt_def.mp h; omega)
  unfold fileWrite firstBlock writeRest
  simp only
  rw [extend_bind, Prog.bind_assoc, hn]
  refine congrArg _ (funext fun _ => ?_)
  rw [if_neg (by decide), transfer, if_pos h, Prog.bind_assoc]
  refine congrArg _ (funext fun blk => ?_)
  cases blk with
  | error r => rfl
  | ok blk =>
      rw [Nat.add_sub_cancel]
      exact Prog.bind_assoc _ _ _

/-! ## Chunks -/

theorem toInt_srem_page (pos : Word) : (pos.srem 4096).toInt = pos.toInt.tmod 4096 :=
  BitVec.toInt_srem pos 4096

/-- What is left of the block of `pos`; more than a block at a negative position. -/
theorem toNat_room (pos : Word) :
    ((4096 - pos.srem 4096).toNat : Int) = 4096 - pos.toInt.tmod 4096 := by
  have hsrem := toInt_srem_page pos
  have hlo := Int.tmod_lt_of_pos pos.toInt (b := 4096) (by decide)
  have hhi := Int.lt_tmod_of_pos pos.toInt (b := 4096) (by decide)
  have hint : (4096 - pos.srem 4096).toInt = 4096 - pos.toInt.tmod 4096 := by
    rw [BitVec.toInt_sub, hsrem]
    exact Int.bmod_eq_of_le (by simp; omega) (by simp; omega)
  rw [← hint]
  exact (BitVec.toInt_eq_toNat_of_lt (by rw [BitVec.toInt_eq_toNat_cond] at hint; omega)).symm

theorem toNat_minWord (a b : Word) : (minWord a b).toNat = min a.toNat b.toNat := by
  unfold minWord
  split
  · exact (min_eq_left (BitVec.le_def.mp ‹_›)).symm
  · exact (min_eq_right (BitVec.lt_def.mp (BitVec.not_le.mp ‹_›)).le).symm

theorem toNat_chunkLen {pos stop : Word} (h : pos < stop) :
    (chunkLen pos stop).toNat = min (4096 - pos.srem 4096).toNat (stop.toNat - pos.toNat) := by
  unfold chunkLen
  rw [toNat_minWord, BitVec.toNat_sub_of_le (BitVec.le_of_lt h)]

theorem chunkLen_pos {pos stop : Word} (h : pos < stop) : 0 < (chunkLen pos stop).toNat := by
  have hroom := toNat_room pos
  have hlo := Int.tmod_lt_of_pos pos.toInt (b := 4096) (by decide)
  have hlt := BitVec.lt_def.mp h
  rw [toNat_chunkLen h]
  omega

/-- Two chunks of a long transfer do not fit in `req_buf`. -/
theorem second_chunk {pos stop : Word} (h : pos < stop)
    (hlong : REQ_BUF_SIZE < stop.toNat - pos.toNat)
    (hfirst : (chunkLen pos stop).toNat ≤ REQ_BUF_SIZE) :
    pos + chunkLen pos stop < stop ∧
      REQ_BUF_SIZE < (chunkLen pos stop).toNat + (chunkLen (pos + chunkLen pos stop) stop).toNat := by
  have hsize : REQ_BUF_SIZE = 4088 := rfl
  have hroom := toNat_room pos
  have hchunk := toNat_chunkLen h
  have hadd := add_chunkLen h
  have hnext : pos + chunkLen pos stop < stop := BitVec.lt_def.mpr (by omega)
  have hroom' := toNat_room (pos + chunkLen pos stop)
  have hchunk' := toNat_chunkLen hnext
  have hint := BitVec.toInt_eq_toNat_cond pos
  have hint' := BitVec.toInt_eq_toNat_cond (pos + chunkLen pos stop)
  have hpos : (0 : Int) ≤ pos.toInt := by
    by_contra hneg
    have hneg' := Int.tmod_nonneg 4096 (Int.neg_nonneg_of_nonpos (Int.not_le.mp hneg).le)
    rw [Int.neg_tmod] at hneg'
    omega
  have haligned : (pos + chunkLen pos stop).toInt.tmod 4096 = 0 := by
    rw [Int.tmod_eq_emod_of_nonneg hpos] at hroom
    refine Int.tmod_eq_zero_of_dvd ?_
    omega
  refine ⟨hnext, ?_⟩
  rw [haligned] at hroom'
  omega

/-- The same for the second block. -/
theorem writeRest_second (f : FilePtr) (buf : Nat) (count : Word) {offset stop : Word} (blk : Nat)
    (hlt : offset < stop) (h : offset + chunkLen offset stop < stop) :
    ∃ rest : Nat → Unit → FsM Int, writeRest f buf count offset stop blk = (do
      memmove (blkAddr blk (offset.srem 4096).toInt) buf (chunkLen offset stop).toNat
      match ← fileGetBlock f ((offset + chunkLen offset stop).sdiv 4096) with
      | .error r => return r
      | .ok blk =>
          memmove (blkAddr blk ((offset + chunkLen offset stop).srem 4096).toInt)
            (buf + (chunkLen offset stop).toNat)
            (chunkLen (offset + chunkLen offset stop) stop).toNat >>= rest blk) := by
  have hadd := add_chunkLen hlt
  have hpos := chunkLen_pos hlt
  have hlt' := BitVec.lt_def.mp h
  obtain ⟨n, hn⟩ : ∃ n, stop.toNat - offset.toNat - 1 = n + 1 :=
    Nat.exists_eq_succ_of_ne_zero (by omega)
  refine ⟨fun blk' _ => do
    let next := offset + chunkLen offset stop
    match ← transfer (fun blk buf n => memmove blk buf n) f stop n (next + chunkLen next stop)
      (buf + (chunkLen offset stop).toNat + (chunkLen next stop).toNat) with
    | .error r => return r
    | .ok () => return count.toInt, ?_⟩
  unfold writeRest
  simp only
  rw [hn, transfer, if_pos h]
  refine congrArg _ (funext fun _ => ?_)
  rw [Prog.bind_assoc]
  refine congrArg _ (funext fun blk => ?_)
  cases blk with
  | error r => rfl
  | ok blk => exact Prog.bind_assoc _ _ _

/-! ## The transfer -/

theorem within_fileWrite (f : FilePtr) {count offset : Word}
    (h : (offset + count).toNat - offset.toNat ≤ REQ_BUF_SIZE) :
    Within TakesReqBuf (fileWrite f REQ_BUF count offset) := by
  refine .bind (Quiet.extend f _ _) fun r => ?_
  split
  · exact .pure _
  · refine .bind (within_transfer REQ_BUF (REQ_BUF + REQ_BUF_SIZE)
      (fun blk buf n hlo hhi => within_memmove ⟨hlo, hhi⟩) _ _ _ le_rfl (by omega)) fun r => ?_
    cases r <;> exact .pure _

theorem takesReqBuf_start {dst len : Nat} (h : len ≤ REQ_BUF_SIZE) : TakesReqBuf ⟨dst, REQ_BUF, len⟩ := by
  refine ⟨le_rfl, ?_⟩
  show REQ_BUF + len ≤ REQ_BUF + REQ_BUF_SIZE
  omega

theorem Quiet.firstBlock (f : FilePtr) (offset stop : Word) : Quiet (firstBlock f offset stop) :=
  .bind (.extend f stop) fun _ => .fileGetBlock f _

variable {s s' : Machine} {f : FilePtr} {count offset stop : Word} {blk : Nat}

/-- After the first block: the transfer stays in the buffer if its first chunk does, and there is
no second block. -/
theorem writeRest_inside_iff (hlt : offset < stop)
    (hlong : REQ_BUF_SIZE < stop.toNat - offset.toNat)
    (hfirst : (firstBlock f offset stop).run onMachine s = (.ok (.ok blk), s')) :
    s'.Grown TakesReqBuf ((writeRest f REQ_BUF count offset stop blk).run onMachine s').2 ↔
      (chunkLen offset stop).toNat ≤ REQ_BUF_SIZE ∧
        ¬ Gets (secondBlock f REQ_BUF offset stop) s := by
  by_cases hchunk : (chunkLen offset stop).toNat ≤ REQ_BUF_SIZE
  · obtain ⟨hnext, htwo⟩ := second_chunk hlt hlong hchunk
    obtain ⟨rest, hrest⟩ := writeRest_second f REQ_BUF count blk hlt hnext
    have hmove : Within TakesReqBuf (memmove (blkAddr blk (offset.srem 4096).toInt) REQ_BUF
        (chunkLen offset stop).toNat) := within_memmove (takesReqBuf_start hchunk)
    have hgrown := hmove.grown s'
    have hsecond : (secondBlock f REQ_BUF offset stop).run onMachine s =
        (memmove (blkAddr blk (offset.srem 4096).toInt) REQ_BUF (chunkLen offset stop).toNat >>=
          fun _ => fileGetBlock f ((offset + chunkLen offset stop).sdiv 4096)).run onMachine s' := by
      unfold secondBlock
      rw [Prog.run_bind_ok hfirst]
    rw [hrest, Prog.run_bind]
    unfold Gets
    rw [hsecond, Prog.run_bind]
    rcases hrun : (memmove (blkAddr blk (offset.srem 4096).toInt) REQ_BUF
      (chunkLen offset stop).toNat).run onMachine s' with ⟨e | u, s1⟩
    · rw [hrun] at hgrown
      exact ⟨fun _ => ⟨hchunk, by simp⟩, fun _ => hgrown⟩
    · rw [hrun] at hgrown
      simp only
      rw [Prog.run_bind]
      have hquiet := (Quiet.fileGetBlock f ((offset + chunkLen offset stop).sdiv 4096)).moves s1
      rcases hget : (fileGetBlock f ((offset + chunkLen offset stop).sdiv 4096)).run onMachine s1
        with ⟨e | b, s2⟩
      · rw [hget] at hquiet
        exact ⟨fun _ => ⟨hchunk, by simp⟩, fun _ => hgrown.trans (.of_eq hquiet)⟩
      · rw [hget] at hquiet
        cases b with
        | error r => exact ⟨fun _ => ⟨hchunk, by simp⟩, fun _ => hgrown.trans (.of_eq hquiet)⟩
        | ok blk' =>
            refine ⟨fun hall => ?_, fun hno => (hno.2 ⟨blk', s2, rfl⟩).elim⟩
            have hsplit := (hgrown.trans (.of_eq hquiet)).mono (fun _ _ => trivial)
            refine (not_grown_memmove (rest blk') (fun hin => ?_) (hsplit.split (moves_grow _ s2) hall).2).elim
            have := hin.2
            simp only at this
            omega
  · refine ⟨fun hall => ?_, fun hno => (hchunk hno.1).elim⟩
    refine (not_grown_memmove _ (fun hin => hchunk ?_) hall).elim
    have := hin.2
    simp only at this
    omega

theorem fileWrite_inside_iff :
    s.Grown TakesReqBuf ((fileWrite f REQ_BUF count offset).run onMachine s).2 ↔
      Clamped s f count offset := by
  unfold Clamped
  have hle := add_sub_le offset count
  by_cases hcount : count.toNat ≤ REQ_BUF_SIZE
  · exact ⟨fun _ => .inl hcount, fun _ => (within_fileWrite f (by omega)).grown s⟩
  · by_cases hwrap : offset + count ≤ offset
    · have := BitVec.le_def.mp hwrap
      exact ⟨fun _ => .inr (.inl hwrap), fun _ => (within_fileWrite f (by omega)).grown s⟩
    · have hlt := BitVec.not_le.mp hwrap
      have hlong : (offset + count).toNat - offset.toNat = count.toNat := by
        have := BitVec.lt_def.mp hlt
        rw [BitVec.toNat_add] at this ⊢
        omega
      have hquiet := (Quiet.firstBlock f offset (offset + count)).moves s
      rw [fileWrite_first f REQ_BUF hlt, Prog.run_bind]
      simp only [hcount, hwrap, false_or]
      rcases hfirst : (firstBlock f offset (offset + count)).run onMachine s with ⟨e | b, s1⟩
      · rw [hfirst] at hquiet
        exact ⟨fun _ => .inl (by simp [Gets, hfirst]), fun _ => .of_eq hquiet⟩
      · rw [hfirst] at hquiet
        cases b with
        | error r => exact ⟨fun _ => .inl (by simp [Gets, hfirst]), fun _ => .of_eq hquiet⟩
        | ok blk =>
            have hgets : Gets (firstBlock f offset (offset + count)) s := ⟨blk, s1, hfirst⟩
            simp only [hgets, not_true_eq_false, false_or]
            rw [Machine.Grown.congr_left hquiet.symm]
            exact writeRest_inside_iff hlt (by omega) hfirst

/-! ## Both handlers -/

theorem theFile_some {o : OpenFile} {f : FilePtr} (h : o.oFile = some f) : theFile o = return f := by
  unfold theFile
  rw [h]

theorem theFile_none {o : OpenFile} (h : o.oFile = none) : theFile o = panic "page fault in FS" := by
  unfold theFile
  rw [h]

/-- The calls of `serve_write` are those of `file_write`. -/
theorem serveWrite_moves {s : Server} {i : Fin MAXOPEN} {f : FilePtr}
    (hlook : openfileLookup s s.reqFileid = some i) (hfile : (s.opentab i).oFile = some f) :
    (serveWrite s).2.mach.moves =
      ((fileWrite f REQ_BUF s.reqN (s.fds i).fd.fdOffset).run onMachine s.mach).2.moves := by
  unfold serveWrite Server.run
  simp only [hlook, theFile_some hfile, Prog.pure_bind]
  rcases hrun : (fileWrite f REQ_BUF s.reqN (s.fds i).fd.fdOffset).run onMachine s.mach with ⟨e | r, m⟩
  · rfl
  · simp only [theFile_some hfile, Prog.pure_bind]
    have hquiet := (Quiet.growTo f ((s.fds i).fd.fdOffset + BitVec.ofInt 32 r)).moves m
    split
    · rfl
    · rcases hgrow : (growTo f ((s.fds i).fd.fdOffset + BitVec.ofInt 32 r)).run onMachine m
        with ⟨e | u, m'⟩ <;> rw [hgrow] at hquiet <;> exact hquiet

theorem writeInside_iff (s : Server) : WriteInside s ↔ WriteClamped s := by
  unfold WriteInside WriteClamped
  rcases hlook : openfileLookup s s.reqFileid with _ | i
  · refine ⟨fun _ i f h => (by cases h), fun _ => ?_⟩
    unfold serveWrite
    rw [hlook]
    exact .refl _
  · rcases hfile : (s.opentab i).oFile with _ | f
    · refine ⟨fun _ j f h hf => ?_, fun _ => ?_⟩
      · cases h
        rw [hfile] at hf
        cases hf
      · unfold serveWrite Server.run
        simp only [hlook, theFile_none hfile]
        exact .refl _
    · rw [Machine.Grown.congr_right (serveWrite_moves hlook hfile), fileWrite_inside_iff]
      refine ⟨fun h j g hj hg => ?_, fun h => h i f rfl hfile⟩
      cases hj
      cases hfile.symm.trans hg
      exact h

/-- A disk of 16 blocks with one file `a` of two blocks, 4 and 5; the blocks from 6 on are free, and
hold what `stale` says. -/
def sampleDisk (stale : Block) : Nat → Block
  | 0 => fun _ => 0
  | 1 => fun i =>
      if i = 0 then 0x4A0530AE else if i = 1 then 16 else if i = 2 then 0x2F
      else if i = 34 then 4096 else if i = 35 then FTYPE_DIR else if i = 36 then 3 else 0
  | 2 => fun i => if i = 0 then 0xFFC0 else 0
  | 3 => fun i =>
      if i = 0 then 0x61 else if i = 32 then 8192 else if i = 34 then 4 else if i = 35 then 5 else 0
  | 4 => fun _ => 0x61616161
  | 5 => fun _ => 0x62626262
  | _ => stale

/-- The blocks up to the directory have been read in. -/
def sampleMachine (stale : Block) : Machine where
  disk := sampleDisk stale
  cache := fun b => if b ≤ 3 then some ⟨sampleDisk stale b, false⟩ else none
  req := fun _ => 0
  own := fun _ => 0
  moves := []
  written := []

def sampleFile : FilePtr := ⟨3, 0⟩

/-- File `a` is open at `offset`, with a request of `n` bytes. -/
def sampleServer (n offset : Word) : Server where
  mach := { sampleMachine (fun _ => 0) with req := fun i => if i = 0 then 1024 else if i = 1 then n else 0 }
  opentab := fun i => if i = 0 then ⟨1024, some sampleFile, 2⟩ else ⟨BitVec.ofNat 32 i, none, 0⟩
  fds := fun i => if i = 0 then ⟨⟨devfileId, offset, 2, 1024⟩, true, 1⟩ else ⟨.zero, false, 0⟩

end SisOp.Fs
