/-
# `SisOp.Server.Requests` — reading and writing on a sound disk

`file_read`, `file_write`, `file_flush`, `fs_sync` and `stat` leave a sound disk sound,
whether they succeed or not.  A write goes to a regular file, and its end is in range;
the indirect block that it takes is blank.
-/
import SisOp.Server.GetBlock

namespace SisOp.Fs

open SisOp.Lib SisOp.Jos

/-! ## Copies -/

section

variable {v v' : View} {va dst src n : Nat} {bs : List Byte}

theorem loadByte_ok {b : Byte} (h : (loadByte va).run onView v = (.ok b, v')) : v' = v := by
  unfold loadByte at h
  split at h
  · cases h
  · cases h
    rfl

theorem loadBytes_ok (h : (loadBytes va n).run onView v = (.ok bs, v')) : v' = v ∧ bs.length = n := by
  induction n generalizing va bs v' with
  | zero =>
      cases h
      exact ⟨rfl, rfl⟩
  | succ n ih =>
      obtain ⟨b, v1, hb, hrun⟩ := Prog.bind_ok h
      rw [loadByte_ok hb] at hrun
      obtain ⟨rest, v2, hrest, hret⟩ := Prog.bind_ok hrun
      obtain ⟨rfl, hlen⟩ := ih hrest
      cases hret
      exact ⟨rfl, by rw [List.length_cons, hlen]⟩

theorem storeBytes_ok (h : (storeBytes va bs).run onView v = (.ok (), v')) : v' = v.setBytes va bs := by
  induction bs generalizing va v with
  | nil =>
      cases h
      rfl
  | cons b bs ih =>
      obtain ⟨_, v1, hb, h⟩ := Prog.bind_ok h
      have hfirst : v1 = v.setByte va b := by
        cases hc : cellOf va with
        | none =>
            rw [storeByte, hc] at hb
            cases hb
        | some c =>
            rw [storeByte, hc] at hb
            cases hb
            rw [View.setByte, hc]
      rw [ih h, hfirst]
      rfl

/-- A `memmove` that returns has stored so many bytes. -/
theorem memmove_ok (h : (memmove dst src n).run onView v = (.ok (), v')) :
    ∃ bs : List Byte, bs.length = n ∧ v' = (v.noted ⟨dst, src, n⟩).setBytes dst bs := by
  obtain ⟨_, v1, hnote, h⟩ := Prog.bind_ok h
  cases hnote
  obtain ⟨bs, v2, hload, h⟩ := Prog.bind_ok h
  obtain ⟨rfl, hlen⟩ := loadBytes_ok hload
  exact ⟨bs, hlen, storeBytes_ok h⟩

end

/-! ## `file_read` -/

section

variable {v v' : View} {F : FilePtr → Prop} {f : FilePtr} {count offset pos stop : Word} {r : Int}

/-- Where the loop of `file_read` stands in the request page. -/
def ReadAt (offset stop : Word) (pos : Word) (buf : Nat) : Prop :=
  offset.toNat ≤ pos.toNat ∧ FSREQ ≤ buf ∧ buf + (stop.toNat - pos.toNat) ≤ FSREQ + 4096

theorem ReadAt.next {buf : Nat} (h : ReadAt offset stop pos buf) (hlt : pos < stop) :
    ReadAt offset stop (pos + chunkLen pos stop) (buf + (chunkLen pos stop).toNat) := by
  obtain ⟨hle, hlo, hhi⟩ := h
  have hsum := add_chunkLen hlt
  have hchunk := chunkLen_le hlt
  unfold ReadAt
  omega

theorem mem_read_copy {buf b : Nat} (h : ReadAt offset stop pos buf) (hlt : pos < stop)
    (hrun : (memmove buf (blkAddr b (pos.srem 4096).toInt) (chunkLen pos stop).toNat).run onView v =
      (.ok (), v')) : v'.mem = v.mem := by
  obtain ⟨bs, hlen, rfl⟩ := memmove_ok hrun
  have hchunk := chunkLen_le hlt
  refine (mem_setBytes_private fun i hi => ?_).trans (View.noted_mem v _)
  obtain ⟨-, hlo, hhi⟩ := h
  unfold Private UTEXT FSREQ DISKMAP at *
  omega

/-- The end of what `file_read` reads. -/
theorem toNat_read_stop (hsize : (fileSize v.mem f).toNat ≤ MAXFILESIZE)
    (hend : ¬ (fileSize v.mem f).sle offset) (hpos : offset.toNat < 2 ^ 31) :
    (offset + minWord count (fileSize v.mem f - offset)).toNat =
      min (offset.toNat + count.toNat) (fileSize v.mem f).toNat := by
  have hmax : MAXFILESIZE = 4235264 := rfl
  have hlt : offset.toNat < (fileSize v.mem f).toNat := by
    rw [BitVec.sle_iff_toInt_le, toInt_of_lt (by omega), toInt_of_lt hpos] at hend
    omega
  have hsub : (fileSize v.mem f - offset).toNat = (fileSize v.mem f).toNat - offset.toNat :=
    BitVec.toNat_sub_of_le (BitVec.le_def.mpr hlt.le)
  have hmin := toNat_minWord count (fileSize v.mem f - offset)
  rw [BitVec.toNat_add, hmin, hsub, Nat.mod_eq_of_lt] <;> omega

/-- `serve_read` reads at most a page. -/
theorem Sound.fileRead_advances (h : Sound F v.mem) (hs : Filled F v.mem) (hf : F f)
    (hcount : count.toNat ≤ 4096)
    (hidx : ¬ IsDir v.mem f → IndexBlank v.mem f offset.toNat
      (min (offset.toNat + count.toNat) (fileSize v.mem f).toNat))
    (hdir : IsDir v.mem f → 0 ≤ offset.toInt ∨ fileSize v.mem f ≠ 0)
    (hrun : (fileRead f FSREQ count offset).run onView v = (.ok r, v')) : Advances F v.mem v'.mem := by
  have hload : (load f.fSize).run onView v = (.ok (fileSize v.mem f), v) := run_load f.fSize v
  unfold fileRead at hrun
  rw [Prog.run_bind_ok hload, run_ite] at hrun
  split at hrun
  · cases hrun
    exact .refl h hs
  rename_i hend
  rw [Prog.run_bind_ok hload] at hrun
  simp only at hrun
  obtain ⟨res, v1, hloop, hrun⟩ := Prog.bind_ok hrun
  have hsame : v' = v1 := by
    cases res <;> cases hrun <;> rfl
  rw [hsame]
  have hroom : (offset + minWord count (fileSize v.mem f - offset)).toNat - offset.toNat ≤ 4096 :=
    (add_sub_le _ _).trans ((minWord_le_left _ _).trans hcount)
  have hstop : offset.toNat < 2 ^ 31 → (offset + minWord count (fileSize v.mem f - offset)).toNat =
      min (offset.toNat + count.toNat) (fileSize v.mem f).toNat := toNat_read_stop (h.size f hf) hend
  generalize offset + minWord count (fileSize v.mem f - offset) = stop at hloop hroom hstop
  have hJ : ReadAt offset stop offset FSREQ := ⟨le_rfl, le_rfl, Nat.add_le_add_left hroom FSREQ⟩
  by_cases hreg : IsDir v.mem f
  · have hmem : v1.mem = v.mem := by
      refine transfer_same hloop (J := ReadAt offset stop)
        (fun w w' pos buf b hJ hlt hmove => mem_read_copy hJ hlt hmove) (fun pos buf hJ hlt => hJ.next hlt)
        h.owned hf (fun p buf hJ hlt => ?_) hJ
      obtain ⟨hmod, hblk⟩ := hs f hf hreg
      have hnat := BitVec.lt_def.mp hlt
      rw [hblk]
      by_cases hpos : offset.toNat < 2 ^ 31
      · right
        rw [hstop hpos] at hnat
        have hmax : MAXFILESIZE = 4235264 := rfl
        have hsize := h.size f hf
        rw [toNat_sdiv_page (by omega)]
        unfold BLKSIZE at *
        omega
      · have hge := hJ.1
        have hneg : 2 ^ 31 ≤ p.toNat := by omega
        rcases toNat_sdiv_page_neg hneg with h0 | hge'
        · right
          rw [h0]
          have hne : fileSize v.mem f ≠ 0 := by
            refine (hdir hreg).resolve_left fun hnonneg => ?_
            have hint := BitVec.toInt_eq_toNat_cond offset
            have hlt := offset.isLt
            omega
          have hne' := toNat_ne_zero hne
          unfold BLKSIZE at *
          omega
        · exact .inl hge'
    rw [hmem]
    exact .refl h hs
  · refine transfer_advances hloop (J := ReadAt offset stop)
      (fun w w' pos buf b hJ hlt _ hmove x _ => congrFun (mem_read_copy hJ hlt hmove) x)
      (fun pos buf hJ hlt => hJ.next hlt) h hs hf hreg (fun hpos => ?_) hJ
    rw [hstop hpos]
    exact hidx hreg

/-! ## `file_write` -/

/-- The first lines of `file_write`, with the end in range. -/
theorem Sound.advances_extended (h : Sound F v.mem) (hs : Filled F v.mem) (hf : F f) (hreg : ¬ IsDir v.mem f)
    (hstop : stop.toNat ≤ MAXFILESIZE) : Advances F v.mem (v.extended f stop).mem := by
  unfold View.extended
  split
  · exact h.advances_setSize hs hf hreg hstop
  · exact .refl h hs

theorem IndexBlank.extended {lo hi : Nat} (hidx : IndexBlank v.mem f lo hi) (h : Owned v.mem F) (hf : F f) :
    IndexBlank (v.extended f stop).mem f lo hi := by
  have hfree : ∀ x, FreeIn (v.extended f stop).mem x ↔ FreeIn v.mem x := by
    unfold View.extended
    split
    · exact h.freeIn_setField hf
    · exact fun _ => Iff.rfl
  intro hhi hlt h0 x hx
  rw [h.indirectBlock_extended hf hf] at h0
  rw [holes_congr fun i _ => h.fileBlock_extended hf hf, nthFree_congr hfree] at hx
  have hsame : (v.extended f stop).mem x = v.mem x := by
    unfold View.extended
    split
    · exact View.mem_set_of_ne _ _ (h.free_ne_blk hf hx.free)
    · rfl
  rw [hsame]
  exact hidx hhi hlt h0 x hx

theorem mem_write_copy {buf b : Nat} (hpos : pos.toNat < 2 ^ 31) (hlt : pos < stop)
    (hb : b < DISKSIZE / BLKSIZE)
    (hrun : (memmove (blkAddr b (pos.srem 4096).toInt) buf (chunkLen pos stop).toNat).run onView v =
      (.ok (), v')) (x : Nat) (hx : x ≠ b) : v'.mem x = v.mem x := by
  obtain ⟨bs, hlen, rfl⟩ := memmove_ok hrun
  rw [chunkLen_page hpos hlt] at hlen
  have hfits := chunk_fits pos.toNat stop.toNat
  rw [blkAddr_page hpos, mem_setBytes_disk hb (by omega) hx, View.noted_mem]

/-- A write to a regular file that ends in range. -/
theorem Sound.fileWrite_advances {buf : Nat} (h : Sound F v.mem) (hs : Filled F v.mem) (hf : F f)
    (hreg : ¬ IsDir v.mem f) (hstop : (offset + count).toNat ≤ MAXFILESIZE)
    (hidx : IndexBlank v.mem f offset.toNat (offset + count).toNat)
    (hrun : (fileWrite f buf count offset).run onView v = (.ok r, v')) : Advances F v.mem v'.mem := by
  have hmax : MAXFILESIZE = 4235264 := rfl
  have hadv := h.advances_extended hs hf hreg hstop
  unfold fileWrite at hrun
  simp only at hrun
  rw [Prog.run_bind_ok (run_extend v f (by omega)), if_neg (by decide)] at hrun
  obtain ⟨res, v1, hloop, hrun⟩ := Prog.bind_ok hrun
  have hsame : v' = v1 := by
    cases res <;> cases hrun <;> rfl
  rw [hsame]
  by_cases hpos : offset.toNat < 2 ^ 31
  · refine hadv.trans (transfer_advances hloop (J := fun pos _ => pos.toNat < 2 ^ 31)
      (fun w w' pos buf b hJ hlt hb hmove => mem_write_copy hJ hlt hb hmove) (fun pos buf _ hlt => ?_)
      hadv.sound hadv.filled hf (mt (hadv.isDir_iff f hf).mp hreg) (fun _ => hidx.extended h.owned hf) hpos)
    have hsum := add_chunkLen hlt
    have hchunk := chunkLen_le hlt
    have hnat := BitVec.lt_def.mp hlt
    omega
  · -- the position is behind the end already
    rw [Nat.sub_eq_zero_of_le (by omega)] at hloop
    cases hloop
    exact hadv

/-- The errors of the loop are those of `file_get_block`. -/
theorem transfer_error_neg {copy : Nat → Nat → Nat → FsM Unit} {fuel buf : Nat} {e : Int}
    (hrun : (transfer copy f stop fuel pos buf).run onView v = (.ok (.error e), v')) : e < 0 := by
  induction fuel generalizing pos buf v with
  | zero => cases hrun
  | succ fuel ih =>
      rw [transfer, run_ite] at hrun
      split at hrun
      · obtain ⟨blk, v1, hget, hrest⟩ := Prog.bind_ok hrun
        cases blk with
        | error e' =>
            cases hrest
            exact (blockOf_of_run hget).error_neg
        | ok b =>
            obtain ⟨_, v2, -, hlast⟩ := Prog.bind_ok hrest
            exact ih hlast
      · cases hrun

/-- What `file_write` returns. -/
theorem fileWrite_result {buf : Nat} (hstop : (offset + count).toNat ≤ MAXFILESIZE)
    (hrun : (fileWrite f buf count offset).run onView v = (.ok r, v')) : r = count.toInt ∨ r < 0 := by
  have hmax : MAXFILESIZE = 4235264 := rfl
  unfold fileWrite at hrun
  simp only at hrun
  rw [Prog.run_bind_ok (run_extend v f (by omega)), if_neg (by decide)] at hrun
  obtain ⟨res, v1, hloop, hrest⟩ := Prog.bind_ok hrun
  cases res with
  | error e =>
      cases hrest
      exact .inr (transfer_error_neg hloop)
  | ok u =>
      cases hrest
      exact .inl rfl

/-- The last lines of `serve_write`. -/
theorem Sound.growTo_advances (h : Sound F v.mem) (hs : Filled F v.mem) (hf : F f) (hreg : ¬ IsDir v.mem f)
    (hstop : stop.toNat ≤ MAXFILESIZE) {u : Unit} (hrun : (growTo f stop).run onView v = (.ok u, v')) :
    Advances F v.mem v'.mem := by
  have hload : (load f.fSize).run onView v = (.ok (fileSize v.mem f), v) := run_load f.fSize v
  unfold growTo at hrun
  rw [Prog.run_bind_ok hload, run_ite] at hrun
  split at hrun
  · obtain ⟨w, hset, hadv⟩ := h.run_fileSetSize hs hf hreg hstop
    rw [Prog.run_bind_ok hset] at hrun
    cases hrun
    exact hadv
  · cases hrun
    exact .refl h hs

/-! ## `file_flush`, `fs_sync` and `stat` -/

theorem flushLoop_same {n i : Nat} {u : Unit} (hrun : (flushLoop f n i).run onView v = (.ok u, v')) :
    v' = v := by
  induction n generalizing i v with
  | zero =>
      cases hrun
      rfl
  | succ n ih =>
      rw [flushLoop] at hrun
      obtain ⟨slot, v1, hwalk, hrun⟩ := Prog.bind_ok hrun
      have hv : v1 = v := by
        cases slotOf_of_run hwalk with
        | newIndirect _ _ _ _ _ _ halloc => cases halloc
        | _ => rfl
      subst hv
      cases slot with
      | error e => exact ih hrun
      | ok slot =>
          simp only at hrun
          rw [Prog.run_bind_ok (run_load _ _), run_ite] at hrun
          split at hrun
          · exact ih hrun
          · obtain ⟨a, v2, haddr, hrest⟩ := Prog.bind_ok hrun
            obtain ⟨-, rfl, -, -⟩ := run_diskaddr_ok haddr
            exact ih hrest

theorem fileFlush_same {u : Unit} (hrun : (fileFlush f).run onView v = (.ok u, v')) : v' = v := by
  unfold fileFlush at hrun
  rw [Prog.run_bind_ok (run_load _ _)] at hrun
  obtain ⟨_, v1, hloop, hrest⟩ := Prog.bind_ok hrun
  rw [flushLoop_same hloop, Prog.run_bind_ok (run_flushBlock _ _), Prog.run_bind_ok (run_load _ _),
    run_ite] at hrest
  split at hrest
  · cases hrest
    rfl
  · obtain ⟨a, v2, haddr, hflush⟩ := Prog.bind_ok hrest
    obtain ⟨-, rfl, -, -⟩ := run_diskaddr_ok haddr
    cases hflush
    rfl

theorem syncLoop_same {n i : Nat} {u : Unit} (hrun : (syncLoop n i).run onView v = (.ok u, v')) : v' = v := by
  induction n generalizing i v with
  | zero =>
      cases hrun
      rfl
  | succ n ih =>
      rw [syncLoop] at hrun
      obtain ⟨a, v1, haddr, hrest⟩ := Prog.bind_ok hrun
      obtain ⟨-, rfl, -, -⟩ := run_diskaddr_ok haddr
      exact ih hrest

theorem fsSync_same {u : Unit} (hrun : fsSync.run onView v = (.ok u, v')) : v' = v := by
  unfold fsSync at hrun
  rw [Prog.run_bind_ok (run_load _ _)] at hrun
  exact syncLoop_same hrun

/-- A name that ends does not leave the request page. -/
theorem Sound.mem_statFile (h : Sound F v.mem) (hf : F f) {u : Unit}
    (hrun : (statFile f).run onView v = (.ok u, v')) : v'.mem = v.mem := by
  obtain ⟨hblk, hidx⟩ := h.owned.struct_bounds hf
  obtain ⟨w, hstat, -, hmem, -⟩ := run_statFile (R := fun _ => True) hblk hidx (h.named f hf) trivial
  rw [hstat] at hrun
  cases hrun
  exact hmem

end

end SisOp.Fs
