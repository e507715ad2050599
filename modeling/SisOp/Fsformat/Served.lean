/-
# `SisOp.Fsformat.Served` — the disk is sound, and the server finds the files on it

The files of the disk are its root and the entries of the blocks of the directory, used or
not.  The blocks that their `f_direct`, `f_indirect` and indirect blocks name lie one behind
the other, so that they are all different; and a name of the command line leads to the
first file that has it.
-/
import SisOp.Fsformat.Written
import SisOp.Server.Walk

namespace SisOp.Fsformat

open SisOp.Lib SisOp.Fs
open SisOp.Jos (Word Byte byteOf)

/-! ## One behind the other -/

section

variable {files : List HostFile} {f f' : HostFile} {j j' s s' : Nat}

theorem top_take_le_of_lt (hj : files[j]? = some f) (hlt : j < j') :
    top (files.take j) + f.cost ≤ top (files.take j') := by
  have hj' : (files.take j')[j]? = some f := by rwa [List.getElem?_take_of_lt hlt]
  have hle := top_take_le hj'
  rwa [List.take_take, Nat.min_eq_left hlt.le] at hle

theorem top_take_inj (hj : files[j]? = some f) (hj' : files[j']? = some f') (hs : s < f.cost) (hs' : s' < f'.cost)
    (heq : top (files.take j) + s = top (files.take j') + s') : j = j' ∧ s = s' := by
  rcases Nat.lt_trichotomy j j' with hlt | rfl | hgt
  · have := top_take_le_of_lt hj hlt
    omega
  · exact ⟨rfl, Nat.add_left_cancel heq⟩
  · have := top_take_le_of_lt hj' hgt
    omega

end

/-! ## The files -/

/-- Entry `e` of the directory. -/
def entryPtr (files : List HostFile) (e : Nat) : FilePtr := ⟨top files + e / 16, 64 * (e % 16)⟩

/-- The root and the entries. -/
def Entries (files : List HostFile) (g : FilePtr) : Prop :=
  g = sRoot ∨ ∃ e < 16 * dirBlocks files, g = entryPtr files e

section

variable {files : List HostFile} {file : HostFile} {nb : Word} {h : Host} {i j k b e : Nat}

theorem image_word (hi : i < 1024) : h.image b i = h.disk (1024 * b + i) := if_pos hi

theorem image_entry (hi : i < 64) : h.image (entryPtr files e).blk ((entryPtr files e).idx + i) =
    h.disk (1024 * top files + 64 * e + i) := by
  have hword : 1024 * (top files + e / 16) + (64 * (e % 16) + i) = 1024 * top files + 64 * e + i := by omega
  rw [entryPtr, image_word (by show 64 * (e % 16) + i < 1024; omega), ← hword]

variable (hw : Written files nb h.disk)

include hw

theorem image_nblocks : nblocks h.image = nb.toNat := by
  rw [nblocks, image_word (by decide), hw.super 1 (by decide)]
  rfl

theorem image_firstData : firstData h.image = 3 := by
  have hsmall : nb.toNat ≤ 1024 := hw.small
  have hroom := hw.room
  have hbits : BLKBITSIZE = 32768 := rfl
  rw [firstData, image_nblocks hw, hbits]
  omega

theorem top_lt : top files + dirBlocks files < 1024 := lt_of_lt_of_le hw.room hw.small

theorem image_free : FreeIn h.image b ↔ b < nb.toNat ∧ top files + dirBlocks files ≤ b := by
  have hsmall : nb.toNat ≤ 1024 := hw.small
  have hbits : BLKBITSIZE = 32768 := rfl
  rw [FreeIn, image_nblocks hw]
  refine and_congr_right fun hb => ?_
  have hblock : bitmapBlock b = 2 := by
    unfold bitmapBlock
    rw [hbits]
    omega
  have hmod : b / 32 % 1024 = b / 32 := by omega
  rw [hblock, hmod, image_word (by omega), hw.free b (by omega)]
  exact decide_eq_true_iff

/-! ## The root -/

theorem root_word (hi : i < 64) : h.image sRoot.blk (sRoot.idx + i) = rootWord files nb (2 + i) := by
  have hword : h.image sRoot.blk (sRoot.idx + i) = h.disk (1024 + (2 + i)) := image_word (by show 2 + i < 1024; omega)
  rw [hword, hw.super _ (by omega)]

theorem dirBlocks_le_eight : dirBlocks files ≤ 8 := dirBlocks_le hw.length

theorem root_size : (fileSize h.image sRoot).toNat = 4096 * dirBlocks files := by
  have hnd := dirBlocks_le_eight hw
  rw [fileSize, root_word hw (by decide), rootWord, if_pos rfl, BitVec.toNat_ofNat]
  omega

theorem root_isDir : IsDir h.image sRoot := by
  rw [IsDir, root_word hw (by decide), rootWord, if_neg (by decide), if_neg (by omega)]
  rfl

theorem root_indirect : indirectBlock h.image sRoot = 0 := by
  have hnd := dirBlocks_le_eight hw
  rw [indirectBlock, root_word hw (by decide), rootWord, if_neg (by decide), if_neg (by omega)]
  rfl

theorem root_block : fileBlock h.image sRoot k = if k < dirBlocks files then top files + k else 0 := by
  have hten : NDIRECT = 10 := rfl
  have hnd := dirBlocks_le_eight hw
  have htop := top_lt hw
  by_cases hk : k < NDIRECT
  · rw [fileBlock_of_slot (.inl hk), slotBlk, slotIdx, if_pos hk, if_pos hk, root_word hw (by omega), rootWord,
      if_neg (by omega)]
    by_cases hin : k < dirBlocks files
    · rw [if_pos (by omega), if_pos hin, BitVec.toNat_ofNat]
      omega
    · rw [if_neg (by omega), if_neg hin, superWord, if_neg (by omega), if_neg (by omega), if_neg (by omega),
        if_neg (by omega)]
      rfl
  · rw [fileBlock_of_no_slot (fun hs => (hs.resolve_left hk).2 (root_indirect hw)), if_neg (by omega)]

theorem root_named : Named h.image sRoot := by
  refine ⟨1, by decide, ?_⟩
  rw [nameAt, root_word hw (by decide), rootWord, if_neg (by decide), if_neg (by omega), superWord, if_neg (by decide),
    if_neg (by decide), if_pos (by decide)]
  rfl

theorem root_name : nameAt h.image sRoot 0 ≠ 0 := by
  rw [nameAt, root_word hw (by decide), rootWord, if_neg (by decide), if_neg (by omega), superWord, if_neg (by decide),
    if_neg (by decide), if_pos (by decide)]
  decide

/-! ## An entry -/

theorem spare_entry (he : files.length ≤ e) (hlt : e < 16 * dirBlocks files) (hi : i < 64) :
    h.image (entryPtr files e).blk ((entryPtr files e).idx + i) = 0 := by
  rw [image_entry hi, Nat.add_assoc, hw.spare _ (by omega) (by omega)]

variable (hj : files[j]? = some file)

include hj

theorem entry_end : top (files.take j) + file.cost < 1024 := by
  have hle := top_take_le hj
  have htop := top_lt hw
  omega

theorem entry_size : (fileSize h.image (entryPtr files j)).toNat = file.body.length := by
  rw [fileSize, image_entry (by decide), (hw.entry j file hj).size,
    toNat_length (hw.sizes file (List.mem_of_getElem? hj))]

theorem entry_not_dir : ¬ IsDir h.image (entryPtr files j) := by
  rw [IsDir, image_entry (by decide), (hw.entry j file hj).type]
  decide

theorem entry_indirect : indirectBlock h.image (entryPtr files j) =
    if NDIRECT ≤ file.size then top (files.take j) + file.size else 0 := by
  have hend := entry_end hw hj
  have hcost : file.cost = file.size + extra file.size := rfl
  rw [indirectBlock, image_entry (by decide), (hw.entry j file hj).indirect]
  split
  · rw [BitVec.toNat_ofNat]
    omega
  · rfl

theorem size_le : file.size ≤ NDIRECT + NINDIRECT :=
  blocks_MAXFILESIZE (hw.sizes file (List.mem_of_getElem? hj)).le

theorem entry_block : fileBlock h.image (entryPtr files j) k =
    if k < file.size then top (files.take j) + k else 0 := by
  have hten : NDIRECT = 10 := rfl
  have hind : NINDIRECT = 1024 := rfl
  have hend := entry_end hw hj
  have hcost : file.cost = file.size + extra file.size := rfl
  have hle := size_le hw hj
  have hindirect := entry_indirect hw hj
  by_cases hk : k < NDIRECT
  · rw [fileBlock_of_slot (.inl hk), slotBlk, slotIdx, if_pos hk, if_pos hk, image_entry (by omega),
      (hw.entry j file hj).direct k hk]
    split
    · rw [BitVec.toNat_ofNat]
      omega
    · rfl
  · by_cases hslot : HasSlot h.image (entryPtr files j) k
    · obtain ⟨hrange, h0⟩ := hslot.resolve_left hk
      have hfull : NDIRECT ≤ file.size := by
        by_contra hno
        rw [hindirect, if_neg hno] at h0
        exact h0 rfl
      rw [if_pos hfull] at hindirect
      rw [fileBlock_of_slot hslot, slotBlk, slotIdx, if_neg hk, if_neg hk, hindirect, image_word (by omega),
        (hw.data j file hj).index hfull _ (by omega)]
      by_cases hin : k < file.size
      · rw [if_pos (by omega), if_pos hin, BitVec.toNat_ofNat]
        omega
      · rw [if_neg (by omega), if_neg hin]
        rfl
    · rw [fileBlock_of_no_slot hslot, if_neg]
      intro hin
      refine hslot (.inr ⟨by omega, ?_⟩)
      rw [hindirect, if_pos (by omega)]
      have := three_le_top (files.take j)
      omega

theorem entry_name (hk : k ≤ file.name.length) : nameAt h.image (entryPtr files j) k = file.name.getD k 0 := by
  have hmax : MAXNAMELEN = 128 := rfl
  have hlen := hw.names file (List.mem_of_getElem? hj)
  have hword : (4 * (1024 * top files + 64 * j) + k) / 4 = 1024 * top files + 64 * j + k / 4 := by omega
  have hbyte : (4 * (1024 * top files + 64 * j) + k) % 4 = k % 4 := by omega
  rw [← (hw.entry j file hj).name k hk, nameAt, image_entry (by omega), byteIn, hword, hbyte]

theorem entry_byte {p : Nat} (hp : p < file.body.length) :
    fileByte h.image (entryPtr files j) p = file.body.getD p 0 := by
  have hsize : BLKSIZE = 4096 := rfl
  have hlt := size_mul_lt file hp
  have hword : (4096 * top (files.take j) + p) / 4 = 1024 * (top (files.take j) + p / 4096) + p % 4096 / 4 := by omega
  have hbyte : (4096 * top (files.take j) + p) % 4 = p % 4096 % 4 := by omega
  rw [← (hw.data j file hj).bytes p hp, fileByte, hsize, entry_block hw hj, if_pos (by omega), image_word (by omega),
    byteIn, hword, hbyte]

end

/-! ## The disk is sound -/

/-- What a reference refers to. -/
inductive Points (files : List HostFile) : Ref → Nat → Prop
  | dir {k : Nat} (hk : k < dirBlocks files) : Points files (.data sRoot k) (top files + k)
  | data {j k : Nat} {file : HostFile} (hj : files[j]? = some file) (hk : k < file.size) :
      Points files (.data (entryPtr files j) k) (top (files.take j) + k)
  | index {j : Nat} {file : HostFile} (hj : files[j]? = some file) (hfull : NDIRECT ≤ file.size) :
      Points files (.indirect (entryPtr files j)) (top (files.take j) + file.size)

section

variable {files : List HostFile} {file : HostFile} {nb : Word} {h : Host} {g : FilePtr} {r r' : Ref} {b : Nat}

/-- Block `s` of what a file takes. -/
theorem Points.file_slot (hp : Points files r b) : (∃ k < dirBlocks files, r = .data sRoot k ∧ b = top files + k) ∨
    ∃ j file s, files[j]? = some file ∧ s < file.cost ∧ b = top (files.take j) + s ∧
      r = if s < file.size then .data (entryPtr files j) s else .indirect (entryPtr files j) := by
  cases hp with
  | dir hk => exact .inl ⟨_, hk, rfl, rfl⟩
  | @data j k file hj hk =>
    exact .inr ⟨j, file, k, hj, Nat.lt_add_right _ hk, rfl, (if_pos hk).symm⟩
  | @index j file hj hfull =>
    have hextra : extra file.size = 1 := if_pos hfull
    exact .inr ⟨j, file, file.size, hj, by rw [HostFile.cost, hextra]; omega, rfl, (if_neg (lt_irrefl _)).symm⟩

theorem Points.range (hp : Points files r b) : 3 ≤ b ∧ b < top files + dirBlocks files := by
  have hthree := three_le_top files
  rcases hp.file_slot with ⟨k, hk, -, rfl⟩ | ⟨j, file, s, hj, hs, rfl, -⟩
  · omega
  · have hle := top_take_le hj
    have hthree' := three_le_top (files.take j)
    omega

theorem Points.once (hp : Points files r b) (hp' : Points files r' b) : r = r' := by
  rcases hp.file_slot with ⟨k, hk, rfl, hb⟩ | ⟨j, file, s, hj, hs, hb, rfl⟩
  · rcases hp'.file_slot with ⟨k', hk', rfl, hb'⟩ | ⟨j', file', s', hj', hs', hb', rfl⟩
    · rw [Nat.add_left_cancel (hb.symm.trans hb')]
    · have hle := top_take_le hj'
      omega
  · rcases hp'.file_slot with ⟨k', hk', rfl, hb'⟩ | ⟨j', file', s', hj', hs', hb', rfl⟩
    · have hle := top_take_le hj
      omega
    · obtain ⟨rfl, rfl⟩ := top_take_inj hj hj' hs hs' (hb.symm.trans hb')
      rw [Option.some.inj (hj.symm.trans hj')]

variable (hw : Written files nb h.disk)

include hw

/-- An entry is a file of the command line or zero. -/
theorem entries_cases (hg : Entries files g) : g = sRoot ∨ (∃ j file, files[j]? = some file ∧ g = entryPtr files j) ∨
    ∀ i < 64, h.image g.blk (g.idx + i) = 0 := by
  rcases hg with rfl | ⟨e, he, rfl⟩
  · exact .inl rfl
  · rcases Nat.lt_or_ge e files.length with hlt | hge
    · exact .inr (.inl ⟨e, files[e], List.getElem?_eq_getElem hlt, rfl⟩)
    · exact .inr (.inr fun i hi => spare_entry hw hge he hi)

theorem entries_of_dir (hg : Entries files g) (hdir : IsDir h.image g) : g = sRoot := by
  rcases entries_cases hw hg with rfl | ⟨j, file, hj, rfl⟩ | hzero
  · rfl
  · exact absurd hdir (entry_not_dir hw hj)
  · exact absurd hdir (zero_file hzero).2.2.2.2

theorem points (hg : Entries files r.file) (h0 : r.target h.image ≠ 0) : Points files r (r.target h.image) := by
  rcases entries_cases hw hg with hroot | ⟨j, file, hj, hentry⟩ | hzero
  · cases r with
    | data g k =>
      obtain rfl : g = sRoot := hroot
      rw [Ref.target, root_block hw] at h0 ⊢
      by_cases hk : k < dirBlocks files
      · rw [if_pos hk]
        exact .dir hk
      · exact absurd (if_neg hk) h0
    | indirect g =>
      obtain rfl : g = sRoot := hroot
      exact absurd (root_indirect hw) h0
  · cases r with
    | data g k =>
      obtain rfl : g = entryPtr files j := hentry
      rw [Ref.target, entry_block hw hj] at h0 ⊢
      by_cases hk : k < file.size
      · rw [if_pos hk]
        exact .data hj hk
      · exact absurd (if_neg hk) h0
    | indirect g =>
      obtain rfl : g = entryPtr files j := hentry
      rw [Ref.target, entry_indirect hw hj] at h0 ⊢
      by_cases hfull : NDIRECT ≤ file.size
      · rw [if_pos hfull]
        exact .index hj hfull
      · exact absurd (if_neg hfull) h0
  · obtain ⟨hdata, hind, -⟩ := zero_file hzero
    cases r with
    | data g k => exact absurd (hdata k) h0
    | indirect g => exact absurd hind h0

theorem root_entry {k j : Nat} (hk : k < dirBlocks files) (hj : j < BLKFILES) :
    (⟨fileBlock h.image sRoot k, 64 * j⟩ : FilePtr) = entryPtr files (16 * k + j) := by
  have hents : BLKFILES = 16 := rfl
  have hdiv : (16 * k + j) / 16 = k := by omega
  have hmod : (16 * k + j) % 16 = j := by omega
  rw [root_block hw, if_pos hk, entryPtr, hdiv, hmod]

theorem written_owned : Owned h.image (Entries files) := by
  have hsmall : nb.toNat ≤ 1024 := hw.small
  have hroom := hw.room
  have hthree := three_le_top files
  refine ⟨?_, fun b hb hfree => ?_, fun g hg => ?_, fun r hr h0 => ?_, fun r hr h0 hfree => ?_,
    fun r r' hr hr' h0 heq => ?_⟩
  · rw [image_nblocks hw]
    exact hsmall.trans (by decide)
  · rw [image_firstData hw] at hb
    have := ((image_free hw).mp hfree).2
    omega
  · rcases hg with rfl | ⟨e, he, rfl⟩
    · exact .inl rfl
    · have hk : e / 16 < dirBlocks files := by omega
      have hj : e % 16 < BLKFILES := Nat.mod_lt _ (by decide)
      have hne : fileBlock h.image sRoot (e / 16) ≠ 0 := by
        rw [root_block hw, if_pos hk]
        omega
      refine .inr ⟨sRoot, e / 16, e % 16, .inl rfl, root_isDir hw, hne, hj, ?_⟩
      rw [root_entry hw hk hj, Nat.div_add_mod]
  · obtain ⟨hlo, hhi⟩ := (points hw hr h0).range
    rw [image_firstData hw, image_nblocks hw]
    omega
  · have hlt := (points hw hr h0).range.2
    have hge := ((image_free hw).mp hfree).2
    omega
  · exact (points hw hr h0).once (heq ▸ points hw hr' (heq ▸ h0))

theorem entry_named {j : Nat} (hj : files[j]? = some file) : Named h.image (entryPtr files j) := by
  refine ⟨file.name.length, hw.names file (List.mem_of_getElem? hj), ?_⟩
  rw [entry_name hw hj le_rfl]
  exact List.getD_eq_default _ _ le_rfl

theorem written_sound : Sound (Entries files) h.image where
  owned := written_owned hw
  root := .inl rfl
  entries := fun d k j hd hdir h0 hj => by
    obtain rfl := entries_of_dir hw hd hdir
    have hk : k < dirBlocks files := by
      by_contra hno
      rw [root_block hw, if_neg hno] at h0
      exact h0 rfl
    have hents : BLKFILES = 16 := rfl
    exact .inr ⟨16 * k + j, by omega, root_entry hw hk hj⟩
  size := fun g hg => by
    have hmax : MAXFILESIZE = 4235264 := rfl
    have hnd := dirBlocks_le_eight hw
    rcases entries_cases hw hg with rfl | ⟨j, file, hj, rfl⟩ | hzero
    · rw [root_size hw]
      omega
    · rw [entry_size hw hj]
      exact (hw.sizes file (List.mem_of_getElem? hj)).le
    · rw [(zero_file hzero).2.2.1]
      exact Nat.zero_le _
  named := fun g hg => by
    rcases entries_cases hw hg with rfl | ⟨j, file, hj, rfl⟩ | hzero
    · exact root_named hw
    · exact entry_named hw hj
    · exact ⟨0, by decide, (zero_file hzero).2.2.2.1⟩
  plain := fun g hg h0 hdir => by
    obtain rfl := entries_of_dir hw hg hdir
    exact root_name hw h0

theorem written_filled : Filled (Entries files) h.image := by
  intro d hd hdir
  have hthree := three_le_top files
  obtain rfl := entries_of_dir hw hd hdir
  rw [root_size hw]
  refine ⟨Nat.mul_mod_right .., fun k => ?_⟩
  have hdiv : 4096 * dirBlocks files / BLKSIZE = dirBlocks files := Nat.mul_div_cancel_left _ (by decide)
  rw [hdiv, root_block hw]
  split
  · rename_i hk
    exact ⟨fun _ => hk, fun _ => by omega⟩
  · rename_i hk
    exact ⟨fun h0 => absurd rfl h0, fun hlt => absurd hlt hk⟩

end

/-! ## Names -/

theorem cString_map {name : List Byte} (h0 : 0 ∉ name) {at_ : Nat → Byte} {n : Nat} (hlen : name.length < n)
    (hat : ∀ k ≤ name.length, at_ k = name.getD k 0) : cString ((List.range n).map at_) = name := by
  obtain ⟨rest, hrest⟩ : ∃ rest, (List.range n).map at_ = name ++ 0 :: rest := by
    obtain ⟨m, rfl⟩ := Nat.exists_eq_add_of_lt hlen
    refine ⟨(List.range m).map fun i => at_ (name.length + (i + 1)), ?_⟩
    have hfirst : (List.range name.length).map at_ = name := by
      refine List.ext_getElem (by simp) fun i hi hi' => ?_
      rw [List.getElem_map, List.getElem_range, hat i hi'.le, List.getD_eq_getElem _ _ hi']
    have hnull : at_ name.length = 0 := (hat _ le_rfl).trans (List.getD_eq_default _ _ le_rfl)
    rw [Nat.add_assoc, List.range_add, List.map_append, hfirst, List.range_succ_eq_map, List.map_map, List.map_cons,
      List.map_map]
    simp only [Function.comp_def, Nat.add_zero, hnull, Nat.succ_eq_add_one]
  rw [hrest, cString_append h0]

theorem range_flatMap {α : Type} (at_ : Nat → α) (m n : Nat) :
    (List.range n).flatMap (fun k => (List.range m).map fun j => at_ (m * k + j)) = (List.range (m * n)).map at_ := by
  induction n with
  | zero => rfl
  | succ n ih =>
    rw [List.range_succ, List.flatMap_append, ih, List.flatMap_singleton, Nat.mul_succ, List.range_add, List.map_append,
      List.map_map]
    rfl

section

variable {files : List HostFile} {file : HostFile} {nb : Word} {h : Host} {j : Nat} {name : List Byte}

theorem dirEntries_root (hw : Written files nb h.disk) :
    dirEntries h.image sRoot = (List.range (16 * dirBlocks files)).map (entryPtr files) := by
  have hlen : dirLength h.image sRoot = dirBlocks files := by
    rw [dirLength, root_size hw]
    exact Nat.mul_div_cancel_left _ (by decide)
  rw [dirEntries, hlen, ← range_flatMap]
  refine List.flatMap_congr fun k hk => ?_
  refine List.map_congr_left fun j hj => ?_
  exact root_entry hw (List.mem_range.mp hk) (List.mem_range.mp hj)

theorem entry_fileName (hw : Written files nb h.disk) (hj : files[j]? = some file) (h0 : 0 ∉ file.name) :
    fileName h.image (entryPtr files j) = file.name :=
  cString_map h0 (hw.names file (List.mem_of_getElem? hj)) fun _ hk => entry_name hw hj hk

theorem spare_fileName (hw : Written files nb h.disk) {e : Nat} (he : files.length ≤ e)
    (hlt : e < 16 * dirBlocks files) : fileName h.image (entryPtr files e) = [] :=
  cString_map (List.not_mem_nil) (by decide) fun k hk => by
    obtain rfl : k = 0 := Nat.le_zero.mp hk
    exact (zero_file fun _ hi => spare_entry hw he hlt hi).2.2.2.1

theorem fileName_iff (hw : Written files nb h.disk) (h0 : ∀ file ∈ files, 0 ∉ file.name) (hname : name ≠ []) {e : Nat}
    (he : e < 16 * dirBlocks files) :
    fileName h.image (entryPtr files e) = name ↔ ∃ file, files[e]? = some file ∧ file.name = name := by
  rcases Nat.lt_or_ge e files.length with hlt | hge
  · have hget : files[e]? = some files[e] := List.getElem?_eq_getElem hlt
    rw [entry_fileName hw hget (h0 _ (List.getElem_mem hlt)), hget]
    constructor
    · intro hnamed
      exact ⟨_, rfl, hnamed⟩
    · rintro ⟨file, hf, hnamed⟩
      rwa [Option.some.inj hf]
  · rw [spare_fileName hw hge he, List.getElem?_eq_none hge]
    refine iff_of_false (fun hnil => hname hnil.symm) ?_
    rintro ⟨file, hf, -⟩
    cases hf

/-- The first file of the name. -/
theorem lookup_written (hw : Written files nb h.disk) (h0 : ∀ file ∈ files, 0 ∉ file.name) (hname : name ≠ []) :
    lookup h.image sRoot name = (files.findIdx? fun file => file.name = name).map (entryPtr files) := by
  have hents := entries_le_dirBlocks files
  rw [lookup, dirEntries_root hw, List.find?_map]
  congr 1
  cases hfind : files.findIdx? fun file => file.name = name with
  | none =>
    rw [List.findIdx?_eq_none_iff] at hfind
    refine List.find?_range_eq_none.mpr fun e he => ?_
    have hno : ¬ fileName h.image (entryPtr files e) = name := by
      rw [fileName_iff hw h0 hname he]
      rintro ⟨file, hget, hf⟩
      exact of_decide_eq_false (hfind file (List.mem_of_getElem? hget)) hf
    simpa using hno
  | some j =>
    obtain ⟨hlt, hj, hfirst⟩ := List.findIdx?_eq_some_iff_getElem.mp hfind
    refine List.find?_range_eq_some.mpr ⟨?_, List.mem_range.mpr (by omega), fun i hi => ?_⟩
    · have hyes := (fileName_iff hw h0 hname (e := j) (by omega)).mpr
        ⟨files[j], List.getElem?_eq_getElem hlt, of_decide_eq_true hj⟩
      simpa using hyes
    · have hno : ¬ fileName h.image (entryPtr files i) = name := by
        rw [fileName_iff hw h0 hname (by omega)]
        rintro ⟨file, hget, hf⟩
        obtain ⟨hlt', rfl⟩ := List.getElem?_eq_some_iff.mp hget
        exact hfirst i hi (decide_eq_true hf)
      simpa using hno

end

/-! ## The server on the disk -/

/-- A program comes to `a` and changes nothing, on what the server sees and on the machine. -/
def Gives {α : Type} (p : FsM α) (s : Machine) (a : α) : Prop :=
  p.run onView s.view = (.ok a, s.view) ∧ ∀ r s', p.run onMachine s = (.ok r, s') → r = a ∧ s'.view = s.view

/-- `file_read` gives any part of `body`, and leaves the disk. -/
def Reads (s : Machine) (f : FilePtr) (body : List Byte) : Prop :=
  ∀ (buf : Nat) (count offset : Word), offset.toNat + count.toNat ≤ body.length →
    (∀ i < count.toNat, Private (buf + i)) →
    ∃ v', (fileRead f buf count offset).run onView s.view = (.ok count.toInt, v') ∧
      (∀ r s', (fileRead f buf count offset).run onMachine s = (.ok r, s') → r = count.toInt ∧ s'.view = v') ∧
      v'.mem = s.mem ∧ ∀ i < count.toNat, v'.byteAt (buf + i) = body.getD (offset.toNat + i) 0

section

variable {s : Machine} {F : FilePtr → Prop} {name : List Byte}

theorem gives_of_view {α : Type} {p : FsM α} {a : α} (h : p.run onView s.view = (.ok a, s.view)) : Gives p s a := by
  refine ⟨h, fun r s' hrun => ?_⟩
  have hview := abstracts.run_ok hrun
  rw [h] at hview
  obtain ⟨hr, hs⟩ := Prod.mk.inj hview
  exact ⟨(Except.ok.inj hr).symm, hs.symm⟩

theorem components_slash (hslash : slash ∉ name) (hne : name ≠ []) : components (slash :: name) = [name] := by
  have hno : ∀ x ∈ name, decide (x = slash) = false := fun x hx => decide_eq_false fun he => hslash (he ▸ hx)
  have hfull : (!name.isEmpty) = true := by simpa using hne
  have hcons :
      fields (fun x : Byte => decide (x = slash)) (slash :: name) = fields (fun x => decide (x = slash)) name :=
    fields_cons_sep (by simp)
  rw [components, hcons, fields_of_not_sep hno]
  simp [hfull]

/-- A name of the root. -/
theorem fileOpen_root (h : Sound F s.mem) (hs : Filled F s.mem) (hdir : IsDir s.mem sRoot) (h0 : 0 ∉ name)
    (hslash : slash ∉ name) (hne : name ≠ []) (hlen : name.length < MAXNAMELEN) :
    Gives (fileOpen (slash :: name)) s
      (match lookup s.mem sRoot name with
        | some f => .ok f
        | none => .error (-E_NOT_FOUND)) := by
  have h0' : 0 ∉ slash :: name := by
    rw [List.mem_cons]
    exact not_or.mpr ⟨by decide, h0⟩
  obtain ⟨w, hwalk, hres⟩ := walkPath_resolves (v := s.view) (h.unbroken hs) h0'
  rw [components_slash hslash hne] at hres
  have hfollow : follow s.mem [name] = (lookup s.mem sRoot name).map fun g => (some sRoot, g) := by
    have hsingle := follow_append_singleton s.mem [] name
    rw [List.nil_append] at hsingle
    rw [hsingle]
    exact if_pos ⟨hlen, hdir⟩
  have honly : ∀ {pre post : List (List Byte)} {c : List Byte} {dir : Option FilePtr} {d : FilePtr},
      [name] = pre ++ c :: post → follow s.mem pre = some (dir, d) → c = name ∧ post = [] ∧ d = sRoot := by
    intro pre post c dir d hsplit hpre
    cases pre with
    | nil =>
      obtain ⟨rfl, rfl⟩ := List.cons.inj hsplit
      cases hpre
      exact ⟨rfl, rfl, rfl⟩
    | cons p pre =>
      have hnil := (List.cons.inj hsplit).2
      exact absurd hnil (by simp)
  refine gives_of_view ?_
  unfold fileOpen
  rw [Prog.run_bind_ok hwalk]
  cases hres with
  | @found pdir pf hf =>
    change follow s.mem [name] = _ at hf
    rw [hfollow] at hf
    obtain ⟨g, hlook, heq⟩ := Option.map_eq_some_iff.mp hf
    obtain ⟨rfl, rfl⟩ := Prod.mk.inj heq
    rw [hlook]
    rfl
  | badPath hsplit hpre hlong =>
    obtain ⟨rfl, -, -⟩ := honly hsplit hpre
    omega
  | notDir hsplit hpre _ hno =>
    obtain ⟨-, -, rfl⟩ := honly hsplit hpre
    exact absurd hdir hno
  | noPrefix hsplit hpre _ _ _ hpost => exact absurd (honly hsplit hpre).2.1 hpost
  | missing hsplit hpre _ _ hno =>
    obtain ⟨rfl, -, rfl⟩ := honly hsplit hpre
    change lookup s.mem sRoot _ = none at hno
    rw [hno]
    rfl

end

section

variable {files : List HostFile} {file : HostFile} {nb : Word} {h : Host} {s : Machine} {j : Nat}

theorem written_reads (hw : Written files nb h.disk) (hj : files[j]? = some file) (hs : s.mem = h.image)
    (hlt : j < 16 * dirBlocks files) : Reads s (entryPtr files j) file.body := by
  intro buf count offset hfits hbuf
  have hmax : MAXFILESIZE = 4235264 := rfl
  have hsizes := hw.sizes file (List.mem_of_getElem? hj)
  have hmem : s.view.mem = h.image := hs
  have hsize : (fileSize s.view.mem (entryPtr files j)).toNat = file.body.length := by rw [hmem, entry_size hw hj]
  have howned : Owned s.view.mem (Entries files) := hmem ▸ written_owned hw
  have hin : offset.toNat + count.toNat ≤ (fileSize s.view.mem (entryPtr files j)).toNat := hsize ▸ hfits
  have hall : ∀ p, offset.toNat ≤ p → p < offset.toNat + count.toNat →
      fileBlock s.view.mem (entryPtr files j) (p / BLKSIZE) ≠ 0 := fun p _ hhi => by
    have hlt' := size_mul_lt file (show p < file.body.length by omega)
    have hthree := three_le_top (files.take j)
    have hblk : p / BLKSIZE < file.size := Nat.div_lt_of_lt_mul hlt'
    rw [hmem, entry_block hw hj, if_pos hblk]
    exact Nat.ne_of_gt (Nat.lt_add_right _ (Nat.lt_of_lt_of_le (by decide) hthree))
  obtain ⟨v', hrun, hv'⟩ := run_fileRead_view howned (.inr ⟨j, hlt, rfl⟩) hin (by omega) hall hbuf
  refine ⟨v', hrun, fun r s' hmach => ?_, hv'.mem, fun i hi => ?_⟩
  · have hview := abstracts.run_ok hmach
    rw [hrun] at hview
    obtain ⟨hr, hs'⟩ := Prod.mk.inj hview
    exact ⟨(Except.ok.inj hr).symm, hs'.symm⟩
  · rw [hv'.byteAt, if_pos (by omega), Nat.add_sub_cancel_left, hmem, entry_byte hw hj (by omega)]

end

/-! ## No files -/

/-- The root gets a block all the same, which is not given out: `ROUNDUP` of an `int` 0 is 4096. -/
theorem fsformat_no_files {nblocks : Word} {junk : Nat → Word} {h : Host} (hrun : fsformat nblocks junk [] = .ok h) :
    fileBlock h.image sRoot 0 = 3 ∧ FreeIn h.image 3 := by
  obtain ⟨h2, hn, h₀, h₁, h₂, hopen, hwrite, hdir, rfl⟩ := fsformat_ok hrun
  rw [List.foldlM_nil] at hwrite
  obtain rfl : h₀ = h₁ := Except.ok.inj hwrite
  obtain ⟨hh₀, hroom⟩ := opendisk_ok h2 hn hopen
  have hat₀ : At h₀ 3 := by rw [hh₀]; exact ⟨rfl, hroom⟩
  have hn₀ : h₀.n = 0 := by rw [hh₀]
  have hsuper : h₀.super = 4096 := by rw [hh₀]
  obtain ⟨start, h₁, halloc, hfin⟩ := finishdir_steps hdir
  rw [hn₀] at halloc hfin
  obtain ⟨hstart, hh₁, hat₁⟩ := alloc_ok hat₀.pos (by decide) halloc
  have hblock : blockof start = 3 := by rw [hstart, blockof_mul]
  have hcopy : copyEnts h₁ start (0 * 256 / 4) = h₁ := rfl
  have hsuper₁ : h₁.super = 4096 := by rw [hh₁]; exact hsuper
  rw [hblock, hcopy, hsuper₁] at hfin
  have e := finishfile_ok (t := 3) ⟨hat₁.pos, hat₁.room⟩ (by decide) (fun k j hk hlt => by injection hk; omega) hfin
  have hpos : blockof h₂.diskpos = 3 := by rw [e.at_.pos]; rfl
  have hbitmap₀ : h₀.bitmap = 8192 := by rw [hh₀]
  have hbitmap₁ : h₁.bitmap = h₀.bitmap := by rw [hh₁]
  have hbitmap : h₂.bitmap / 4 = 2048 := by rw [e.vars.bitmap, hbitmap₁, hbitmap₀]
  have hword : ∀ i, i = 1025 ∨ 2048 ≤ i → h₂.disk i = h₀.disk i := fun i hi => by
    have hold : h₁.disk i = h₀.disk i := by rw [hh₁]
    rw [← hold]
    refine e.other (.disk i) (fun he => ?_) (fun k hk he => ?_) fun hfull => absurd hfull (by decide)
    · injection he with he
      omega
    · injection he with he
      have hten : NDIRECT = 10 := rfl
      omega
  have hlow : ∀ i, i < 2048 → (finishdisk h₂).disk i = h₂.disk i := fun i hi => clearBits_of_ne (.inl (by omega))
  have hdirect : h₂.disk 1060 = 3 := e.direct 0 (by decide)
  have hnb : nblocks = h₂.disk 1025 := by
    rw [hword _ (.inl rfl), hh₀]
    rfl
  have hones : h₂.disk 2048 = BitVec.allOnes 32 := by
    rw [hword _ (.inr le_rfl), hh₀]
    rfl
  have hbit := clearBits_bit h₂ 3 3
  rw [hbitmap, show 2048 + 3 / 32 = 2048 from rfl, hones] at hbit
  refine ⟨?_, ?_, ?_⟩
  · rw [fileBlock_of_slot (.inl (by decide)), slotBlk, slotIdx, if_pos (by decide), if_pos (by decide),
      image_word (by decide), hlow _ (by decide)]
    exact congrArg BitVec.toNat hdirect
  · rw [SisOp.Fs.nblocks, image_word (by decide), hlow _ (by decide)]
    exact hnb ▸ hroom
  · rw [show bitmapBlock 3 = 2 from rfl, image_word (by decide), finishdisk, hpos]
    exact hbit

theorem baseName_subset (path : List Byte) : baseName path ⊆ path := fun b hb => by
  unfold baseName at hb
  exact List.mem_reverse.mp ((List.takeWhile_prefix _).subset (List.mem_reverse.mp hb))

end SisOp.Fsformat
