/-
# `SisOp.Fsformat.Written` — the disk that is left

The directory is copied behind the files and the bits of the blocks given out are cleared.
`Written` is the whole disk: the super block with its root, the bitmap, the blocks of the
files, and the directory.
-/
import SisOp.Fsformat.Layout
import SisOp.Server.Blocks

namespace SisOp.Fsformat

open SisOp.Jos
open SisOp.Fs (BLKSIZE BLKBITSIZE NDIRECT NINDIRECT MAXFILESIZE MAXNAMELEN FTYPE_REG FTYPE_DIR Block)

/-! ## The loops -/

section

variable {h : Host} {start n i b : Nat}

theorem copyEnts_vars (h : Host) (start n : Nat) :
    SameVars h (copyEnts h start n) ∧ (copyEnts h start n).diskpos = h.diskpos ∧
      (copyEnts h start n).heap = h.heap := by
  induction n with
  | zero => exact ⟨.refl h, rfl, rfl⟩
  | succ n ih =>
    obtain ⟨hv, hpos, hheap⟩ := ih
    exact ⟨hv.trans ⟨set_nblocks, set_super, set_bitmap, set_n⟩, set_diskpos.trans hpos, hheap⟩

theorem copyEnts_disk (h : Host) (start n i : Nat) : (copyEnts h start n).disk i =
    if start / 4 ≤ i ∧ i < start / 4 + n then h.heap (i - start / 4) else h.disk i := by
  induction n with
  | zero => rw [copyEnts, if_neg (by omega)]
  | succ n ih =>
    rw [copyEnts, ← get_disk]
    by_cases hlast : i = start / 4 + n
    · rw [if_pos (by omega), hlast, get_set_self, (copyEnts_vars h start n).2.2, Nat.add_sub_cancel_left]
    · rw [get_set_of_ne (fun he => hlast (by injection he)), get_disk, ih]
      by_cases hin : start / 4 ≤ i ∧ i < start / 4 + n
      · rw [if_pos hin, if_pos (by omega)]
      · rw [if_neg hin, if_neg (by omega)]

theorem clearBits_vars (h : Host) (n : Nat) : SameVars h (clearBits h n) := by
  induction n with
  | zero => exact .refl h
  | succ n ih => exact ih.trans ⟨set_nblocks, set_super, set_bitmap, set_n⟩

theorem clearBits_of_ne (hi : i < h.bitmap / 4 ∨ h.bitmap / 4 + (n + 31) / 32 ≤ i) :
    (clearBits h n).disk i = h.disk i := by
  induction n with
  | zero => rfl
  | succ n ih =>
    have hbitmap := (clearBits_vars h n).bitmap
    rw [clearBits, ← get_disk, get_set_of_ne, get_disk, ih (by omega)]
    intro he
    injection he with he
    omega

theorem clearBits_bit (h : Host) (n b : Nat) : ((clearBits h n).disk (h.bitmap / 4 + b / 32)).getLsbD (b % 32) =
    ((h.disk (h.bitmap / 4 + b / 32)).getLsbD (b % 32) && decide (n ≤ b)) := by
  induction n with
  | zero => rw [clearBits, decide_eq_true (Nat.zero_le b), Bool.and_true]
  | succ n ih =>
    have hbitmap := (clearBits_vars h n).bitmap
    have hlow : b % 32 < 32 := Nat.mod_lt _ (by decide)
    rw [clearBits, hbitmap, ← get_disk]
    by_cases hword : b / 32 = n / 32
    · have hmask : (1#32 <<< (n % 32)).getLsbD (b % 32) = decide (b % 32 = n % 32) := SisOp.Fs.getLsbD_bitMask n _ hlow
      rw [hword, get_set_self, get_disk, BitVec.getLsbD_and, BitVec.getLsbD_not, hmask, ← hword, ih,
        decide_eq_true hlow,
        Bool.true_and, Bool.and_assoc]
      congr 1
      by_cases hb : b = n
      · simp [hb]
      · have hne : b % 32 ≠ n % 32 := by omega
        have hiff : n ≤ b ↔ n + 1 ≤ b := by omega
        simp [hne, hiff]
    · have hiff : n ≤ b ↔ n + 1 ≤ b := by omega
      rw [get_set_of_ne (fun he => hword (by injection he with he; omega)), get_disk, ih]
      simp only [hiff]

end

theorem ROUNDUPint_eq {n : Nat} (hn : 0 < n) : ROUNDUPint n = (4096 * blocks n : Nat) := by
  have hmod : ((n : Int) - 1).tmod 4096 = ((n : Int) - 1) % 4096 := Int.tmod_eq_emod_of_nonneg (by omega)
  unfold ROUNDUPint blocks
  rw [hmod]
  omega

/-! ## The directory -/

/-- The blocks of the directory. -/
def dirBlocks (files : List HostFile) : Nat := blocks (256 * files.length)

/-- The disk when the directory is on it. -/
def listed (files : List HostFile) (h : Host) (i : Nat) : Word :=
  if i = 1058 then BitVec.ofNat 32 (4096 * dirBlocks files)
  else if 1060 ≤ i ∧ i < 1060 + dirBlocks files then BitVec.ofNat 32 (top files + (i - 1060))
  else if 1024 * top files ≤ i ∧ i < 1024 * top files + 64 * files.length then h.heap (i - 1024 * top files)
  else h.disk i

section

variable {files : List HostFile} {h h' : Host}

theorem dirBlocks_le (hlen : files.length ≤ MAX_DIR_ENTS) : dirBlocks files ≤ 8 := by
  have hmax : MAX_DIR_ENTS = 128 := rfl
  unfold dirBlocks blocks
  omega

/-- What `finishdir` calls. -/
theorem finishdir_steps (hrun : finishdir h = .ok h') :
    ∃ start h₁, alloc h (BitVec.ofNat 32 (h.n * 256)) = .ok (start, h₁) ∧
      finishfile (copyEnts h₁ start (h.n * 256 / 4)) (.disk ((copyEnts h₁ start (h.n * 256 / 4)).super / 4 + 2))
        (BitVec.ofNat 32 (blockof start)) (BitVec.ofInt 32 (ROUNDUPint (h.n * 256 : Nat))) = .ok h' := by
  unfold finishdir at hrun
  obtain ⟨⟨start, h₁⟩, halloc, hfin⟩ := bind_eq_ok.mp hrun
  exact ⟨start, h₁, halloc, hfin⟩

theorem finishdir_ok (hl : Laid files h) (hne : files ≠ []) (hrun : finishdir h = .ok h') :
    At h' (top files + dirBlocks files) ∧ SameVars h h' ∧ ∀ i, h'.disk i = listed files h i := by
  have hmax : MAX_DIR_ENTS = 128 := rfl
  have hten : NDIRECT = 10 := rfl
  have hpos : 0 < files.length := List.length_pos_iff.mpr hne
  have hlen := hl.length
  have hnd := dirBlocks_le hlen
  have hthree := three_le_top files
  have hsize : (BitVec.ofNat 32 (files.length * 256)).toNat = 256 * files.length := by
    rw [BitVec.toNat_ofNat]
    omega
  have hround : BitVec.ofInt 32 (ROUNDUPint (files.length * 256 : Nat)) = BitVec.ofNat 32 (4096 * dirBlocks files) := by
    rw [ROUNDUPint_eq (by omega), BitVec.ofInt_natCast, dirBlocks, Nat.mul_comm files.length]
  have hlenw : (BitVec.ofNat 32 (4096 * dirBlocks files)).toNat = 4096 * dirBlocks files := by
    rw [BitVec.toNat_ofNat]
    omega
  have hblocks : blocks (4096 * dirBlocks files) = dirBlocks files := by
    conv => lhs; unfold blocks
    omega
  obtain ⟨start, h₁, halloc, hfin⟩ := finishdir_steps hrun
  rw [hl.n] at halloc hfin
  have hsmall : (BitVec.ofNat 32 (files.length * 256)).toNat ≤ MAXFILESIZE := by
    rw [hsize]
    exact le_trans (b := 32768) (by omega) (by decide)
  obtain ⟨hstart, hh₁, hat⟩ := alloc_ok hl.at_.pos hsmall halloc
  rw [hsize] at hat
  have hblock : blockof start = top files := by rw [hstart, blockof_mul]
  obtain ⟨hv, hp, -⟩ := copyEnts_vars h₁ start (files.length * 256 / 4)
  have hcopy := copyEnts_disk h₁ start (files.length * 256 / 4)
  have hsuper : (copyEnts h₁ start (files.length * 256 / 4)).super = 4096 := by rw [hv.super, hh₁, hl.super]
  rw [hblock, hsuper, hround] at hfin
  have e := finishfile_ok (t := top files + dirBlocks files) ⟨hp.trans hat.pos, hv.nblocks.symm ▸ hat.room⟩
    (by rw [hlenw]; exact le_trans (Nat.mul_le_mul_left _ hnd) (by decide))
    (fun k j hk hlt => by injection hk; omega) hfin
  have hextra : extra (blocks (BitVec.ofNat 32 (4096 * dirBlocks files)).toNat) = 0 := by
    rw [hlenw, hblocks, extra, if_neg (by omega)]
  refine ⟨?_, ⟨?_, ?_, ?_, ?_⟩, fun i => ?_⟩
  · have hat' := e.at_
    rwa [hextra, Nat.add_zero] at hat'
  · rw [e.vars.nblocks, hv.nblocks, hh₁]
  · rw [e.vars.super, hv.super, hh₁]
  · rw [e.vars.bitmap, hv.bitmap, hh₁]
  · rw [e.vars.n, hv.n, hh₁]
  · have hold : (copyEnts h₁ start (files.length * 256 / 4)).disk i =
        if 1024 * top files ≤ i ∧ i < 1024 * top files + 64 * files.length then h.heap (i - 1024 * top files)
        else h.disk i := by
      have hdiv : start / 4 = 1024 * top files := by omega
      have hwords : files.length * 256 / 4 = 64 * files.length := by omega
      rw [hcopy, hdiv, hwords, hh₁]
    have hdirect := e.direct
    have hother := e.other (.disk i)
    rw [hlenw, hblocks, Nat.min_eq_left (by omega)] at hdirect hother
    unfold listed
    by_cases h1 : i = 1058
    · have hplace : (Place.disk (4096 / 4 + 2)).field 32 = .disk 1058 := by decide
      have hk := e.size
      rw [hplace, get_disk] at hk
      rw [if_pos h1, h1]
      exact hk
    by_cases h2 : 1060 ≤ i ∧ i < 1060 + dirBlocks files
    · have hk := hdirect (i - 1060) (by omega)
      have hword : 1026 + (34 + (i - 1060)) = i := by omega
      have hplace : (Place.disk (4096 / 4 + 2)).field (34 + (i - 1060)) = .disk i := congrArg Place.disk hword
      rw [hplace, get_disk, ← BitVec.ofNat_add] at hk
      rw [if_neg h1, if_pos h2, hk]
    · rw [if_neg h1, if_neg h2, ← hold]
      exact hother (fun he => h1 (by injection he)) (fun k hk he => h2 (by injection he with he; omega))
        fun hfull => absurd hfull (by omega)

end

/-! ## The whole disk -/

/-- The word of the super block, with its root. -/
def rootWord (files : List HostFile) (nblocks : Word) (i : Nat) : Word :=
  if i = 34 then BitVec.ofNat 32 (4096 * dirBlocks files)
  else if 36 ≤ i ∧ i < 36 + dirBlocks files then BitVec.ofNat 32 (top files + (i - 36))
  else superWord nblocks i

/-- What is on the disk. -/
structure Written (files : List HostFile) (nblocks : Word) (m : Nat → Word) : Prop where
  small : nblocks ≤ 1024
  room : top files + dirBlocks files < nblocks.toNat
  length : files.length ≤ MAX_DIR_ENTS
  super : ∀ i < 1024, m (1024 + i) = rootWord files nblocks i
  free : ∀ b < BLKBITSIZE, (m (2048 + b / 32)).getLsbD (b % 32) = decide (top files + dirBlocks files ≤ b)
  entry : ∀ j file, files[j]? = some file → EntryAt m (1024 * top files + 64 * j) file (top (files.take j))
  spare : ∀ i, 64 * files.length ≤ i → i < 1024 * dirBlocks files → m (1024 * top files + i) = 0
  data : ∀ j file, files[j]? = some file → DataAt m file (top (files.take j))
  sizes : ∀ file ∈ files, file.body.length < MAXFILESIZE
  names : ∀ file ∈ files, file.name.length < MAXNAMELEN

section

variable {files : List HostFile} {nblocks : Word} {junk : Nat → Word} {h h₁ h₂ : Host}

theorem entries_le_dirBlocks (files : List HostFile) : 64 * files.length ≤ 1024 * dirBlocks files := by
  unfold dirBlocks blocks
  omega

/-- The disk behind the bitmap is what `finishdir` left. -/
theorem finishdisk_disk (hl : Laid files h) (hat : At h₁ (top files + dirBlocks files)) (hv : SameVars h h₁)
    (hn : h.nblocks ≤ 1024) :
    (∀ i, i < 2048 ∨ 3072 ≤ i → (finishdisk h₁).disk i = h₁.disk i) ∧
      ∀ b < BLKBITSIZE, ((finishdisk h₁).disk (2048 + b / 32)).getLsbD (b % 32) =
        ((h₁.disk (2048 + b / 32)).getLsbD (b % 32) && decide (top files + dirBlocks files ≤ b)) := by
  have hbitmap : h₁.bitmap / 4 = 2048 := by rw [hv.bitmap, hl.bitmap]
  have hblock : blockof h₁.diskpos = top files + dirBlocks files := by rw [hat.pos, blockof_mul]
  have hroom : top files + dirBlocks files < 1024 := lt_of_lt_of_le hat.room (hv.nblocks ▸ hn)
  rw [finishdisk, hblock]
  refine ⟨fun i hi => clearBits_of_ne (by omega), fun b _ => ?_⟩
  have hbit := clearBits_bit h₁ (top files + dirBlocks files) b
  rwa [hbitmap] at hbit

theorem finish_written (hl : Laid files h) (hne : files ≠ []) (hn : h.nblocks ≤ 1024) (hrun : finishdir h = .ok h₁) :
    Written files h.nblocks (finishdisk h₁).disk := by
  have hmax : MAX_DIR_ENTS = 128 := rfl
  have hbits : BLKBITSIZE = 32768 := rfl
  have hthree := three_le_top files
  have hlen := hl.length
  have hnd := dirBlocks_le hlen
  have hents := entries_le_dirBlocks files
  obtain ⟨hat, hv, hlisted⟩ := finishdir_ok hl hne hrun
  obtain ⟨hdisk, hfree⟩ := finishdisk_disk hl hat hv hn
  have hbehind : ∀ i, 3072 ≤ i → (finishdisk h₁).disk i =
      if 1024 * top files ≤ i ∧ i < 1024 * top files + 64 * files.length then h.heap (i - 1024 * top files)
      else h.disk i := fun i hi => by
    rw [hdisk i (.inr hi), hlisted, listed, if_neg (by omega), if_neg (by omega)]
  have hspare : ∀ i, 64 * files.length ≤ i → (finishdisk h₁).disk (1024 * top files + i) = 0 := fun i hi => by
    rw [hbehind _ (by omega), if_neg (by omega), hl.clear _ (by omega)]
  refine ⟨hn, hv.nblocks ▸ hat.room, hlen, fun i hi => ?_, fun b hb => ?_, fun j file hj => ?_,
    fun i hlo _ => hspare i hlo,
    fun j file hj => ?_, hl.sizes, hl.names⟩
  · rw [hdisk _ (.inl (by omega)), hlisted, listed, rootWord]
    by_cases h1 : i = 34
    · rw [if_pos h1, if_pos (by omega)]
    by_cases h2 : 36 ≤ i ∧ i < 36 + dirBlocks files
    · rw [if_neg h1, if_pos h2, if_neg (by omega), if_pos (by omega), show 1024 + i - 1060 = i - 36 by omega]
    · rw [if_neg h1, if_neg h2, if_neg (by omega), if_neg (by omega), if_neg (by omega), hl.block1 i hi]
  · have hones : h₁.disk (2048 + b / 32) = BitVec.allOnes 32 := by
      rw [hlisted, listed, if_neg (by omega), if_neg (by omega), if_neg (by omega), hl.block2 _ (by omega)]
    have hlow : b % 32 < 32 := Nat.mod_lt _ (by decide)
    rw [hfree b hb, hones, BitVec.getLsbD_allOnes, decide_eq_true hlow, Bool.true_and]
  · have hj' := (List.getElem?_eq_some_iff.mp hj).1
    have hentry :
        EntryAt (fun i => (finishdisk h₁).disk (1024 * top files + i)) (64 * j) file (top (files.take j)) := by
      refine (hl.entry j file hj).congr (hl.names file (List.mem_of_getElem? hj)) fun i hi => ?_
      rw [hbehind _ (by omega), if_pos (by omega), Nat.add_sub_cancel_left]
    refine ⟨fun k hk => ?_, ?_, ?_, fun i hi => ?_, ?_⟩
    · have hword : (4 * (1024 * top files + 64 * j) + k) / 4 = 1024 * top files + (4 * (64 * j) + k) / 4 := by omega
      have hbyte : (4 * (1024 * top files + 64 * j) + k) % 4 = (4 * (64 * j) + k) % 4 := by omega
      rw [← hentry.name k hk, byteIn, byteIn, hword, hbyte]
    · rw [← hentry.size, Nat.add_assoc]
    · rw [← hentry.type, Nat.add_assoc]
    · rw [← hentry.direct i hi, Nat.add_assoc]
    · rw [← hentry.indirect, Nat.add_assoc]
  · have hle := top_take_le hj
    have hthree' := three_le_top (files.take j)
    refine (hl.data j file hj).congr fun i hlo hhi => ?_
    rw [hbehind i (by omega), if_neg (by omega)]

/-- What `main` calls, one after the other. -/
theorem fsformat_ok (hrun : fsformat nblocks junk files = .ok h) : 2 ≤ nblocks ∧ nblocks ≤ 1024 ∧
    ∃ h₀ h₁ h₂, opendisk nblocks junk = .ok h₀ ∧ files.foldlM writefile h₀ = .ok h₁ ∧ finishdir h₁ = .ok h₂ ∧
      h = finishdisk h₂ := by
  unfold fsformat at hrun
  split at hrun
  · cases hrun
  rename_i husage
  obtain ⟨h2, hn⟩ := not_or.mp husage
  obtain ⟨h₀, hopen, hrun⟩ := bind_eq_ok.mp hrun
  obtain ⟨h₁, hwrite, hrun⟩ := bind_eq_ok.mp hrun
  obtain ⟨h₂, hdir, hrun⟩ := bind_eq_ok.mp hrun
  exact ⟨BitVec.not_lt.mp h2, BitVec.not_lt.mp hn, h₀, h₁, h₂, hopen, hwrite, hdir, (Except.ok.inj hrun).symm⟩

/-- The disk that `fsformat` leaves. -/
theorem fsformat_written (hjunk : ∀ i, junk i = 0) (hne : files ≠ [])
    (hnames : ∀ file ∈ files, file.name.length < MAXNAMELEN) (hrun : fsformat nblocks junk files = .ok h) :
    Written files nblocks h.disk := by
  obtain ⟨h2, hn, h₀, h₁, h₂, hopen, hwrite, hdir, rfl⟩ := fsformat_ok hrun
  obtain ⟨hl₀, hnb₀⟩ := opendisk_laid h2 hn hjunk hopen
  obtain ⟨hl₁, hnb₁⟩ := writefiles_laid hl₀ hnames hwrite
  rw [List.nil_append] at hl₁
  have hnb : h₁.nblocks = nblocks := hnb₁.trans hnb₀
  exact hnb ▸ finish_written hl₁ hne (hnb.symm ▸ hn) hdir

end

end SisOp.Fsformat
