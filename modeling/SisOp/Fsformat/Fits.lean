/-
# `SisOp.Fsformat.Fits` — which files fit on a disk

`fsformat` gives up when a file is not a regular one or too large, when the directory is
full, and when `alloc` comes to the last block of the disk, which it never gives out.  Where
`diskpos` stands depends on the sizes alone, so that it is known beforehand whether the files
fit.
-/
import SisOp.Fsformat.Written

namespace SisOp.Fsformat

open SisOp.Jos
open SisOp.Fs (BLKSIZE NDIRECT NINDIRECT MAXFILESIZE MAXNAMELEN FTYPE_REG)

/-- A regular file that is not too large. -/
def HostFile.Regular (file : HostFile) : Prop := ∃ content, file.content = some content ∧ content.length < MAXFILESIZE

theorem not_ok {α : Type} {e : String} : ¬ ∃ r : α, (Except.error e : Except String α) = .ok r := by
  rintro ⟨r, h⟩
  cases h

section

variable {h h' : Host} {f : Place} {start len bytes : Word} {t : Nat} {file : HostFile}

theorem alloc_iff (hat : h.diskpos = 4096 * t) (hn : bytes.toNat ≤ MAXFILESIZE) :
    (∃ r, alloc h bytes = .ok r) ↔ t + blocks bytes.toNat < h.nblocks.toNat := by
  rw [alloc_eq hat hn]
  split
  · rename_i hfull
    exact iff_of_false not_ok (Nat.not_lt_of_le hfull)
  · rename_i hroom
    exact ⟨fun _ => Nat.lt_of_not_le hroom, fun _ => ⟨_, rfl⟩⟩

theorem finishfile_iff (hat : At h t) (hlen : len.toNat ≤ MAXFILESIZE) :
    (∃ h', finishfile h f start len = .ok h') ↔ t + extra (blocks len.toNat) < h.nblocks.toNat := by
  have hn := toNat_ROUNDUP_div hlen
  obtain ⟨hv, hpos⟩ := setDirect_vars (h.set (f.field 32) len) f start (min (blocks len.toNat) NDIRECT)
  simp only [finishfile, hn]
  by_cases hfull : NDIRECT ≤ blocks len.toNat
  · have hblock : (4096 : Word).toNat ≤ MAXFILESIZE := by decide
    have hiff := alloc_iff (hpos.trans (set_diskpos.trans hat.pos)) hblock
    rw [hv.nblocks, set_nblocks] at hiff
    have hextra : extra (blocks len.toNat) = blocks (4096 : Word).toNat := if_pos hfull
    rw [if_pos (Nat.min_eq_right hfull), hextra, ← hiff]
    cases halloc : alloc _ 4096 with
    | error e => exact iff_of_false not_ok not_ok
    | ok r => exact ⟨fun _ => ⟨r, rfl⟩, fun _ => ⟨_, rfl⟩⟩
  · have hextra : extra (blocks len.toNat) = 0 := if_neg hfull
    rw [if_neg (fun he => hfull (by omega)), hextra]
    exact ⟨fun _ => hat.room, fun _ => ⟨_, rfl⟩⟩

/-- The place after a file, and the number of entries. -/
theorem writefile_pos (hat : At h t) (hrun : writefile h file = .ok h') :
    At h' (t + file.cost) ∧ h'.n = h.n + 1 ∧ h'.nblocks = h.nblocks ∧ h.n + 1 ≤ MAX_DIR_ENTS ∧ file.Regular := by
  obtain ⟨h₃, he, hlen, hroom, hfin⟩ := writefile_entered hat.pos hrun
  have e := finishfile_ok he.at_ (by rw [toNat_length hlen]; exact hlen.le) (fun _ _ hne _ => by injection hne) hfin
  have hat' := e.at_
  rw [toNat_length hlen, Nat.add_assoc] at hat'
  refine ⟨hat', e.vars.n.trans he.n, e.vars.nblocks.trans he.nblocks, hroom, ?_⟩
  unfold writefile at hrun
  unfold HostFile.body at hlen
  cases hcontent : file.content with
  | none => rw [hcontent] at hrun; cases hrun
  | some content =>
    rw [hcontent] at hlen
    exact ⟨content, hcontent, hlen⟩

theorem writefile_iff (hat : At h t) : (∃ h', writefile h file = .ok h') ↔
    file.Regular ∧ h.n + 1 ≤ MAX_DIR_ENTS ∧ t + file.cost < h.nblocks.toNat := by
  constructor
  · rintro ⟨h', hrun⟩
    obtain ⟨hat', -, hnb, hroom, hreg⟩ := writefile_pos hat hrun
    exact ⟨hreg, hroom, hnb ▸ hat'.room⟩
  · rintro ⟨⟨content, hcontent, hlen⟩, hroom, hfits⟩
    have hbody : file.body = content := by rw [HostFile.body, hcontent]; rfl
    have hcost : file.cost = blocks content.length + extra (blocks content.length) := by
      rw [HostFile.cost, HostFile.size, hbody]
    have hlenw : (BitVec.ofNat 32 content.length).toNat = content.length := hbody ▸ toNat_length (hbody.symm ▸ hlen)
    have hle : (BitVec.ofNat 32 content.length).toNat ≤ MAXFILESIZE := by rw [hlenw]; exact hlen.le
    unfold writefile
    rw [hcontent]
    simp only [if_neg (Nat.not_le_of_lt hlen), diradd, if_neg (Nat.not_lt_of_le hroom), bind, Except.bind]
    generalize hh₁ : Host.set _ _ FTYPE_REG = h₁
    have hpos : h₁.diskpos = 4096 * t := by rw [← hh₁]; exact hat.pos
    have hnb : h₁.nblocks = h.nblocks := by rw [← hh₁]; rfl
    rw [alloc_eq hpos hle, hnb, hlenw, if_neg (by omega)]
    refine (finishfile_iff (t := t + blocks content.length) ⟨rfl, ?_⟩ hle).mpr ?_
    · show t + blocks content.length < h.nblocks.toNat
      omega
    · rw [hlenw]
      show t + blocks content.length + extra (blocks content.length) < h.nblocks.toNat
      omega

theorem writefiles_pos {files : List HostFile} (hat : At h t) (hrun : files.foldlM writefile h = .ok h') :
    At h' (t + (files.map HostFile.cost).sum) ∧ h'.n = h.n + files.length ∧ h'.nblocks = h.nblocks := by
  induction files generalizing h t with
  | nil =>
    cases hrun
    exact ⟨hat, rfl, rfl⟩
  | cons file files ih =>
    rw [List.foldlM_cons] at hrun
    obtain ⟨h₁, hwrite, hrun⟩ := bind_eq_ok.mp hrun
    obtain ⟨hat₁, hn₁, hnb₁, -, -⟩ := writefile_pos hat hwrite
    obtain ⟨hat', hn', hnb'⟩ := ih hat₁ hrun
    refine ⟨?_, ?_, hnb'.trans hnb₁⟩
    · rwa [List.map_cons, List.sum_cons, ← Nat.add_assoc]
    · rw [hn', hn₁, List.length_cons]
      omega

/-- The files of the command line, one after the other. -/
theorem writefiles_iff {files : List HostFile} (hat : At h t) (hn : h.n ≤ MAX_DIR_ENTS) :
    (∃ h', files.foldlM writefile h = .ok h') ↔
      (∀ file ∈ files, file.Regular) ∧ h.n + files.length ≤ MAX_DIR_ENTS ∧
        t + (files.map HostFile.cost).sum < h.nblocks.toNat := by
  induction files generalizing h t with
  | nil => exact ⟨fun _ => ⟨fun _ hmem => absurd hmem List.not_mem_nil, hn, hat.room⟩, fun _ => ⟨h, rfl⟩⟩
  | cons file files ih =>
    have hiff : (∃ h', writefile h file = .ok h') ↔ _ := writefile_iff hat
    rw [List.foldlM_cons, List.forall_mem_cons, List.length_cons, List.map_cons, List.sum_cons]
    cases hwrite : writefile h file with
    | error e =>
      rw [hwrite] at hiff
      refine iff_of_false not_ok ?_
      rintro ⟨⟨hreg, -⟩, hroom, hfits⟩
      exact not_ok (hiff.mpr ⟨hreg, by omega, by omega⟩)
    | ok h₁ =>
      obtain ⟨hat₁, hn₁, hnb₁, hroom, hreg⟩ := writefile_pos hat hwrite
      refine (ih hat₁ (hn₁ ▸ hroom)).trans ?_
      rw [hn₁, hnb₁, Nat.add_assoc, Nat.add_assoc, Nat.add_comm 1]
      exact and_congr_left fun _ => ⟨fun hall => ⟨hreg, hall⟩, And.right⟩

end

section

variable {nblocks : Word} {junk : Nat → Word} {h h₁ : Host} {t : Nat} {files : List HostFile}

/-- The directory is of at most eight blocks. -/
theorem toNat_ROUNDUPint {n : Nat} (hn : n ≤ MAX_DIR_ENTS) :
    ∃ m ≤ 8, (BitVec.ofInt 32 (ROUNDUPint (n * 256 : Nat))).toNat = 4096 * m := by
  have hmax : MAX_DIR_ENTS = 128 := rfl
  rcases Nat.eq_zero_or_pos n with rfl | hpos
  · exact ⟨1, by decide, by decide⟩
  · refine ⟨blocks (n * 256), ?_, ?_⟩
    · unfold blocks
      omega
    · rw [ROUNDUPint_eq (by omega), BitVec.ofInt_natCast, BitVec.toNat_ofNat]
      unfold blocks
      omega

theorem finishdir_iff (hat : At h t) (hn : h.n ≤ MAX_DIR_ENTS) :
    (∃ h', finishdir h = .ok h') ↔ t + blocks (256 * h.n) < h.nblocks.toNat := by
  have hmax : MAX_DIR_ENTS = 128 := rfl
  have hsize : (BitVec.ofNat 32 (h.n * 256)).toNat = 256 * h.n := by
    rw [BitVec.toNat_ofNat]
    omega
  have hle : (BitVec.ofNat 32 (h.n * 256)).toNat ≤ MAXFILESIZE := by
    rw [hsize]
    exact le_trans (b := 32768) (by omega) (by decide)
  have hiff := alloc_iff hat.pos hle
  rw [hsize] at hiff
  unfold finishdir
  simp only
  cases halloc : alloc h (BitVec.ofNat 32 (h.n * 256)) with
  | error e =>
    rw [halloc] at hiff
    exact iff_of_false not_ok fun hlt => not_ok (hiff.mpr hlt)
  | ok r =>
    obtain ⟨start, h₁⟩ := r
    obtain ⟨-, hh₁, hat₁⟩ := alloc_ok hat.pos hle halloc
    obtain ⟨hv, hp, -⟩ := copyEnts_vars h₁ start (h.n * 256 / 4)
    obtain ⟨m, hm, hround⟩ := toNat_ROUNDUPint hn
    have hblocks : extra (blocks (BitVec.ofInt 32 (ROUNDUPint (h.n * 256 : Nat))).toNat) = 0 := by
      have hten : NDIRECT = 10 := rfl
      have hdiv : blocks (4096 * m) = m := by
        unfold blocks
        omega
      rw [hround, hdiv]
      exact if_neg (by omega)
    rw [hsize] at hat₁
    have hat₂ : At (copyEnts h₁ start (h.n * 256 / 4)) (t + blocks (256 * h.n)) :=
      ⟨hp.trans hat₁.pos, hv.nblocks.symm ▸ hat₁.room⟩
    have hlen : (BitVec.ofInt 32 (ROUNDUPint (h.n * 256 : Nat))).toNat ≤ MAXFILESIZE := by
      rw [hround]
      exact le_trans (Nat.mul_le_mul_left _ hm) (by decide)
    have hfin := @finishfile_iff _ (.disk ((copyEnts h₁ start (h.n * 256 / 4)).super / 4 + 2))
      (BitVec.ofNat 32 (blockof start)) _ _ hat₂ hlen
    have hnb : (copyEnts h₁ start (h.n * 256 / 4)).nblocks = h.nblocks := by rw [hv.nblocks, hh₁]
    rwa [hblocks, Nat.add_zero, hnb] at hfin

/-- What `opendisk` gives out. -/
theorem opendisk_iff (h2 : 2 ≤ nblocks) (hn : nblocks ≤ 1024) :
    (∃ h, opendisk nblocks junk = .ok h) ↔ 3 < nblocks.toNat := by
  refine ⟨?_, fun hroom => ?_⟩
  · rintro ⟨h, hrun⟩
    exact (opendisk_ok h2 hn hrun).2
  have hone := nbitblocks_eq h2 hn
  have hblock : blocks (4096 : Word).toNat = 1 := rfl
  have hblock' : blocks (1 * 4096 : Word).toNat = 1 := by decide
  unfold opendisk
  simp only [hone]
  rw [alloc_eq (t := 0) rfl (by decide), hblock, if_neg (by show ¬ nblocks.toNat ≤ 0 + 1; omega)]
  simp only [bind, Except.bind]
  rw [alloc_eq (t := 1) rfl (by decide), hblock, if_neg (by show ¬ nblocks.toNat ≤ 1 + 1; omega)]
  simp only
  rw [alloc_eq (t := 2) rfl (by decide), hblock', if_neg (by show ¬ nblocks.toNat ≤ 2 + 1; omega)]
  exact ⟨_, rfl⟩

/-- `fsformat` writes the disk exactly if there are not too many files, each is a regular one and not too large, and
their blocks, with one for the numbers behind the tenth, and those of the directory end before the last block. -/
theorem fsformat_fits (nblocks : Word) (junk : Nat → Word) (files : List HostFile) :
    (∃ h, fsformat nblocks junk files = .ok h) ↔
      nblocks ≤ 1024 ∧ (∀ file ∈ files, file.Regular) ∧ files.length ≤ MAX_DIR_ENTS ∧
        top files + dirBlocks files < nblocks.toNat := by
  have hthree := three_le_top files
  by_cases husage : nblocks < 2 ∨ nblocks > 1024
  · rw [fsformat, if_pos husage]
    refine iff_of_false not_ok ?_
    rintro ⟨hle, -, -, hroom⟩
    rcases husage with h2 | hbig
    · have hlt : nblocks.toNat < 2 := h2
      omega
    · exact absurd hle (BitVec.not_le.mpr hbig)
  · rw [fsformat, if_neg husage]
    have h2 : 2 ≤ nblocks := BitVec.not_lt.mp fun h => husage (.inl h)
    have hn : nblocks ≤ 1024 := BitVec.not_lt.mp fun h => husage (.inr h)
    have hopen : (∃ h, opendisk nblocks junk = .ok h) ↔ _ := opendisk_iff h2 hn
    simp only [bind, Except.bind, pure, Except.pure]
    cases hrun : opendisk nblocks junk with
    | error e =>
      rw [hrun] at hopen
      refine iff_of_false not_ok ?_
      rintro ⟨-, -, -, hroom⟩
      exact not_ok (hopen.mpr (by omega))
    | ok h₀ =>
      obtain ⟨rfl, hroom₀⟩ := opendisk_ok h2 hn hrun
      generalize hh₀ : Host.mk _ _ _ _ _ _ _ = h₀
      have hat : At h₀ 3 := by rw [← hh₀]; exact ⟨rfl, hroom₀⟩
      have hn₀ : h₀.n = 0 := by rw [← hh₀]
      have hnb₀ : h₀.nblocks = nblocks := by rw [← hh₀]
      have hfiles : (∃ h', files.foldlM writefile h₀ = .ok h') ↔ _ := writefiles_iff hat (hn₀ ▸ Nat.zero_le _)
      rw [hn₀, hnb₀, Nat.zero_add] at hfiles
      have htop : 3 + (files.map HostFile.cost).sum = top files := rfl
      simp only
      cases hwrite : files.foldlM writefile h₀ with
      | error e =>
        rw [hwrite] at hfiles
        refine iff_of_false not_ok ?_
        rintro ⟨-, hreg, hlen, hroom⟩
        exact not_ok (hfiles.mpr ⟨hreg, hlen, by omega⟩)
      | ok h₁ =>
        obtain ⟨hat₁, hn₁, hnb₁⟩ := writefiles_pos hat hwrite
        rw [hwrite] at hfiles
        obtain ⟨hreg, hlen, -⟩ := hfiles.mp ⟨_, rfl⟩
        rw [hn₀, Nat.zero_add] at hn₁
        have hdir := finishdir_iff hat₁ (hn₁ ▸ hlen)
        rw [hn₁, hnb₁, hnb₀, htop] at hdir
        simp only
        cases hfin : finishdir h₁ with
        | error e =>
          rw [hfin] at hdir
          refine iff_of_false not_ok ?_
          rintro ⟨-, -, -, hroom⟩
          exact not_ok (hdir.mpr hroom)
        | ok h₂ =>
          rw [hfin] at hdir
          exact ⟨fun _ => ⟨hn, hreg, hlen, hdir.mp ⟨_, rfl⟩⟩, fun _ => ⟨_, rfl⟩⟩

end

end SisOp.Fsformat
