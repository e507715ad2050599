/-
# `SisOp.Server.Creating` — new files and new directory blocks

`dir_alloc_file` takes an entry that is not in use, or makes the directory a block
longer.  The files of the system are then the entries of that block too: it has to be
blank, and the directory must not be as long as it can be (`Room`).
-/
import SisOp.Server.Lookup

namespace SisOp.Fs

open SisOp.Lib SisOp.Jos

/-! ## More files -/

section

variable {mem : Nat → Block} {F F' : FilePtr → Prop} {b i j : Nat}

/-- Files that have no block yet. -/
theorem Owned.extend (h : Owned mem F)
    (hplace : ∀ g, F' g → g = sRoot ∨ ∃ d k j, F' d ∧ IsDir mem d ∧ fileBlock mem d k ≠ 0 ∧ j < BLKFILES ∧
      g = ⟨fileBlock mem d k, 64 * j⟩)
    (hold : ∀ r : Ref, F' r.file → r.target mem ≠ 0 → F r.file) : Owned mem F' where
  disk := h.disk
  reserved := h.reserved
  place := hplace
  range := fun r hr h0 => h.range r (hold r hr h0) h0
  used := fun r hr h0 => h.used r (hold r hr h0) h0
  once := fun r r' hr hr' h0 heq => h.once r r' (hold r hr h0) (hold r' hr' (heq ▸ h0)) h0 heq

/-- A word of a `File` in a blank block. -/
theorem Blank.field (h : Blank (mem b)) (hj : j < BLKFILES) (hi : i < 64) : mem b (64 * j + i) = 0 := by
  have hfiles : BLKFILES = 16 := rfl
  exact h _ (by omega)

/-- A `File` of zeros. -/
theorem zero_file {f : FilePtr} (h : ∀ i < 64, mem f.blk (f.idx + i) = 0) :
    (∀ k, fileBlock mem f k = 0) ∧ indirectBlock mem f = 0 ∧ fileSize mem f = 0 ∧ nameAt mem f 0 = 0 ∧
      ¬ IsDir mem f := by
  have hten : NDIRECT = 10 := rfl
  have hind : indirectBlock mem f = 0 := congrArg BitVec.toNat (h 44 (by decide))
  refine ⟨fun k => ?_, hind, h 32 (by decide), ?_, fun hdir => ?_⟩
  · by_cases hk : k < NDIRECT
    · have hword : mem f.blk (f.idx + (34 + k)) = 0 := h _ (by omega)
      rw [fileBlock_of_slot (.inl hk), slotBlk, slotIdx, if_pos hk, if_pos hk]
      exact congrArg BitVec.toNat hword
    · exact fileBlock_of_no_slot fun hs => (hs.resolve_left hk).2 hind
  · unfold nameAt
    rw [h _ (by decide)]
    rfl
  · unfold IsDir at hdir
    rw [h 33 (by decide)] at hdir
    exact absurd hdir (by decide)

/-- A `File` in a blank block. -/
theorem Blank.file (h : Blank (mem b)) (hj : j < BLKFILES) :
    (∀ k, fileBlock mem ⟨b, 64 * j⟩ k = 0) ∧ indirectBlock mem ⟨b, 64 * j⟩ = 0 ∧
      fileSize mem ⟨b, 64 * j⟩ = 0 ∧ nameAt mem ⟨b, 64 * j⟩ 0 = 0 ∧ ¬ IsDir mem ⟨b, 64 * j⟩ :=
  zero_file fun _ hi => h.field hj hi

end

/-! ## A longer directory -/

/-- An entry of the directory is not in use. -/
def HasEntry (mem : Nat → Block) (d : FilePtr) : Prop :=
  ∃ k < (fileSize mem d).toNat / BLKSIZE, ∃ j < BLKFILES, nameAt mem ⟨fileBlock mem d k, 64 * j⟩ 0 = 0

/-- The directory can get a block: the blocks it takes, one or two, are there and blank. -/
def Room (mem : Nat → Block) (d : FilePtr) : Prop :=
  (fileSize mem d).toNat / BLKSIZE < NDIRECT + NINDIRECT ∧
    ∀ i, (HasSlot mem d ((fileSize mem d).toNat / BLKSIZE) → i = 0) → i ≤ 1 →
      ∃ b, NthFree mem i b ∧ Blank (mem b)

/-- The files after a directory has got block `b`. -/
def WithEntries (F : FilePtr → Prop) (b : Nat) (g : FilePtr) : Prop := F g ∨ ∃ j < BLKFILES, g = ⟨b, 64 * j⟩

/-- Nothing but the size of `d` has changed since `mem0`. -/
structure Longer (F : FilePtr → Prop) (d : FilePtr) (mem0 mem : Nat → Block) : Prop where
  owned : Owned mem F
  head : ∀ g i, F g → i < 34 → (g = d → i ≠ 32) → mem g.blk (g.idx + i) = mem0 g.blk (g.idx + i)
  size : (fileSize mem d).toNat = (fileSize mem0 d).toNat + BLKSIZE
  blocks : ∀ g k, F g → fileBlock mem g k = fileBlock mem0 g k

section

variable {mem0 : Nat → Block} {v v' : View} {F : FilePtr → Prop} {d f g : FilePtr} {b j k : Nat}

namespace Longer

variable (h : Longer F d mem0 v.mem) (hd : F d)

include h

theorem isDir_iff (hg : F g) : IsDir v.mem g ↔ IsDir mem0 g := by
  unfold IsDir
  rw [h.head g 33 hg (by decide) fun _ => by decide]

theorem fileSize_eq (hg : F g) (hne : g ≠ d) : fileSize v.mem g = fileSize mem0 g :=
  h.head g 32 hg (by decide) fun heq => absurd heq hne

theorem nameAt_eq (hg : F g) (hk : k < MAXNAMELEN) : nameAt v.mem g k = nameAt mem0 g k := by
  have hlen : MAXNAMELEN = 128 := rfl
  unfold nameAt
  rw [h.head g (k / 4) hg (by omega) fun _ => by omega]

/-- The new block of the directory is blank. -/
theorem grow (h0 : Sound F mem0) (hs : Filled F mem0) (hd : F d) (hdir : IsDir mem0 d)
    (hroom : (fileSize mem0 d).toNat / BLKSIZE < NDIRECT + NINDIRECT)
    (hslot : HasSlot v.mem d ((fileSize mem0 d).toNat / BLKSIZE)) (hb : FreeIn v.mem b)
    (hblank : Blank (v.mem b)) :
    Sound (WithEntries F b) (v.grow d ((fileSize mem0 d).toNat / BLKSIZE) b).mem ∧
      Filled (WithEntries F b) (v.grow d ((fileSize mem0 d).toNat / BLKSIZE) b).mem ∧
      (∀ g, F g → (IsDir (v.grow d ((fileSize mem0 d).toNat / BLKSIZE) b).mem g ↔ IsDir mem0 g)) ∧
      ∀ j < BLKFILES, ¬ IsDir (v.grow d ((fileSize mem0 d).toNat / BLKSIZE) b).mem ⟨b, 64 * j⟩ := by
  have hsize : BLKSIZE = 4096 := rfl
  have hmax : MAXFILESIZE = 4235264 := rfl
  have hrange : NDIRECT + NINDIRECT = 1034 := rfl
  obtain ⟨hmod, hwithin⟩ := hs d hd hdir
  have hlen := h.size
  generalize hk : (fileSize mem0 d).toNat / BLKSIZE = k at hroom hslot hwithin ⊢
  have hk0 : fileBlock v.mem d k = 0 := by
    rw [h.blocks d k hd]
    by_contra hne
    exact absurd ((hwithin k).mp hne) (lt_irrefl k)
  have hgrow := h.owned.grow hd hslot hb hk0
  have hb0 : b ≠ 0 := h.owned.ne_zero_of_free hb
  have hblk : ∀ g j, F g → fileBlock (v.grow d k b).mem g j = if g = d ∧ j = k then b else fileBlock mem0 g j := by
    intro g j hg
    rw [h.owned.fileBlock_grow hd hslot hb hg, h.blocks g j hg]
  have hhead : ∀ g i, F g → i < 34 → (v.grow d k b).mem g.blk (g.idx + i) = v.mem g.blk (g.idx + i) :=
    fun g i hg hi => h.owned.field_grow hd hslot hb hg (by omega) fun _ => .inl hi
  have hdirs : ∀ g, F g → (IsDir (v.grow d k b).mem g ↔ IsDir mem0 g) := fun g hg =>
    (h.owned.isDir_grow hd hslot hb hg).trans (h.isDir_iff hg)
  have hsizes : ∀ g, F g → fileSize (v.grow d k b).mem g = fileSize v.mem g := fun g hg =>
    hhead g 32 hg (by decide)
  have hnames : ∀ g i, F g → i < MAXNAMELEN → nameAt (v.grow d k b).mem g i = nameAt mem0 g i := by
    intro g i hg hi
    have hlen : MAXNAMELEN = 128 := rfl
    rw [← h.nameAt_eq hg hi]
    unfold nameAt
    rw [hhead g (i / 4) hg (by omega)]
  -- the new entries
  have hsame : (v.grow d k b).mem b = v.mem b := by
    have hlo := h.owned.le_of_free hb
    have hbit := bitmapBlock_lt hb.1
    have hne : b ≠ slotBlk v.mem d k := h.owned.free_ne_slotBlk hd hslot hb
    funext y
    exact h.owned.mem_grow hd hb (by omega) fun heq => hne heq.1
  have hzero : Blank ((v.grow d k b).mem b) := hsame.symm ▸ hblank
  have hnodir : ∀ j < BLKFILES, ¬ IsDir (v.grow d k b).mem ⟨b, 64 * j⟩ := fun j hj => (hzero.file hj).2.2.2.2
  have hdirF : ∀ g, WithEntries F b g → IsDir (v.grow d k b).mem g → F g := by
    rintro g (hg | ⟨j, hj, rfl⟩) hgdir
    · exact hg
    · exact absurd hgdir (hnodir j hj)
  refine ⟨⟨hgrow.extend ?_ ?_, .inl h0.root, ?_, ?_, ?_, ?_⟩, ?_, hdirs, hnodir⟩
  · -- place
    rintro g (hg | ⟨j, hj, rfl⟩)
    · refine (hgrow.place g hg).imp_right ?_
      rintro ⟨d', k', j, hd', hrest⟩
      exact ⟨d', k', j, .inl hd', hrest⟩
    · have hlast : fileBlock (v.grow d k b).mem d k = b := (hblk d k hd).trans (if_pos ⟨rfl, rfl⟩)
      exact .inr ⟨d, k, j, .inl hd, (hdirs d hd).mpr hdir, hlast.symm ▸ hb0, hj, by rw [hlast]⟩
  · -- no new file has a block
    rintro r (hr | ⟨j, hj, hr⟩) hne
    · exact hr
    · obtain ⟨hdata, hind, -⟩ := hzero.file hj
      cases r with
      | data g i =>
          obtain rfl : g = ⟨b, 64 * j⟩ := hr
          exact absurd (hdata i) hne
      | indirect g =>
          obtain rfl : g = ⟨b, 64 * j⟩ := hr
          exact absurd hind hne
  · -- the entries of directories
    intro d' k' j hd' hdir' hne hj
    have hF := hdirF d' hd' hdir'
    rw [hblk d' k' hF] at hne ⊢
    split
    · exact .inr ⟨j, hj, rfl⟩
    · rename_i hold
      rw [if_neg hold] at hne
      exact .inl (h0.entries d' k' j hF ((hdirs d' hF).mp hdir') hne hj)
  · -- sizes
    rintro g (hg | ⟨j, hj, rfl⟩)
    · rw [hsizes g hg]
      by_cases hgd : g = d
      · subst hgd
        rw [hlen]
        rw [hsize] at *
        omega
      · rw [h.fileSize_eq hg hgd]
        exact h0.size g hg
    · rw [(hzero.file hj).2.2.1]
      exact Nat.zero_le _
  · -- names
    rintro g (hg | ⟨j, hj, rfl⟩)
    · obtain ⟨i, hi, hnull⟩ := h0.named g hg
      exact ⟨i, hi, (hnames g i hg hi).trans hnull⟩
    · exact ⟨0, by decide, (hzero.file hj).2.2.2.1⟩
  · rintro g (hg | ⟨j, hj, rfl⟩) hnull
    · rw [hnames g 0 hg (by decide)] at hnull
      rw [hdirs g hg]
      exact h0.plain g hg hnull
    · exact hnodir j hj
  · -- the blocks of directories
    intro d' hd' hdir'
    have hF := hdirF d' hd' hdir'
    have hold := hs d' hF ((hdirs d' hF).mp hdir')
    rw [hsizes d' hF]
    by_cases hdd : d' = d
    · subst hdd
      rw [hlen]
      refine ⟨by rw [hsize] at *; omega, fun k' => ?_⟩
      rw [hblk d' k' hF]
      split
      · rename_i hnew
        refine ⟨fun _ => ?_, fun _ => hb0⟩
        rw [hsize] at *
        omega
      · rename_i hne
        have hk' : k' ≠ k := fun heq => hne ⟨rfl, heq⟩
        rw [hold.2 k']
        rw [hsize] at *
        omega
    · rw [h.fileSize_eq hF hdd]
      refine ⟨hold.1, fun k' => ?_⟩
      rw [hblk d' k' hF, if_neg fun hand => hdd hand.1]
      exact hold.2 k'

/-- A new indirect block. -/
theorem indexed {v1 : View} (hd : F d) (hblank : NextBlank v.mem d k) (hv : Indexed v d k v1) :
    Longer F d mem0 v1.mem := by
  cases hv with
  | same => exact h
  | @new b hk hk' h0 hb =>
      have hzero := hblank hk hk' h0 b hb
      have hsize : fileSize (v.growIndirect d b).mem d = fileSize v.mem d :=
        h.owned.field_growIndirect hd hb.free hd (by decide) fun _ => by decide
      refine ⟨h.owned.growIndirect hd hb.free h0 hzero, fun g i hg hi hne => ?_, ?_, fun g j hg => ?_⟩
      · rw [h.owned.field_growIndirect hd hb.free hg (by omega) fun _ => by omega]
        exact h.head g i hg hi hne
      · rw [hsize]
        exact h.size
      · rw [h.owned.fileBlock_growIndirect hd hb.free h0 hzero hg]
        exact h.blocks g j hg

end Longer

/-- The size is stored first. -/
theorem longer_setSize (h : Sound F v.mem) (hd : F d) :
    Longer F d v.mem (v.set d.fSize (fileSize v.mem d + 4096)).mem := by
  have hmax : MAXFILESIZE = 4235264 := rfl
  have hle := h.size d hd
  refine ⟨h.owned.setField hd (by decide), fun g i hg hi hne =>
    h.owned.field_setField hd (by decide) hg (by omega) hne, ?_, fun g k hg =>
    h.owned.fileBlock_setField hd (by decide) hg k⟩
  have hset : fileSize (v.set d.fSize (fileSize v.mem d + 4096)).mem d = fileSize v.mem d + 4096 :=
    View.get_set_self v d.fSize _
  rw [hset, BitVec.toNat_add, Nat.mod_eq_of_lt (by simp; omega)]
  rfl

/-- `Room` does not depend on the size that has been stored. -/
theorem nthFree_setSize (h : Owned v.mem F) (hd : F d) {i : Nat} {w : Word}
    (hb : NthFree (v.set d.fSize w).mem i b) : NthFree v.mem i b ∧ (v.set d.fSize w).mem b = v.mem b := by
  have hb' := (nthFree_congr (h.freeIn_setField hd)).mp hb
  exact ⟨hb', View.mem_set_of_ne _ _ (h.free_ne_blk hd hb'.free)⟩

/-- The files of the system after a call that may make a directory longer. -/
structure Opens (F F' : FilePtr → Prop) (mem mem' : Nat → Block) : Prop where
  sub : ∀ g, F g → F' g
  sound : Sound F' mem'
  filled : Filled F' mem'
  isDir_iff : ∀ g, F g → (IsDir mem' g ↔ IsDir mem g)

theorem Advances.opens {mem mem' : Nat → Block} (h : Advances F mem mem') : Opens F F mem mem' :=
  ⟨fun _ => id, h.sound, h.filled, h.isDir_iff⟩

theorem Opens.trans {F' F'' : FilePtr → Prop} {mem mem' mem'' : Nat → Block} (h : Opens F F' mem mem')
    (h' : Opens F' F'' mem' mem'') : Opens F F'' mem mem'' where
  sub := fun g hg => h'.sub g (h.sub g hg)
  sound := h'.sound
  filled := h'.filled
  isDir_iff := fun g hg => (h'.isDir_iff g (h.sub g hg)).trans (h.isDir_iff g hg)

/-- The block of a directory that is as long as its blocks. -/
theorem newEntries_ok (h : Sound F v.mem) (hs : Filled F v.mem) (hd : F d) (hdir : IsDir v.mem d)
    (hroom : Room v.mem d) {filebno : Word} (hbno : filebno.toNat = (fileSize v.mem d).toNat / BLKSIZE)
    {r : Except Int Nat}
    (hrun : (fileGetBlock d filebno).run onView (v.set d.fSize (fileSize v.mem d + 4096)) = (.ok r, v')) :
    ∃ b, r = .ok b ∧ Opens F (WithEntries F b) v.mem v'.mem ∧ ¬ IsDir v'.mem ⟨b, 0⟩ := by
  have hlonger := longer_setSize h hd
  obtain ⟨hlt, hblocks⟩ := hroom
  have hind : indirectBlock (v.set d.fSize (fileSize v.mem d + 4096)).mem d = indirectBlock v.mem d :=
    h.owned.indirectBlock_setField hd (by decide) hd
  have hslot : HasSlot (v.set d.fSize (fileSize v.mem d + 4096)).mem d filebno.toNat ↔
      HasSlot v.mem d ((fileSize v.mem d).toNat / BLKSIZE) := by
    unfold HasSlot
    rw [hind, hbno]
  generalize hv0 : v.set d.fSize (fileSize v.mem d + 4096) = v0 at hrun hlonger hind hslot
  have hnth : ∀ {i b}, NthFree v0.mem i b → NthFree v.mem i b ∧ v0.mem b = v.mem b := by
    intro i b hb
    rw [← hv0] at hb ⊢
    exact nthFree_setSize h.owned hd hb
  have hfree : ∀ x, FreeIn v0.mem x ↔ FreeIn v.mem x := by
    rw [← hv0]
    exact h.owned.freeIn_setField hd
  have hback : ∀ {i b}, NthFree v.mem i b → NthFree v0.mem i b ∧ v0.mem b = v.mem b := fun hb =>
    ⟨(nthFree_congr hfree).mpr hb, (hnth ((nthFree_congr hfree).mpr hb)).2⟩
  have hblank : NextBlank v0.mem d filebno.toNat := by
    intro hlo _ hzero b hb
    obtain ⟨hb', hsame⟩ := hnth hb
    obtain ⟨b', hb'', hbl⟩ := hblocks 0 (fun _ => rfl) (Nat.zero_le 1)
    rw [hsame, nthFree_unique hb' hb'']
    exact hbl
  have hgot := gotBlock_of_run hlonger.owned hd hblank hrun
  -- the block that is taken next
  have hnext : ∀ {v1}, Indexed v0 d filebno.toNat v1 →
      ∃ b, NthFree v1.mem 0 b ∧ Blank (v1.mem b) := by
    intro v1 hv
    cases hv with
    | same =>
        obtain ⟨b, hb, hbl⟩ := hblocks 0 (fun _ => rfl) (Nat.zero_le 1)
        obtain ⟨hb', hsame⟩ := hback hb
        exact ⟨b, hb', hsame.symm ▸ hbl⟩
    | @new b0 hk _ h0 hb0 =>
        have hno : ¬ HasSlot v.mem d ((fileSize v.mem d).toNat / BLKSIZE) := by
          rw [← hslot]
          rintro (hk' | ⟨-, hne⟩)
          · exact absurd hk hk'.not_ge
          · exact hne h0
        obtain ⟨b, hb, hbl⟩ := hblocks 1 (fun hs => absurd hs hno) le_rfl
        obtain ⟨hb', hsame⟩ := hback hb
        have hfree' : ∀ x, FreeIn (v0.growIndirect d b0).mem x ↔ FreeIn (v0.use b0).mem x := fun x => by
          rw [hlonger.owned.freeIn_growIndirect hd hb0.free, freeIn_use]
        have hlo := hlonger.owned.le_of_free hb'.free
        have hbit := bitmapBlock_lt hb0.free.1
        refine ⟨b, (nthFree_congr hfree').mpr ((nthFree_use hb0).mpr hb'), ?_⟩
        rw [Owned.mem_growIndirect (by omega) (hlonger.owned.free_ne_blk hd hb'.free), hsame]
        exact hbl
  have hzero : ∀ {v1}, Indexed v0 d filebno.toNat v1 → fileBlock v1.mem d filebno.toNat = 0 := by
    intro v1 hv
    rw [(hlonger.indexed hd hblank hv).blocks d _ hd, hbno]
    by_contra hne
    exact absurd (((hs d hd hdir).2 _).mp hne) (lt_irrefl _)
  cases hgot with
  | error hv hno =>
      rcases hno with hge | hnone
      · rw [hbno] at hge
        exact absurd hlt hge.not_gt
      · obtain ⟨b, hb, -⟩ := hnext hv
        exact absurd hb.free (hnone b)
  | held hv hne => exact absurd (hzero hv) hne
  | @new v1 b hv hs1 _ hb =>
      obtain ⟨b', hb', hbl⟩ := hnext hv
      obtain rfl := nthFree_unique hb hb'
      have hlonger1 := hlonger.indexed hd hblank hv
      rw [hbno] at hs1
      obtain ⟨hsound, hfilled, hdirs, hnodir⟩ := hlonger1.grow h hs hd hdir hlt hs1 hb.free hbl
      rw [← hbno] at hsound hfilled hdirs hnodir
      exact ⟨b, rfl, ⟨fun _ => .inl, hsound, hfilled, hdirs⟩, hnodir 0 (by decide)⟩

end

/-! ## Names -/

/-- Nothing but the name of `f` has changed. -/
structure Renamed (F : FilePtr → Prop) (f : FilePtr) (mem mem' : Nat → Block) : Prop where
  owned : Owned mem' F
  field : ∀ g i, F g → i < 64 → (g = f → 32 ≤ i) → mem' g.blk (g.idx + i) = mem g.blk (g.idx + i)
  blocks : ∀ g k, F g → fileBlock mem' g k = fileBlock mem g k

section

variable {mem mem' mem'' : Nat → Block} {v v' : View} {F : FilePtr → Prop} {f g : FilePtr} {k : Nat} {c : Byte}

namespace Renamed

theorem refl (h : Owned mem F) (f : FilePtr) : Renamed F f mem mem := ⟨h, fun _ _ _ _ _ => rfl, fun _ _ _ => rfl⟩

theorem trans (h : Renamed F f mem mem') (h' : Renamed F f mem' mem'') : Renamed F f mem mem'' where
  owned := h'.owned
  field := fun g i hg hi hne => (h'.field g i hg hi hne).trans (h.field g i hg hi hne)
  blocks := fun g k hg => (h'.blocks g k hg).trans (h.blocks g k hg)

variable (h : Renamed F f mem mem')

include h

theorem isDir_iff (hg : F g) : IsDir mem' g ↔ IsDir mem g := by
  unfold IsDir
  rw [h.field g 33 hg (by decide) fun _ => by decide]

theorem fileSize_eq (hg : F g) : fileSize mem' g = fileSize mem g :=
  h.field g 32 hg (by decide) fun _ => le_rfl

theorem nameAt_eq (hg : F g) (hne : g ≠ f) (hk : k < MAXNAMELEN) : nameAt mem' g k = nameAt mem g k := by
  have hlen : MAXNAMELEN = 128 := rfl
  unfold nameAt
  rw [h.field g (k / 4) hg (by omega) fun heq => absurd heq hne]

/-- A regular file has a new name. -/
theorem advances (hs : Sound F mem) (hfill : Filled F mem) (hf : F f) (hreg : ¬ IsDir mem f)
    (hnamed : Named mem' f) : Advances F mem mem' := by
  refine ⟨⟨h.owned, hs.root, fun d k j hd hdir h0 hj => ?_, fun g hg => ?_, fun g hg => ?_,
    fun g hg h0 => ?_⟩, fun d hd hdir => ?_, fun _ hg => h.isDir_iff hg⟩
  · rw [h.blocks d k hd] at h0 ⊢
    exact hs.entries d k j hd ((h.isDir_iff hd).mp hdir) h0 hj
  · rw [h.fileSize_eq hg]
    exact hs.size g hg
  · by_cases hgf : g = f
    · exact hgf ▸ hnamed
    · obtain ⟨k, hk, h0⟩ := hs.named g hg
      exact ⟨k, hk, (h.nameAt_eq hg hgf hk).trans h0⟩
  · rw [h.isDir_iff hg]
    by_cases hgf : g = f
    · exact hgf ▸ hreg
    · rw [h.nameAt_eq hg hgf (by decide)] at h0
      exact hs.plain g hg h0
  · have hold := hfill d hd ((h.isDir_iff hd).mp hdir)
    rw [h.fileSize_eq hd]
    refine ⟨hold.1, fun k => ?_⟩
    rw [h.blocks d k hd]
    exact hold.2 k

end Renamed

/-- One byte of a name. -/
theorem run_setNameByte (h : Owned v.mem F) (hf : F f) (hk : k < MAXNAMELEN) :
    ∃ v', (setNameByte f k c).run onView v = (.ok (), v') ∧ Renamed F f v.mem v'.mem ∧ nameAt v'.mem f k = c := by
  have hlen : MAXNAMELEN = 128 := rfl
  have hi : k / 4 < 33 := by omega
  unfold setNameByte
  rw [Prog.run_bind_ok (run_load _ v), run_store]
  refine ⟨_, rfl, ⟨h.setField hf hi, fun g i hg hi' hne => ?_, fun g j hg => h.fileBlock_setField hf hi hg j⟩, ?_⟩
  · exact h.field_setField hf hi hg hi' fun heq => by
      have := hne heq
      omega
  · unfold nameAt
    have hget := View.get_set_self v (f.field (k / 4)) (withByte (v.get (f.field (k / 4))) (k % 4) c)
    change byteOf ((v.set (f.field (k / 4)) _).get (f.field (k / 4))) (k % 4) = c
    rw [hget, byteOf_withByte (Nat.mod_lt _ (by decide)) (Nat.mod_lt _ (by decide)), if_pos rfl]

/-- `strcpy(f->f_name, name)` of a name that fits. -/
theorem run_setName (h : Owned v.mem F) (hf : F f) (name : List Byte) (hk : k + name.length < MAXNAMELEN) :
    ∃ v', (setName f name k).run onView v = (.ok (), v') ∧ Renamed F f v.mem v'.mem ∧ Named v'.mem f := by
  induction name generalizing k v with
  | nil =>
      obtain ⟨v', hrun, hren, h0⟩ := run_setNameByte (c := 0) h hf hk
      exact ⟨v', hrun, hren, k, hk, h0⟩
  | cons c name ih =>
      rw [List.length_cons] at hk
      obtain ⟨v1, hrun, hren, -⟩ := run_setNameByte (c := c) h hf (show k < MAXNAMELEN by omega)
      obtain ⟨v', hrest, hren', hnamed⟩ := ih (k := k + 1) hren.owned (by omega)
      refine ⟨v', ?_, hren.trans hren', hnamed⟩
      rw [setName, Prog.run_bind_ok hrun, hrest]

end

/-! ## `file_create` -/

section

variable {v v' : View} {F : FilePtr → Prop} {d : FilePtr} {path : List Byte} {r : Except Int FilePtr}

theorem dirAllocFile_ok (h : Sound F v.mem) (hs : Filled F v.mem) (hd : F d) (hdir : IsDir v.mem d)
    (hroom : HasEntry v.mem d ∨ Room v.mem d) (hrun : (dirAllocFile d).run onView v = (.ok r, v')) :
    ∃ F', Opens F F' v.mem v'.mem ∧ (∀ e, r = .error e → v' = v) ∧
      ∀ f, r = .ok f → F' f ∧ ¬ IsDir v'.mem f := by
  have htest : ∀ (g : FilePtr) (v : View) (r : Bool) (v' : View),
      (do return (← nameByte g 0) = 0 : FsM Bool).run onView v = (.ok r, v') → v' = v := by
    intro g v r v' hrun
    cases hrun
    rfl
  unfold dirAllocFile at hrun
  obtain ⟨nblock, v1, hblocks, hrest⟩ := Prog.bind_ok hrun
  obtain ⟨rfl, rfl⟩ := dirBlocks_ok h hd hblocks
  obtain ⟨found, v2, hscan, hlast⟩ := Prog.bind_ok hrest
  obtain ⟨rfl, hsome, hnone⟩ := scanDir_ok htest h hs hd hdir (Nat.zero_add _).le hscan
  rcases found with e | _ | g
  · cases hlast
    refine ⟨F, (Advances.refl h hs).opens, fun _ _ => rfl, fun f hf => ?_⟩
    cases hf
  · -- no entry is left
    have hroom' : Room v2.mem d := by
      refine hroom.resolve_left ?_
      rintro ⟨k, hk, j, hj, h0⟩
      have hfalse := hnone rfl k (Nat.zero_le k) (by omega) j hj
      have htrue : (do return (← nameByte ⟨fileBlock v2.mem d k, 64 * j⟩ 0) = 0 : FsM Bool).run onView v2 =
          (.ok true, v2) := by
        rw [Prog.run_bind_ok (run_nameByte _ 0 v2), h0]
        rfl
      rw [htrue] at hfalse
      cases hfalse
    have hmax : MAXFILESIZE = 4235264 := rfl
    have hsize := h.size d hd
    have hbno : (BitVec.ofNat 32 ((fileSize v2.mem d).toNat / BLKSIZE)).toNat =
        (fileSize v2.mem d).toNat / BLKSIZE := by
      rw [BitVec.toNat_ofNat, Nat.mod_eq_of_lt]
      unfold BLKSIZE
      omega
    have hload : (load d.fSize).run onView v2 = (.ok (fileSize v2.mem d), v2) := run_load d.fSize v2
    simp only at hlast
    rw [Prog.run_bind_ok hload, Prog.run_bind_ok (run_store _ _ _)] at hlast
    obtain ⟨blk, v3, hget, hend⟩ := Prog.bind_ok hlast
    obtain ⟨b, rfl, hopens, hreg⟩ := newEntries_ok h hs hd hdir hroom' hbno hget
    cases hend
    refine ⟨WithEntries F b, hopens, fun e he => ?_, fun f hf => ?_⟩
    · cases he
    · cases hf
      exact ⟨.inr ⟨0, by decide, rfl⟩, hreg⟩
  · cases hlast
    obtain ⟨hg, htrue⟩ := hsome g rfl
    rw [Prog.run_bind_ok (run_nameByte _ 0 _)] at htrue
    have h0 : nameAt v'.mem g 0 = 0 := by
      cases hd' : decide (nameAt v'.mem g 0 = 0) with
      | true => exact of_decide_eq_true hd'
      | false =>
          rw [hd'] at htrue
          cases htrue
    refine ⟨F, (Advances.refl h hs).opens, fun e he => ?_, fun f hf => ?_⟩
    · cases he
    · cases hf
      exact ⟨hg, h.plain g hg h0⟩

/-- What creating the file `path` needs: an entry, or room for a block of them. -/
def CreateFits (v : View) (path : List Byte) : Prop :=
  ∀ d name, (walkPath path).run onView v = (.ok (.missing d name), v) → HasEntry v.mem d ∨ Room v.mem d

theorem fileCreate_ok (h : Sound F v.mem) (hs : Filled F v.mem) (hfits : CreateFits v path)
    (hrun : (fileCreate path).run onView v = (.ok r, v')) :
    ∃ F', Opens F F' v.mem v'.mem ∧ (∀ e, r = .error e → v' = v) ∧
      ∀ f, r = .ok f → F' f ∧ ¬ IsDir v'.mem f := by
  unfold fileCreate at hrun
  obtain ⟨w, v1, hwalk, hrest⟩ := Prog.bind_ok hrun
  obtain ⟨rfl, hend⟩ := walkPath_ok h hs hwalk
  have hsame : ∀ e, ∃ F', Opens F F' v1.mem v1.mem ∧ (∀ e', Except.error e = (.error e' : Except Int FilePtr) →
      v1 = v1) ∧ ∀ f, Except.error e = (.ok f : Except Int FilePtr) → F' f ∧ ¬ IsDir v1.mem f := fun e =>
    ⟨F, (Advances.refl h hs).opens, fun _ _ => rfl, fun f hf => by cases hf⟩
  cases hend with
  | found _ =>
      cases hrest
      exact hsame _
  | failed r =>
      cases hrest
      exact hsame _
  | @missing d name hd hdir hlen =>
      simp only at hrest
      obtain ⟨res, v2, halloc, hend⟩ := Prog.bind_ok hrest
      obtain ⟨F', hopens, herr, hnew⟩ := dirAllocFile_ok h hs hd hdir (hfits d name hwalk) halloc
      cases res with
      | error e =>
          cases hend
          exact ⟨F', hopens, herr, fun f hf => by cases hf⟩
      | ok f =>
          obtain ⟨hf, hreg⟩ := hnew f rfl
          obtain ⟨v3, hname, hren, hnamed⟩ := run_setName hopens.sound.owned hf name ((Nat.zero_add _).trans_lt hlen)
          simp only at hend
          rw [Prog.run_bind_ok hname] at hend
          obtain ⟨_, v4, hflush, hret⟩ := Prog.bind_ok hend
          obtain rfl := fileFlush_same hflush
          cases hret
          have hadv := hren.advances hopens.sound hopens.filled hf hreg hnamed
          refine ⟨F', hopens.trans hadv.opens, fun e he => ?_, fun f' hf' => ?_⟩
          · cases he
          · cases hf'
            exact ⟨hf, mt (hadv.isDir_iff f hf).mp hreg⟩

end

end SisOp.Fs
