/-
# `SisOp.Server.Sound` — a sound file system

Every entry of every directory is a file of the system, used or not, with a size in
range and a name that ends (`Sound`), and a directory has the blocks within its size
and no others (`Filled`).  Most of what the server does leaves the heads of the files
and the blocks of the directories alone (`Keeps`).
-/
import SisOp.Server.FailedWrite
import SisOp.Server.Indirect
import SisOp.Server.Truncate

namespace SisOp.Fs

open SisOp.Lib SisOp.Jos

/-- The files `F`: the root and the entries of the directories among them. -/
structure Sound (F : FilePtr → Prop) (mem : Nat → Block) : Prop where
  owned : Owned mem F
  root : F sRoot
  entries : ∀ d k j, F d → IsDir mem d → fileBlock mem d k ≠ 0 → j < BLKFILES →
    F ⟨fileBlock mem d k, 64 * j⟩
  size : ∀ g, F g → (fileSize mem g).toNat ≤ MAXFILESIZE
  named : ∀ g, F g → Named mem g
  /-- An entry not in use is not a directory. -/
  plain : ∀ g, F g → nameAt mem g 0 = 0 → ¬ IsDir mem g

/-- The blocks of a directory are those within its size. -/
def Filled (F : FilePtr → Prop) (mem : Nat → Block) : Prop :=
  ∀ d, F d → IsDir mem d → (fileSize mem d).toNat % BLKSIZE = 0 ∧
    ∀ k, fileBlock mem d k ≠ 0 ↔ k < (fileSize mem d).toNat / BLKSIZE

/-- Names, sizes, types and the blocks of directories are what they were. -/
structure Keeps (F : FilePtr → Prop) (mem mem' : Nat → Block) : Prop where
  owned : Owned mem' F
  head : ∀ g i, F g → i < 34 → mem' g.blk (g.idx + i) = mem g.blk (g.idx + i)
  dirs : ∀ d k, F d → IsDir mem d → fileBlock mem' d k = fileBlock mem d k

section

variable {mem mem' mem'' : Nat → Block} {F : FilePtr → Prop} {f g : FilePtr}

namespace Keeps

theorem refl (h : Owned mem F) : Keeps F mem mem := ⟨h, fun _ _ _ _ => rfl, fun _ _ _ _ => rfl⟩

variable (h : Keeps F mem mem')

include h

theorem isDir_iff (hg : F g) : IsDir mem' g ↔ IsDir mem g := by
  unfold IsDir
  rw [h.head g 33 hg (by decide)]

theorem fileSize_eq (hg : F g) : fileSize mem' g = fileSize mem g := h.head g 32 hg (by decide)

theorem nameAt_eq (hg : F g) {k : Nat} (hk : k < MAXNAMELEN) : nameAt mem' g k = nameAt mem g k := by
  have hlen : MAXNAMELEN = 128 := rfl
  unfold nameAt
  rw [h.head g (k / 4) hg (by omega)]

theorem trans (h' : Keeps F mem' mem'') : Keeps F mem mem'' where
  owned := h'.owned
  head := fun g i hg hi => (h'.head g i hg hi).trans (h.head g i hg hi)
  dirs := fun d k hd hdir => (h'.dirs d k hd ((h.isDir_iff hd).mpr hdir)).trans (h.dirs d k hd hdir)

theorem sound (hs : Sound F mem) : Sound F mem' where
  owned := h.owned
  root := hs.root
  entries := fun d k j hd hdir h0 hj => by
    have hdir' := (h.isDir_iff hd).mp hdir
    have hblk := h.dirs d k hd hdir'
    rw [hblk]
    exact hs.entries d k j hd hdir' (hblk ▸ h0) hj
  size := fun g hg => by
    rw [h.fileSize_eq hg]
    exact hs.size g hg
  named := fun g hg => by
    obtain ⟨k, hk, h0⟩ := hs.named g hg
    exact ⟨k, hk, (h.nameAt_eq hg hk).trans h0⟩
  plain := fun g hg h0 => by
    rw [h.nameAt_eq hg (by decide)] at h0
    rw [h.isDir_iff hg]
    exact hs.plain g hg h0

theorem filled (hs : Filled F mem) : Filled F mem' := by
  intro d hd hdir
  have hdir' := (h.isDir_iff hd).mp hdir
  rw [h.fileSize_eq hd]
  refine ⟨(hs d hd hdir').1, fun k => ?_⟩
  rw [h.dirs d k hd hdir']
  exact (hs d hd hdir').2 k

end Keeps

/-! ## What keeps them -/

variable {v v' : View} {b k : Nat}

/-- A change within the data blocks of a regular file. -/
theorem keeps_of_block (h : Owned v.mem F) (hf : F f) (hreg : ¬ IsDir v.mem f) (h0 : fileBlock v.mem f k ≠ 0)
    (hother : ∀ x, x ≠ fileBlock v.mem f k → v'.mem x = v.mem x) :
    Keeps F v.mem v'.mem ∧ nblocks v'.mem = nblocks v.mem ∧ (∀ x, FreeIn v'.mem x ↔ FreeIn v.mem x) ∧
      (∀ x, IsMeta v.mem F x → v'.mem x = v.mem x) := by
  have hlo : firstData v.mem ≤ fileBlock v.mem f k := (h.range (.data f k) hf h0).1
  have h2 := two_le_firstData v.mem
  have hmeta : ∀ x, IsMeta v.mem F x → v'.mem x = v.mem x := fun x hx =>
    hother x fun heq => h.data_not_meta hf hreg h0 (heq ▸ hx)
  have hn : nblocks v'.mem = nblocks v.mem := by
    unfold nblocks
    rw [hother 1 (by omega)]
  have hfree := freeIn_congr hn fun x _ hlt => hother x (by omega)
  refine ⟨⟨h.congr hn hmeta hfree, fun g i hg _ => ?_, fun d k hd _ => fileBlock_congr hmeta hd⟩, hn, hfree,
    hmeta⟩
  rw [hmeta _ ⟨g, hg, .inl rfl⟩]

namespace Owned

variable (h : Owned v.mem F) (hf : F f)

include h hf

theorem keeps_growIndirect (hb : FreeIn v.mem b) (h0 : indirectBlock v.mem f = 0) (hblank : Blank (v.mem b)) :
    Keeps F v.mem (v.growIndirect f b).mem where
  owned := h.growIndirect hf hb h0 hblank
  head := fun _ _ hg hi => h.field_growIndirect hf hb hg (by omega) fun _ => by omega
  dirs := fun _ k hd _ => h.fileBlock_growIndirect hf hb h0 hblank hd k

variable (hreg : ¬ IsDir v.mem f)

include hreg

theorem keeps_grow (hs : HasSlot v.mem f k) (hb : FreeIn v.mem b) (h0 : fileBlock v.mem f k = 0) :
    Keeps F v.mem (v.grow f k b).mem where
  owned := h.grow hf hs hb h0
  head := fun _ _ hg hi => h.field_grow hf hs hb hg (by omega) fun _ => .inl hi
  dirs := fun d j hd hdir => by
    rw [h.fileBlock_grow hf hs hb hd, if_neg]
    rintro ⟨rfl, -⟩
    exact hreg hdir

theorem keeps_dropIndirect (h0 : indirectBlock v.mem f ≠ 0) : Keeps F v.mem (v.dropIndirect f).mem where
  owned := h.dropIndirect hf h0 hreg
  head := fun _ _ hg hi => h.field_dropIndirect hf h0 hreg hg (by omega) fun _ => by omega
  dirs := fun d j hd hdir => by
    rw [h.fileBlock_dropIndirect hf h0 hreg hd, if_neg]
    rintro ⟨rfl, -⟩
    exact hreg hdir

end Owned

/-- What the loop of `file_truncate_blocks` leaves. -/
theorem Cut.keeps {v0 : View} {lo i : Nat} (hv : Cut F f lo v0 i v) (hreg : ¬ IsDir v0.mem f) :
    Keeps F v0.mem v.mem where
  owned := hv.owned
  head := fun g j hg hj => hv.field g j hg (by omega) fun _ => .inl hj
  dirs := fun d k hd hdir => by
    rw [hv.slots d k hd, if_neg]
    rintro ⟨rfl, -⟩
    exact hreg hdir

/-- What `file_truncate_blocks` leaves. -/
theorem Cleared.keeps {lo hi : Nat} {v' : View} (hv : Cleared F f lo hi v v') (hf : F f)
    (hreg : ¬ IsDir v.mem f) : Keeps F v.mem v'.mem := by
  cases hv with
  | kept hcut _ => exact hcut.keeps hreg
  | dropped hcut _ h0 =>
      have hkeeps := hcut.keeps hreg
      exact hkeeps.trans (hkeeps.owned.keeps_dropIndirect hf (mt (hkeeps.isDir_iff hf).mp hreg) h0)

/-! ## Sizes -/

/-- A regular file gets another size. -/
theorem Sound.setSize {n : Word} (h : Sound F v.mem) (hf : F f) (hn : n.toNat ≤ MAXFILESIZE) :
    Sound F (v.set f.fSize n).mem := by
  have howned : Owned (v.set f.fSize n).mem F := h.owned.setField hf (by decide)
  have hblk : ∀ g k, F g → fileBlock (v.set f.fSize n).mem g k = fileBlock v.mem g k := fun g k hg =>
    h.owned.fileBlock_setField hf (by decide) hg k
  have hdir : ∀ g, F g → (IsDir (v.set f.fSize n).mem g ↔ IsDir v.mem g) := fun g hg =>
    h.owned.isDir_setField hf (by decide) hg
  have hname : ∀ g k, F g → k < MAXNAMELEN → nameAt (v.set f.fSize n).mem g k = nameAt v.mem g k := by
    intro g k hg hk
    have hlen : MAXNAMELEN = 128 := rfl
    have hfield : (v.set f.fSize n).mem g.blk (g.idx + k / 4) = v.mem g.blk (g.idx + k / 4) :=
      h.owned.field_setField hf (by decide) hg (by omega) fun _ => by omega
    unfold nameAt
    rw [hfield]
  refine ⟨howned, h.root, fun d k j hd hd' h0 hj => ?_, fun g hg => ?_, fun g hg => ?_, fun g hg h0 => ?_⟩
  · rw [hblk d k hd] at h0 ⊢
    exact h.entries d k j hd ((hdir d hd).mp hd') h0 hj
  · by_cases hgf : g = f
    · subst hgf
      have hset : fileSize (v.set g.fSize n).mem g = n := View.get_set_self v g.fSize n
      rwa [hset]
    · have hfield : fileSize (v.set f.fSize n).mem g = fileSize v.mem g :=
        h.owned.field_setField hf (by decide) hg (by decide) fun heq => absurd heq hgf
      rw [hfield]
      exact h.size g hg
  · obtain ⟨k, hk, h0⟩ := h.named g hg
    exact ⟨k, hk, (hname g k hg hk).trans h0⟩
  · rw [hname g 0 hg (by decide)] at h0
    rw [hdir g hg]
    exact h.plain g hg h0

theorem Filled.setSize {n : Word} (h : Filled F v.mem) (hs : Sound F v.mem) (hf : F f)
    (hreg : ¬ IsDir v.mem f) : Filled F (v.set f.fSize n).mem := by
  intro d hd hdir
  have hdir' : IsDir v.mem d := (hs.owned.isDir_setField hf (by decide) hd).mp hdir
  have hne : d ≠ f := by
    rintro rfl
    exact hreg hdir'
  have hsize : fileSize (v.set f.fSize n).mem d = fileSize v.mem d :=
    hs.owned.field_setField hf (by decide) hd (by decide) fun heq => absurd heq hne
  rw [hsize]
  refine ⟨(h d hd hdir').1, fun k => ?_⟩
  have hblk : fileBlock (v.set f.fSize n).mem d k = fileBlock v.mem d k :=
    hs.owned.fileBlock_setField hf (by decide) hd k
  rw [hblk]
  exact (h d hd hdir').2 k

/-- The disk is sound again, with the same directories. -/
structure Advances (F : FilePtr → Prop) (mem mem' : Nat → Block) : Prop where
  sound : Sound F mem'
  filled : Filled F mem'
  isDir_iff : ∀ g, F g → (IsDir mem' g ↔ IsDir mem g)

namespace Advances

theorem refl (h : Sound F mem) (hs : Filled F mem) : Advances F mem mem := ⟨h, hs, fun _ _ => Iff.rfl⟩

theorem trans (h : Advances F mem mem') (h' : Advances F mem' mem'') : Advances F mem mem'' :=
  ⟨h'.sound, h'.filled, fun g hg => (h'.isDir_iff g hg).trans (h.isDir_iff g hg)⟩

end Advances

theorem Keeps.advances (h : Keeps F mem mem') (hs : Sound F mem) (hfill : Filled F mem) :
    Advances F mem mem' := ⟨h.sound hs, h.filled hfill, fun _ hg => h.isDir_iff hg⟩

theorem Sound.advances_setSize {n : Word} (h : Sound F v.mem) (hs : Filled F v.mem) (hf : F f)
    (hreg : ¬ IsDir v.mem f) (hn : n.toNat ≤ MAXFILESIZE) : Advances F v.mem (v.set f.fSize n).mem :=
  ⟨h.setSize hf hn, hs.setSize h hf hreg, fun _ hg => h.owned.isDir_setField hf (by decide) hg⟩

theorem Sound.small (h : Sound F mem) (hf : F f) : (fileSize mem f).toNat + 4095 < 2 ^ 31 := by
  have hmax : MAXFILESIZE = 4235264 := rfl
  have hle := h.size f hf
  omega

/-- `file_set_size` of a regular file to a size in range. -/
theorem Sound.run_fileSetSize {n : Word} (h : Sound F v.mem) (hs : Filled F v.mem) (hf : F f)
    (hreg : ¬ IsDir v.mem f) (hn : n.toNat ≤ MAXFILESIZE) :
    ∃ v', (fileSetSize f n).run onView v = (.ok 0, v') ∧ Advances F v.mem v'.mem := by
  have hmax : MAXFILESIZE = 4235264 := rfl
  have hold := h.small hf
  have hload : (load f.fSize).run onView v = (.ok (fileSize v.mem f), v) := run_load f.fSize v
  have hslt : n.slt (fileSize v.mem f) = true ↔ n.toNat < (fileSize v.mem f).toNat := by
    rw [BitVec.slt_iff_toInt_lt, toInt_of_lt (by omega), toInt_of_lt (by omega)]
    omega
  unfold fileSetSize
  rw [Prog.run_bind_ok hload, run_ite]
  by_cases hlt : n.toNat < (fileSize v.mem f).toNat
  · obtain ⟨w, hrun, hcleared⟩ := run_fileTruncateBlocks h.owned hf hreg hold hlt
    have hadv := (hcleared.keeps hf hreg).advances h hs
    rw [if_pos (hslt.mpr hlt), Prog.run_bind_ok hrun]
    exact ⟨w.set f.fSize n, rfl, hadv.trans (hadv.sound.advances_setSize hadv.filled hf
      (mt (hadv.isDir_iff f hf).mp hreg) hn)⟩
  · rw [if_neg (mt hslt.mp hlt)]
    exact ⟨v.set f.fSize n, rfl, h.advances_setSize hs hf hreg hn⟩

end

end SisOp.Fs
