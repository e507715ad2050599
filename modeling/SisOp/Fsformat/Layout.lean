/-
# `SisOp.Fsformat.Layout` — where everything is on the disk

Every function of `fsformat` writes in what it has just been given by `alloc`, and in one
`struct File`; what it leaves of the rest is as it was.  `Laid` is what is on the disk after
some files: each has its blocks behind those of the file before it, an indirect block behind
its last one if it has ten or more, and its entry in the directory; and from `diskpos` on the
disk is zero.
-/
import SisOp.Fsformat.Image
import SisOp.Jos.Effects
import Mathlib.Data.List.GetD

namespace SisOp.Fsformat

open SisOp.Jos
open SisOp.Fs (BLKSIZE BLKBITSIZE NDIRECT NINDIRECT MAXFILESIZE MAXNAMELEN FTYPE_REG FTYPE_DIR Block)

/-! ## Words and bytes -/

section

variable {h : Host} {p q : Place} {w : Word}

@[simp] theorem get_disk (i : Nat) : h.get (.disk i) = h.disk i := rfl
@[simp] theorem get_heap (i : Nat) : h.get (.heap i) = h.heap i := rfl
@[simp] theorem set_diskpos : (h.set p w).diskpos = h.diskpos := by cases p <;> rfl
@[simp] theorem set_nblocks : (h.set p w).nblocks = h.nblocks := by cases p <;> rfl
@[simp] theorem set_super : (h.set p w).super = h.super := by cases p <;> rfl
@[simp] theorem set_bitmap : (h.set p w).bitmap = h.bitmap := by cases p <;> rfl
@[simp] theorem set_n : (h.set p w).n = h.n := by cases p <;> rfl

theorem get_set_self : (h.set p w).get p = w := by
  cases p <;> exact Function.update_self ..

theorem get_set_of_ne (hne : q ≠ p) : (h.set p w).get q = h.get q := by
  cases p with
  | disk i =>
    cases q with
    | disk j => exact Function.update_of_ne (fun he => hne (congrArg Place.disk he)) ..
    | heap j => rfl
  | heap i =>
    cases q with
    | disk j => rfl
    | heap j => exact Function.update_of_ne (fun he => hne (congrArg Place.heap he)) ..

theorem field_inj {j k : Nat} : p.field j = p.field k ↔ j = k := by
  cases p <;> simp [Place.field]

end

/-- A byte stored in its word. -/
theorem byteIn_update {m : Nat → Word} (a x : Nat) (b : Byte) :
    byteIn (Function.update m (a / 4) (withByte (m (a / 4)) (a % 4) b)) x = if x = a then b else byteIn m x := by
  unfold byteIn
  by_cases hword : x / 4 = a / 4
  · rw [hword, Function.update_self, byteOf_withByte (Nat.mod_lt _ (by decide)) (Nat.mod_lt _ (by decide))]
    by_cases hx : x = a
    · rw [if_pos hx, if_pos (by rw [hx])]
    · rw [if_neg hx, if_neg (by omega)]
  · rw [Function.update_of_ne hword, if_neg (fun hx => hword (by rw [hx]))]

theorem byteIn_setBytes (m : Nat → Word) (a x : Nat) (bs : List Byte) :
    byteIn (setBytes m a bs) x = if a ≤ x ∧ x < a + bs.length then bs.getD (x - a) 0 else byteIn m x := by
  induction bs generalizing m a with
  | nil => rw [setBytes, List.length_nil, if_neg (by omega)]
  | cons b bs ih =>
    rw [setBytes, ih, byteIn_update, List.length_cons]
    by_cases hx : x = a
    · rw [if_neg (by omega), if_pos hx, if_pos (by omega), hx, Nat.sub_self]
      rfl
    · rw [if_neg hx]
      by_cases hin : a + 1 ≤ x ∧ x < a + 1 + bs.length
      · rw [if_pos hin, if_pos (by omega), show x - a = (x - (a + 1)) + 1 by omega, List.getD_cons_succ]
      · rw [if_neg hin, if_neg (by omega)]

/-- Words without one of the bytes stay. -/
theorem setBytes_of_ne {m : Nat → Word} {a i : Nat} {bs : List Byte}
    (h : 4 * i + 4 ≤ a ∨ a + bs.length ≤ 4 * i) : setBytes m a bs i = m i := by
  induction bs generalizing m a with
  | nil => rfl
  | cons b bs ih =>
    rw [List.length_cons] at h
    rw [setBytes, ih (by omega), Function.update_of_ne (by omega)]

/-! ## `alloc` -/

/-- How many blocks that many bytes take. -/
def blocks (n : Nat) : Nat := (n + 4095) / 4096

theorem toNat_ROUNDUP {n : Word} (hn : n.toNat ≤ MAXFILESIZE) : (ROUNDUP n).toNat = 4096 * blocks n.toNat := by
  have hmax : MAXFILESIZE = 4235264 := rfl
  have hsub : (n - 1).toNat = (n.toNat + (2 ^ 32 - 1)) % 2 ^ 32 := by
    rw [BitVec.toNat_sub]
    exact congrArg (· % 2 ^ 32) (Nat.add_comm _ _)
  have h4096 : (4096 : Word).toNat = 4096 := rfl
  unfold ROUNDUP blocks
  rw [BitVec.toNat_sub, BitVec.toNat_umod, BitVec.toNat_add, hsub, h4096]
  omega

theorem toNat_ROUNDUP_div {n : Word} (hn : n.toNat ≤ MAXFILESIZE) : (ROUNDUP n / 4096).toNat = blocks n.toNat := by
  rw [BitVec.toNat_udiv, toNat_ROUNDUP hn]
  exact Nat.mul_div_cancel_left _ (by decide)

theorem blockof_mul (t : Nat) : blockof (4096 * t) = t := Nat.mul_div_cancel_left _ (by decide)

/-- The disk has been given out up to block `t`. -/
structure At (h : Host) (t : Nat) : Prop where
  pos : h.diskpos = 4096 * t
  room : t < h.nblocks.toNat

theorem alloc_eq {h : Host} {t : Nat} {bytes : Word} (hat : h.diskpos = 4096 * t) (hn : bytes.toNat ≤ MAXFILESIZE) :
    alloc h bytes =
      if h.nblocks.toNat ≤ t + blocks bytes.toNat then .error "out of disk blocks"
      else .ok (4096 * t, { h with diskpos := 4096 * (t + blocks bytes.toNat) }) := by
  have hpos : 4096 * t + (ROUNDUP bytes).toNat = 4096 * (t + blocks bytes.toNat) := by
    rw [toNat_ROUNDUP hn]
    omega
  simp only [alloc, hpos, blockof_mul, hat, ge_iff_le]

theorem alloc_ok {h : Host} {t : Nat} {bytes : Word} (hat : h.diskpos = 4096 * t) (hn : bytes.toNat ≤ MAXFILESIZE)
    {start : Nat} {h' : Host} (hrun : alloc h bytes = .ok (start, h')) :
    start = 4096 * t ∧ h' = { h with diskpos := 4096 * (t + blocks bytes.toNat) } ∧ At h' (t + blocks bytes.toNat) := by
  rw [alloc_eq hat hn] at hrun
  split at hrun
  · cases hrun
  · rename_i hroom
    cases hrun
    exact ⟨rfl, rfl, rfl, Nat.lt_of_not_le hroom⟩

/-! ## `finishfile` -/

/-- The variables that are no memory, but for `diskpos`. -/
structure SameVars (h h' : Host) : Prop where
  nblocks : h'.nblocks = h.nblocks
  super : h'.super = h.super
  bitmap : h'.bitmap = h.bitmap
  n : h'.n = h.n

theorem SameVars.refl (h : Host) : SameVars h h := ⟨rfl, rfl, rfl, rfl⟩

theorem SameVars.trans {h h' h'' : Host} (a : SameVars h h') (b : SameVars h' h'') : SameVars h h'' :=
  ⟨b.nblocks.trans a.nblocks, b.super.trans a.super, b.bitmap.trans a.bitmap, b.n.trans a.n⟩

section

variable {h : Host} {f q : Place} {start : Word} {ind n i : Nat}

theorem setDirect_vars (h : Host) (f : Place) (start : Word) (n : Nat) :
    SameVars h (setDirect h f start n) ∧ (setDirect h f start n).diskpos = h.diskpos := by
  induction n with
  | zero => exact ⟨.refl h, rfl⟩
  | succ n ih =>
    obtain ⟨hv, hpos⟩ := ih
    exact ⟨hv.trans ⟨set_nblocks, set_super, set_bitmap, set_n⟩, set_diskpos.trans hpos⟩

theorem setDirect_get (hi : i < n) : (setDirect h f start n).get (f.field (34 + i)) = start + BitVec.ofNat 32 i := by
  induction n with
  | zero => exact absurd hi (Nat.not_lt_zero i)
  | succ n ih =>
    rw [setDirect]
    rcases Nat.lt_succ_iff_lt_or_eq.mp hi with hlt | rfl
    · rw [get_set_of_ne (fun he => by have := field_inj.mp he; omega), ih hlt]
    · exact get_set_self

theorem setDirect_of_ne (hq : ∀ i < n, q ≠ f.field (34 + i)) : (setDirect h f start n).get q = h.get q := by
  induction n with
  | zero => rfl
  | succ n ih =>
    rw [setDirect, get_set_of_ne (hq n (Nat.lt_succ_self n)), ih fun i hi => hq i (hi.trans (Nat.lt_succ_self n))]

theorem setIndirect_vars (h : Host) (ind : Nat) (start : Word) (n : Nat) :
    SameVars h (setIndirect h ind start n) ∧ (setIndirect h ind start n).diskpos = h.diskpos := by
  induction n with
  | zero => exact ⟨.refl h, rfl⟩
  | succ n ih =>
    obtain ⟨hv, hpos⟩ := ih
    exact ⟨hv.trans ⟨set_nblocks, set_super, set_bitmap, set_n⟩, set_diskpos.trans hpos⟩

theorem setIndirect_get (hi : i < n) :
    (setIndirect h ind start n).disk (ind / 4 + i) = start + BitVec.ofNat 32 (NDIRECT + i) := by
  induction n with
  | zero => exact absurd hi (Nat.not_lt_zero i)
  | succ n ih =>
    rw [setIndirect, ← get_disk]
    rcases Nat.lt_succ_iff_lt_or_eq.mp hi with hlt | rfl
    · rw [get_set_of_ne (fun he => by injection he with he; omega), get_disk, ih hlt]
    · exact get_set_self

theorem setIndirect_of_ne (hq : ∀ i < n, q ≠ .disk (ind / 4 + i)) : (setIndirect h ind start n).get q = h.get q := by
  induction n with
  | zero => rfl
  | succ n ih =>
    rw [setIndirect, get_set_of_ne (hq n (Nat.lt_succ_self n)), ih fun i hi => hq i (hi.trans (Nat.lt_succ_self n))]

end

/-- The blocks a file takes besides its data. -/
def extra (n : Nat) : Nat := if NDIRECT ≤ n then 1 else 0

/-- What `finishfile` does, with the disk given out up to block `t`. -/
structure Finished (h h' : Host) (f : Place) (start len : Word) (t : Nat) : Prop where
  vars : SameVars h h'
  at_ : At h' (t + extra (blocks len.toNat))
  size : h'.get (f.field 32) = len
  direct : ∀ i < min (blocks len.toNat) NDIRECT, h'.get (f.field (34 + i)) = start + BitVec.ofNat 32 i
  indirect : NDIRECT ≤ blocks len.toNat → h'.get (f.field 44) = BitVec.ofNat 32 t
  index : NDIRECT ≤ blocks len.toNat → ∀ i < blocks len.toNat - NDIRECT,
    h'.disk (1024 * t + i) = start + BitVec.ofNat 32 (NDIRECT + i)
  other : ∀ q, q ≠ f.field 32 → (∀ i < min (blocks len.toNat) NDIRECT, q ≠ f.field (34 + i)) →
    (NDIRECT ≤ blocks len.toNat → q ≠ f.field 44 ∧ ∀ i < blocks len.toNat - NDIRECT, q ≠ .disk (1024 * t + i)) →
    h'.get q = h.get q

theorem blocks_MAXFILESIZE {n : Nat} (h : n ≤ MAXFILESIZE) : blocks n ≤ NDIRECT + NINDIRECT := by
  have hmax : MAXFILESIZE = 4235264 := rfl
  have hsum : NDIRECT + NINDIRECT = 1034 := rfl
  unfold blocks
  omega

theorem finishfile_ok {h h' : Host} {f : Place} {start len : Word} {t : Nat} (hat : At h t)
    (hlen : len.toNat ≤ MAXFILESIZE) (hf : ∀ k j, f.field k = .disk j → k < 64 → j < 1024 * t)
    (hrun : finishfile h f start len = .ok h') : Finished h h' f start len t := by
  have hn := toNat_ROUNDUP_div hlen
  have hten : NDIRECT = 10 := rfl
  obtain ⟨hvars, hpos⟩ := setDirect_vars (h.set (f.field 32) len) f start (min (blocks len.toNat) NDIRECT)
  have hvars' : SameVars h (setDirect (h.set (f.field 32) len) f start (min (blocks len.toNat) NDIRECT)) :=
    SameVars.trans ⟨set_nblocks, set_super, set_bitmap, set_n⟩ hvars
  have hpos' := hpos.trans set_diskpos
  have hdirect : ∀ i < min (blocks len.toNat) NDIRECT,
      (setDirect (h.set (f.field 32) len) f start (min (blocks len.toNat) NDIRECT)).get (f.field (34 + i)) =
        start + BitVec.ofNat 32 i := fun i hi => setDirect_get hi
  have hsize :
      (setDirect (h.set (f.field 32) len) f start (min (blocks len.toNat) NDIRECT)).get (f.field 32) = len := by
    rw [setDirect_of_ne fun i _ he => by have := field_inj.mp he; omega, get_set_self]
  have hother : ∀ q, q ≠ f.field 32 → (∀ i < min (blocks len.toNat) NDIRECT, q ≠ f.field (34 + i)) →
      (setDirect (h.set (f.field 32) len) f start (min (blocks len.toNat) NDIRECT)).get q = h.get q := fun q hq hd => by
    rw [setDirect_of_ne hd, get_set_of_ne hq]
  simp only [finishfile, hn] at hrun
  generalize setDirect (h.set (f.field 32) len) f start (min (blocks len.toNat) NDIRECT) = h₁ at *
  by_cases hfull : NDIRECT ≤ blocks len.toNat
  · rw [if_pos (Nat.min_eq_right hfull)] at hrun
    cases halloc : alloc h₁ 4096 with
    | error e => simp only [halloc] at hrun; cases hrun
    | ok r =>
      obtain ⟨ind, h₂⟩ := r
      obtain ⟨rfl, rfl, hat'⟩ := alloc_ok (hpos'.trans hat.pos) (by decide) halloc
      rw [halloc] at hrun
      cases hrun
      have hword : 4096 * t / 4 = 1024 * t := by omega
      have hone : t + blocks (4096 : Word).toNat = t + 1 := rfl
      have hextra : extra (blocks len.toNat) = 1 := if_pos hfull
      generalize hh₂ : { h₁ with diskpos := 4096 * (t + blocks (4096 : Word).toNat) } = h₂ at *
      rw [hone] at hat'
      have hget₂ : ∀ q, h₂.get q = h₁.get q := fun q => by rw [← hh₂]; cases q <;> rfl
      have hvars₂ : SameVars h₁ h₂ := by rw [← hh₂]; exact ⟨rfl, rfl, rfl, rfl⟩
      obtain ⟨hv, hp⟩ := setIndirect_vars (h₂.set (f.field 44) (BitVec.ofNat 32 (blockof (4096 * t)))) (4096 * t) start
        (blocks len.toNat - NDIRECT)
      have hout : ∀ k < 64, ∀ i, f.field k ≠ .disk (4096 * t / 4 + i) := fun k hk i he => by
        have := hf k _ he hk
        omega
      refine ⟨hvars'.trans (hvars₂.trans (SameVars.trans ⟨set_nblocks, set_super, set_bitmap, set_n⟩ hv)), ?_, ?_,
        fun i hi => ?_, fun _ => ?_, fun _ i hi => ?_, fun q h1 h2 h3 => ?_⟩
      · rw [hextra]
        exact ⟨hp.trans (set_diskpos.trans hat'.pos), by rw [hv.nblocks, set_nblocks]; exact hat'.room⟩
      · rw [setIndirect_of_ne fun i _ => hout 32 (by decide) i,
          get_set_of_ne (fun he => by have := field_inj.mp he; omega),
          hget₂, hsize]
      · rw [setIndirect_of_ne fun j _ => hout (34 + i) (by omega) j,
          get_set_of_ne (fun he => by have := field_inj.mp he; omega), hget₂, hdirect i hi]
      · rw [setIndirect_of_ne fun i _ => hout 44 (by decide) i, get_set_self, blockof_mul]
      · rw [← hword]
        exact setIndirect_get hi
      · obtain ⟨h44, hidx⟩ := h3 hfull
        rw [setIndirect_of_ne fun i hi => hword ▸ hidx i hi, get_set_of_ne h44, hget₂, hother q h1 h2]
  · rw [if_neg (fun he => hfull (by omega))] at hrun
    cases hrun
    refine ⟨hvars', ?_, hsize, hdirect, fun h => absurd h hfull, fun h => absurd h hfull,
      fun q h1 h2 _ => hother q h1 h2⟩
    rw [extra, if_neg hfull]
    exact ⟨hpos'.trans hat.pos, hvars'.nblocks ▸ hat.room⟩

/-! ## What is where -/

namespace HostFile

variable (file : HostFile)

def name : List Byte := baseName file.path
def body : List Byte := file.content.getD []

/-- The blocks of its data. -/
def size : Nat := blocks file.body.length

/-- The blocks it takes. -/
def cost : Nat := file.size + extra file.size

end HostFile

/-- The block behind those of the files. -/
def top (files : List HostFile) : Nat := 3 + (files.map HostFile.cost).sum

theorem top_append (files : List HostFile) (file : HostFile) : top (files ++ [file]) = top files + file.cost := by
  simp only [top, List.map_append, List.sum_append, List.map_singleton, List.sum_singleton, Nat.add_assoc]

/-- The entry of a file whose blocks start at `start`, at word `base`. -/
structure EntryAt (m : Nat → Word) (base : Nat) (file : HostFile) (start : Nat) : Prop where
  name : ∀ k ≤ file.name.length, byteIn m (4 * base + k) = file.name.getD k 0
  size : m (base + 32) = BitVec.ofNat 32 file.body.length
  type : m (base + 33) = FTYPE_REG
  direct : ∀ i < NDIRECT, m (base + (34 + i)) = if i < file.size then BitVec.ofNat 32 (start + i) else 0
  indirect : m (base + 44) = if NDIRECT ≤ file.size then BitVec.ofNat 32 (start + file.size) else 0

/-- Its blocks. -/
structure DataAt (m : Nat → Word) (file : HostFile) (start : Nat) : Prop where
  bytes : ∀ p < file.body.length, byteIn m (4096 * start + p) = file.body.getD p 0
  index : NDIRECT ≤ file.size → ∀ i < 1024, m (1024 * (start + file.size) + i) =
    if i < file.size - NDIRECT then BitVec.ofNat 32 (start + (NDIRECT + i)) else 0

theorem EntryAt.congr {m m' : Nat → Word} {base start : Nat} {file : HostFile} (h : EntryAt m base file start)
    (hname : file.name.length < MAXNAMELEN) (hm : ∀ i < 64, m' (base + i) = m (base + i)) :
    EntryAt m' base file start where
  name k hk := by
    have hmax : MAXNAMELEN = 128 := rfl
    have hword : (4 * base + k) / 4 = base + k / 4 := by omega
    rw [← h.name k hk, byteIn, byteIn, hword, hm _ (by omega)]
  size := (hm 32 (by decide)).trans h.size
  type := (hm 33 (by decide)).trans h.type
  direct i hi := by
    have hten : NDIRECT = 10 := rfl
    exact (hm (34 + i) (by omega)).trans (h.direct i hi)
  indirect := (hm 44 (by decide)).trans h.indirect

theorem size_mul_lt (file : HostFile) {p : Nat} (hp : p < file.body.length) : p < 4096 * file.size := by
  unfold HostFile.size blocks
  omega

theorem DataAt.congr {m m' : Nat → Word} {start : Nat} {file : HostFile} (h : DataAt m file start)
    (hm : ∀ i, 1024 * start ≤ i → i < 1024 * (start + file.cost) → m' i = m i) : DataAt m' file start where
  bytes p hp := by
    have hlt := size_mul_lt file hp
    rw [← h.bytes p hp, byteIn, byteIn, hm _ (by omega)]
    unfold HostFile.cost
    omega
  index hn i hi := by
    have hcost : file.cost = file.size + 1 := by rw [HostFile.cost, extra, if_pos hn]
    rw [← h.index hn i hi, hm _ (by omega)]
    rw [hcost]
    omega

/-- The words of the super block. -/
def superWord (nblocks : Word) (i : Nat) : Word :=
  if i = 0 then FS_MAGIC else if i = 1 then nblocks else if i = 2 then 0x2F else if i = 35 then FTYPE_DIR else 0

/-- After `files`. -/
structure Laid (files : List HostFile) (h : Host) : Prop where
  at_ : At h (top files)
  super : h.super = 4096
  bitmap : h.bitmap = 8192
  n : h.n = files.length
  length : files.length ≤ MAX_DIR_ENTS
  block1 : ∀ i < 1024, h.disk (1024 + i) = superWord h.nblocks i
  block2 : ∀ i < 1024, h.disk (2048 + i) = BitVec.allOnes 32
  clear : ∀ i ≥ 1024 * top files, h.disk i = 0
  spare : ∀ i ≥ 64 * files.length, h.heap i = 0
  sizes : ∀ file ∈ files, file.body.length < MAXFILESIZE
  names : ∀ file ∈ files, file.name.length < MAXNAMELEN
  entry : ∀ j file, files[j]? = some file → EntryAt h.heap (64 * j) file (top (files.take j))
  data : ∀ j file, files[j]? = some file → DataAt h.disk file (top (files.take j))

theorem three_le_top (files : List HostFile) : 3 ≤ top files := Nat.le_add_right 3 _

theorem top_take_le {files : List HostFile} {j : Nat} {file : HostFile} (hj : files[j]? = some file) :
    top (files.take j) + file.cost ≤ top files := by
  have hlt := (List.getElem?_eq_some_iff.mp hj).1
  have hsplit : files = files.take j ++ file :: files.drop (j + 1) := by
    rw [← (List.getElem?_eq_some_iff.mp hj).2, List.getElem_cons_drop, List.take_append_drop]
  conv => rhs; rw [hsplit]
  simp only [top, List.map_append, List.map_cons, List.sum_append, List.sum_cons]
  omega

/-! ## One file -/

section

variable {files : List HostFile} {file : HostFile} {h h₃ h' : Host}

/-- What has been written when `finishfile` is called. -/
structure Entered (k t : Nat) (file : HostFile) (h h₃ : Host) : Prop where
  at_ : At h₃ (t + file.size)
  nblocks : h₃.nblocks = h.nblocks
  super : h₃.super = h.super
  bitmap : h₃.bitmap = h.bitmap
  n : h₃.n = k + 1
  heap : h₃.heap = Function.update (setBytes h.heap (256 * k) (file.name ++ [0])) (64 * k + 33) FTYPE_REG
  disk : h₃.disk = setBytes h.disk (4096 * t) file.body

theorem diradd_ok {type : Word} {name : List Byte} {out : Place} {h₁ : Host}
    (hrun : diradd h type name = .ok (out, h₁)) :
    out = .heap (64 * h.n) ∧ h.n + 1 ≤ MAX_DIR_ENTS ∧
      h₁ = { h with
        n := h.n + 1
        heap := Function.update (setBytes h.heap (256 * h.n) (name ++ [0])) (64 * h.n + 33) type } := by
  unfold diradd at hrun
  split at hrun
  · cases hrun
  · rename_i hroom
    cases hrun
    exact ⟨rfl, Nat.le_of_not_lt hroom, rfl⟩

theorem writefile_entered {t : Nat} (hat : h.diskpos = 4096 * t) (hrun : writefile h file = .ok h') :
    ∃ h₃, Entered h.n t file h h₃ ∧ file.body.length < MAXFILESIZE ∧ h.n + 1 ≤ MAX_DIR_ENTS ∧
      finishfile h₃ (.heap (64 * h.n)) (BitVec.ofNat 32 t) (BitVec.ofNat 32 file.body.length) = .ok h' := by
  have hmax : MAXFILESIZE = 4235264 := rfl
  unfold writefile at hrun
  cases hcontent : file.content with
  | none => rw [hcontent] at hrun; cases hrun
  | some content =>
    have hbody : file.body = content := by rw [HostFile.body, hcontent]; rfl
    simp only [hcontent, ← hbody] at hrun
    split at hrun
    · cases hrun
    rename_i hsize
    have hlen : file.body.length < MAXFILESIZE := Nat.lt_of_not_le hsize
    have hword : (BitVec.ofNat 32 file.body.length).toNat = file.body.length := by
      rw [BitVec.toNat_ofNat]
      exact Nat.mod_eq_of_lt (by omega)
    obtain ⟨⟨out, h₁⟩, hadd, hrun⟩ := bind_eq_ok.mp hrun
    obtain ⟨⟨start, h₂⟩, halloc, hrun⟩ := bind_eq_ok.mp hrun
    obtain ⟨hout, hroom, hh₁⟩ := diradd_ok hadd
    have hpos₁ : h₁.diskpos = 4096 * t := by rw [hh₁]; exact hat
    obtain ⟨hstart, hh₂, hat₂⟩ := alloc_ok hpos₁ (by rw [hword]; omega) halloc
    have hblock : blockof start = t := by rw [hstart, blockof_mul]
    simp only [hblock, hout] at hrun
    rw [hword] at hat₂
    refine ⟨_, ?_, hlen, hroom, hrun⟩
    subst hstart hh₂ hh₁
    exact ⟨⟨hat₂.pos, hat₂.room⟩, rfl, rfl, rfl, rfl, rfl, rfl⟩

/-- What `finishfile` leaves of the directory and of the disk. -/
theorem Finished.heap_eq {start len : Word} {base t i : Nat} (e : Finished h₃ h' (.heap base) start len t)
    (hi : i < base + 32 ∨ i = base + 33 ∨ base + 45 ≤ i) : h'.heap i = h₃.heap i := by
  have hten : NDIRECT = 10 := rfl
  have hne : ∀ k, k = 32 ∨ 34 ≤ k ∧ k ≤ 44 → Place.heap i ≠ (Place.heap base).field k := fun k hk he => by
    injection he with he
    omega
  exact e.other (.heap i) (hne 32 (by omega)) (fun k hk => hne (34 + k) (by omega)) fun _ => ⟨hne 44 (by omega), nofun⟩

theorem Finished.disk_eq {start len : Word} {base t i : Nat} (e : Finished h₃ h' (.heap base) start len t)
    (hi : i < 1024 * t ∨ 1024 * t + (blocks len.toNat - NDIRECT) ≤ i) : h'.disk i = h₃.disk i :=
  e.other (.disk i) nofun (fun _ _ => nofun) fun _ => ⟨nofun, fun k hk he => by injection he with he; omega⟩

theorem Entered.spare (hl : Laid files h) (he : Entered files.length (top files) file h h₃)
    (hname : file.name.length < MAXNAMELEN) {i : Nat}
    (hi : 64 * files.length + 34 ≤ i) : h₃.heap i = 0 := by
  have hmax : MAXNAMELEN = 128 := rfl
  rw [he.heap, Function.update_of_ne (by omega), setBytes_of_ne, hl.spare i (by omega)]
  rw [List.length_append, List.length_singleton]
  omega

theorem body_le (file : HostFile) : file.body.length ≤ 4096 * file.size := by
  unfold HostFile.size blocks
  omega

theorem toNat_length (hlen : file.body.length < MAXFILESIZE) :
    (BitVec.ofNat 32 file.body.length).toNat = file.body.length := by
  have hmax : MAXFILESIZE = 4235264 := rfl
  rw [BitVec.toNat_ofNat]
  exact Nat.mod_eq_of_lt (by omega)

section

variable (hl : Laid files h) (he : Entered files.length (top files) file h h₃)
  (e : Finished h₃ h' (.heap (64 * files.length)) (BitVec.ofNat 32 (top files)) (BitVec.ofNat 32 file.body.length)
    (top files + file.size)) (hlen : file.body.length < MAXFILESIZE) (hname : file.name.length < MAXNAMELEN)

include hl he e hlen

theorem written_data : DataAt h'.disk file (top files) := by
  have hten : NDIRECT = 10 := rfl
  have hblocks : blocks (BitVec.ofNat 32 file.body.length).toNat = file.size := by rw [toNat_length hlen, HostFile.size]
  have hbody := body_le file
  refine ⟨fun p hp => ?_, fun hfull i hi => ?_⟩
  · have hlt := size_mul_lt file hp
    have hfinish : byteIn h'.disk (4096 * top files + p) = byteIn h₃.disk (4096 * top files + p) := by
      rw [byteIn, byteIn, e.disk_eq (.inl (by omega))]
    rw [hfinish, he.disk, byteIn_setBytes, if_pos (by omega), Nat.add_sub_cancel_left]
  · split
    · rename_i hin
      rw [e.index (hblocks.symm ▸ hfull) i (by rw [hblocks]; omega), ← BitVec.ofNat_add]
    · rename_i hout
      rw [e.disk_eq (.inr (by rw [hblocks]; omega)), he.disk, setBytes_of_ne (.inr (by omega)), hl.clear _ (by omega)]

include hname

theorem written_entry : EntryAt h'.heap (64 * files.length) file (top files) := by
  have hmax : MAXNAMELEN = 128 := rfl
  have hten : NDIRECT = 10 := rfl
  have hblocks : blocks (BitVec.ofNat 32 file.body.length).toNat = file.size := by rw [toNat_length hlen, HostFile.size]
  have hadd : ∀ k, BitVec.ofNat 32 (top files) + BitVec.ofNat 32 k = BitVec.ofNat 32 (top files + k) := fun k =>
    (BitVec.ofNat_add ..).symm
  have hfield : ∀ i, h'.heap (64 * files.length + i) = h'.get ((Place.heap (64 * files.length)).field i) := fun _ => rfl
  refine ⟨fun k hk => ?_, e.size, ?_, fun i hi => ?_, ?_⟩
  · have hword : (4 * (64 * files.length) + k) / 4 = 64 * files.length + k / 4 := by omega
    have hfinish : byteIn h'.heap (4 * (64 * files.length) + k) = byteIn h₃.heap (4 * (64 * files.length) + k) := by
      rw [byteIn, byteIn, hword, e.heap_eq (.inl (by omega))]
    have htype : byteIn h₃.heap (4 * (64 * files.length) + k) =
        byteIn (setBytes h.heap (256 * files.length) (file.name ++ [0])) (4 * (64 * files.length) + k) := by
      rw [byteIn, byteIn, hword, he.heap, Function.update_of_ne (by omega)]
    rw [hfinish, htype, byteIn_setBytes, if_pos ⟨by omega, by simp; omega⟩,
      show 4 * (64 * files.length) + k - 256 * files.length = k by omega]
    rcases Nat.lt_or_ge k file.name.length with hlt | hge
    · rw [List.getD_append _ _ _ _ hlt]
    · rw [List.getD_append_right _ _ _ _ hge, List.getD_eq_default _ _ hge, Nat.le_antisymm hk hge, Nat.sub_self]
      rfl
  · rw [e.heap_eq (.inr (.inl rfl)), he.heap, Function.update_self]
  · rw [hfield]
    split
    · rename_i hin
      rw [e.direct i (by rw [hblocks]; omega), hadd]
    · rename_i hout
      rw [e.other _ (fun hc => by have := field_inj.mp hc; omega)
        (fun k hk hc => by rw [hblocks] at hk; have := field_inj.mp hc; omega)
        (fun hfull => absurd (hblocks ▸ hfull) (by omega))]
      exact he.spare hl hname (by omega)
  · rw [hfield]
    split
    · rename_i hin
      rw [e.indirect (hblocks.symm ▸ hin)]
    · rename_i hout
      rw [e.other _ (fun hc => by have := field_inj.mp hc; omega)
        (fun k hk hc => by have := field_inj.mp hc; omega) (fun hfull => absurd (hblocks ▸ hfull) hout)]
      exact he.spare hl hname (by omega)

theorem written_laid (hroom : files.length + 1 ≤ MAX_DIR_ENTS) : Laid (files ++ [file]) h' := by
  have hten : NDIRECT = 10 := rfl
  have hmaxf : NDIRECT + NINDIRECT = 1034 := rfl
  have hblocks : blocks (BitVec.ofNat 32 file.body.length).toNat = file.size := by rw [toNat_length hlen, HostFile.size]
  have hbody := body_le file
  have hsize : file.size ≤ NDIRECT + NINDIRECT := blocks_MAXFILESIZE hlen.le
  have hcost : file.cost = file.size + extra file.size := rfl
  have hextra : extra file.size = if NDIRECT ≤ file.size then 1 else 0 := rfl
  have hthree := three_le_top files
  have hat := e.at_
  rw [hblocks, Nat.add_assoc, ← hcost, ← top_append] at hat
  have hdisk : ∀ i < 1024 * top files, h'.disk i = h.disk i := fun i hi => by
    rw [e.disk_eq (.inl (by omega)), he.disk, setBytes_of_ne (.inl (by omega))]
  have hheap : ∀ i < 64 * files.length, h'.heap i = h.heap i := fun i hi => by
    rw [e.heap_eq (.inl (by omega)), he.heap, Function.update_of_ne (by omega), setBytes_of_ne (.inl (by omega))]
  have hcases : ∀ j f, (files ++ [file])[j]? = some f →
      files[j]? = some f ∧ (files ++ [file]).take j = files.take j ∨
        j = files.length ∧ f = file ∧ (files ++ [file]).take j = files := fun j f hj => by
    rcases Nat.lt_or_ge j files.length with hlt | hge
    · rw [List.getElem?_append_left hlt] at hj
      exact .inl ⟨hj, List.take_append_of_le_length hlt.le⟩
    · rw [List.getElem?_append_right hge, List.getElem?_singleton] at hj
      split at hj
      · obtain rfl : j = files.length := by omega
        exact .inr ⟨rfl, (Option.some.inj hj).symm, List.take_left⟩
      · cases hj
  refine ⟨hat, e.vars.super.trans (he.super.trans hl.super), e.vars.bitmap.trans (he.bitmap.trans hl.bitmap), ?_, ?_,
    fun i hi => ?_, fun i hi => ?_, fun i hi => ?_, fun i hi => ?_, fun f hf => ?_, fun f hf => ?_,
    fun j f hj => ?_, fun j f hj => ?_⟩
  · rw [e.vars.n, he.n, List.length_append, List.length_singleton]
  · rwa [List.length_append, List.length_singleton]
  · rw [hdisk _ (by omega), hl.block1 i hi, e.vars.nblocks, he.nblocks]
  · rw [hdisk _ (by omega), hl.block2 i hi]
  · rw [top_append] at hi
    rw [e.disk_eq (.inr (by rw [hblocks]; split at hextra <;> omega)), he.disk, setBytes_of_ne (.inr (by omega)),
      hl.clear _ (by omega)]
  · rw [List.length_append, List.length_singleton] at hi
    rw [e.heap_eq (.inr (.inr (by omega))), he.spare hl hname (by omega)]
  · rcases List.mem_append.mp hf with hold | hnew
    · exact hl.sizes f hold
    · rw [List.mem_singleton.mp hnew]
      exact hlen
  · rcases List.mem_append.mp hf with hold | hnew
    · exact hl.names f hold
    · rw [List.mem_singleton.mp hnew]
      exact hname
  · rcases hcases j f hj with ⟨hold, htake⟩ | ⟨rfl, rfl, htake⟩
    · have hlt := (List.getElem?_eq_some_iff.mp hold).1
      rw [htake]
      exact (hl.entry j f hold).congr (hl.names f (List.mem_of_getElem? hold)) fun i hi => hheap _ (by omega)
    · rw [htake]
      exact written_entry hl he e hlen hname
  · rcases hcases j f hj with ⟨hold, htake⟩ | ⟨rfl, rfl, htake⟩
    · have hle := top_take_le hold
      rw [htake]
      exact (hl.data j f hold).congr fun i _ hi => hdisk i (by omega)
    · rw [htake]
      exact written_data hl he e hlen

end

/-- `writefile` puts a file behind the others. -/
theorem writefile_laid (hl : Laid files h) (hname : file.name.length < MAXNAMELEN)
    (hrun : writefile h file = .ok h') : Laid (files ++ [file]) h' ∧ h'.nblocks = h.nblocks := by
  obtain ⟨h₃, he, hlen, hroom, hfin⟩ := writefile_entered hl.at_.pos hrun
  rw [hl.n] at he hroom hfin
  have e := finishfile_ok he.at_ (by rw [toNat_length hlen]; exact hlen.le) (fun _ _ hne _ => by injection hne) hfin
  exact ⟨written_laid hl he e hlen hname hroom, e.vars.nblocks.trans he.nblocks⟩

theorem writefiles_laid {more : List HostFile} (hl : Laid files h)
    (hnames : ∀ file ∈ more, file.name.length < MAXNAMELEN) (hrun : more.foldlM writefile h = .ok h') :
    Laid (files ++ more) h' ∧ h'.nblocks = h.nblocks := by
  induction more generalizing files h with
  | nil =>
    cases hrun
    rw [List.append_nil]
    exact ⟨hl, rfl⟩
  | cons file more ih =>
    rw [List.foldlM_cons] at hrun
    obtain ⟨h₁, hwrite, hrun⟩ := bind_eq_ok.mp hrun
    obtain ⟨hl₁, hn₁⟩ := writefile_laid hl (hnames file List.mem_cons_self) hwrite
    obtain ⟨hrest, hn⟩ := ih hl₁ (fun g hg => hnames g (List.mem_cons_of_mem _ hg)) hrun
    rw [List.append_assoc, List.singleton_append] at hrest
    exact ⟨hrest, hn.trans hn₁⟩

end

/-! ## The whole disk -/

section

variable {nblocks : Word} {junk : Nat → Word} {h h' : Host} {files : List HostFile}

theorem nbitblocks_eq (h2 : 2 ≤ nblocks) (hn : nblocks ≤ 1024) : (nblocks + 32768 - 1) / 32768 = 1 := by
  have hle : nblocks.toNat ≤ 1024 := hn
  have hge : 2 ≤ nblocks.toNat := h2
  apply BitVec.eq_of_toNat_eq
  rw [BitVec.toNat_udiv, BitVec.toNat_sub, BitVec.toNat_add]
  simp only [BitVec.reduceToNat]
  omega

/-- The blocks that `opendisk` gives out, and what it writes in them. -/
theorem opendisk_ok (h2 : 2 ≤ nblocks) (hn : nblocks ≤ 1024) (hrun : opendisk nblocks junk = .ok h) :
    h = ⟨fun i => if 2048 ≤ i ∧ i < 3072 then BitVec.allOnes 32 else
        setBytes (Function.update (Function.update (Function.update (fun _ => 0) 1024 FS_MAGIC) 1025 nblocks)
          1059 FTYPE_DIR) 4104 [0x2F, 0] i, junk, 12288, nblocks, 4096, 8192, 0⟩ ∧ 3 < nblocks.toNat := by
  unfold opendisk at hrun
  simp only [nbitblocks_eq h2 hn] at hrun
  obtain ⟨⟨s, h₁⟩, ha, hrun⟩ := bind_eq_ok.mp hrun
  obtain ⟨⟨super, h₂⟩, hb, hrun⟩ := bind_eq_ok.mp hrun
  obtain ⟨⟨bitmap, h₃⟩, hc, hrun⟩ := bind_eq_ok.mp hrun
  obtain ⟨-, hh₁, -⟩ := alloc_ok (t := 0) rfl (by decide) ha
  obtain ⟨hsuper, hh₂, -⟩ := alloc_ok (t := 1) (by rw [hh₁]; rfl) (by decide) hb
  obtain ⟨hbitmap, hh₃, hat⟩ := alloc_ok (t := 2) (by rw [hh₂]; rfl) (by decide) hc
  cases hrun
  have hroom : 3 < nblocks.toNat := by
    have hroom := hat.room
    subst hh₃ hh₂ hh₁
    exact hroom
  refine ⟨?_, hroom⟩
  subst hh₃ hh₂ hh₁ hsuper hbitmap
  have hpos : 4096 * (2 + blocks (1 * 4096 : Word).toNat) = 12288 := by decide
  have hend : 4096 * 2 / 4 + 1024 * (1 : Word).toNat = 3072 := by decide
  have hstart : 4096 * 2 / 4 = 2048 := by decide
  rw [Host.mk.injEq]
  refine ⟨?_, rfl, hpos, rfl, rfl, rfl, rfl⟩
  funext i
  simp only [Host.set, hend, hstart]

theorem setBytes_root {m : Nat → Word} (h0 : m 1026 = 0) :
    setBytes m 4104 [0x2F, 0] = Function.update m 1026 0x2F := by
  have hfirst : setBytes m 4104 [0x2F, 0] = Function.update (Function.update m 1026 (withByte (m 1026) 0 0x2F)) 1026
      (withByte (Function.update m 1026 (withByte (m 1026) 0 0x2F) 1026) 1 0) := rfl
  rw [hfirst, Function.update_idem, Function.update_self, h0]
  rfl

theorem opendisk_laid (h2 : 2 ≤ nblocks) (hn : nblocks ≤ 1024) (hjunk : ∀ i, junk i = 0)
    (hrun : opendisk nblocks junk = .ok h) : Laid [] h ∧ h.nblocks = nblocks := by
  obtain ⟨rfl, hroom⟩ := opendisk_ok h2 hn hrun
  rw [setBytes_root rfl]
  refine ⟨⟨⟨rfl, hroom⟩, rfl, rfl, rfl, Nat.zero_le _, fun i hi => ?_, fun i hi => if_pos (by omega), fun i hi => ?_,
    fun i _ => hjunk i, nofun, nofun, nofun, nofun⟩, rfl⟩
  · simp only [superWord, Function.update_apply]
    rw [if_neg (by omega)]
    split_ifs <;> first | rfl | omega
  · have htop : top [] = 3 := rfl
    rw [htop] at hi
    simp only [Function.update_apply]
    rw [if_neg (by omega), if_neg (by omega), if_neg (by omega), if_neg (by omega), if_neg (by omega)]

end

end SisOp.Fsformat
