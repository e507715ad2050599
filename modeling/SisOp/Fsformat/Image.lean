/-
# `SisOp.Fsformat.Image` — the program that writes a disk

`fs/fsformat.c`, which runs on the host: it lays the files of its command line out on a
disk, one after the other, and then their directory.  The disk is a mapped file, zero at
first, and the directory is put together in a block from `malloc`, which is what it is
(`junk`).  Both are memories of words; `diskpos` and the pointers into the disk are byte
offsets from `diskmap`.
-/
import SisOp.Server.Machine

namespace SisOp.Fsformat

open SisOp.Jos
open SisOp.Fs (BLKSIZE BLKBITSIZE NDIRECT MAXFILESIZE FTYPE_REG FTYPE_DIR Block)

/-! ## Memory -/

/-- A word of the disk or of `root.ents`. -/
inductive Place
  | disk (i : Nat)
  | heap (i : Nat)
  deriving DecidableEq

/-- Word `k` of the structure at a place. -/
def Place.field (k : Nat) : Place → Place
  | disk i => disk (i + k)
  | heap i => heap (i + k)

/-- The program's variables. -/
structure Host where
  disk : Nat → Word
  heap : Nat → Word
  diskpos : Nat
  nblocks : Word
  super : Nat
  bitmap : Nat
  n : Nat

def Host.get (h : Host) : Place → Word
  | .disk i => h.disk i
  | .heap i => h.heap i

def Host.set (h : Host) (p : Place) (w : Word) : Host :=
  match p with
  | .disk i => { h with disk := Function.update h.disk i w }
  | .heap i => { h with heap := Function.update h.heap i w }

/-- Bytes stored from byte `a` of a memory on. -/
def setBytes (m : Nat → Word) (a : Nat) : List Byte → Nat → Word
  | [] => m
  | b :: bs => setBytes (Function.update m (a / 4) (withByte (m (a / 4)) (a % 4) b)) (a + 1) bs

/-- The byte at `a`. -/
def byteIn (m : Nat → Word) (a : Nat) : Byte := byteOf (m (a / 4)) (a % 4)

/-! ## The code -/

/-- `ROUNDUP(n, BLKSIZE)` of a `uint32_t`. -/
def ROUNDUP (n : Word) : Word := n - 1 + 4096 - (n - 1) % 4096

/-- `ROUNDUP(n, BLKSIZE)` of an `int`. -/
def ROUNDUPint (n : Int) : Int := n - 1 + 4096 - (n - 1).tmod 4096

def MAX_DIR_ENTS : Nat := 128

def FS_MAGIC : Word := 0x4A0530AE

def blockof (pos : Nat) : Nat := pos / BLKSIZE

/-- `alloc(bytes)`: the place, and the state after it. -/
def alloc (h : Host) (bytes : Word) : Except String (Nat × Host) :=
  let pos := h.diskpos + (ROUNDUP bytes).toNat
  if blockof pos ≥ h.nblocks.toNat then .error "out of disk blocks" else .ok (h.diskpos, { h with diskpos := pos })

/-- `opendisk(name)`, and the block that `malloc` returns to `startdir`. -/
def opendisk (nblocks : Word) (junk : Nat → Word) : Except String Host := do
  let h : Host := ⟨fun _ => 0, junk, 0, nblocks, 0, 0, 0⟩
  let (_, h) ← alloc h 4096
  let (super, h) ← alloc h 4096
  let h := { h with super := super }
  let h := h.set (.disk (super / 4)) FS_MAGIC
  let h := h.set (.disk (super / 4 + 1)) nblocks
  let h := h.set (.disk (super / 4 + 2 + 33)) FTYPE_DIR
  let h := { h with disk := setBytes h.disk (super + 8) [0x2F, 0] }
  let nbitblocks := (nblocks + 32768 - 1) / 32768
  let (bitmap, h) ← alloc h (nbitblocks * 4096)
  return { h with
    bitmap := bitmap
    disk := fun i =>
      if bitmap / 4 ≤ i ∧ i < bitmap / 4 + 1024 * nbitblocks.toNat then BitVec.allOnes 32 else h.disk i }

/-- The loop of `finishdisk`, up to `n`. -/
def clearBits (h : Host) : Nat → Host
  | 0 => h
  | i + 1 =>
    let h := clearBits h i
    let p := Place.disk (h.bitmap / 4 + i / 32)
    h.set p (h.get p &&& ~~~(1#32 <<< (i % 32)))

def finishdisk (h : Host) : Host := clearBits h (blockof h.diskpos)

/-- `for (i = 0; ..; ++i) f->f_direct[i] = start + i`, up to `n`. -/
def setDirect (h : Host) (f : Place) (start : Word) : Nat → Host
  | 0 => h
  | i + 1 => (setDirect h f start i).set (f.field (34 + i)) (start + BitVec.ofNat 32 i)

/-- `for (; ..; ++i) ind[i - NDIRECT] = start + i`, for `n` numbers. -/
def setIndirect (h : Host) (ind : Nat) (start : Word) : Nat → Host
  | 0 => h
  | i + 1 => (setIndirect h ind start i).set (.disk (ind / 4 + i)) (start + BitVec.ofNat 32 (NDIRECT + i))

/-- `finishfile(f, start, len)`. -/
def finishfile (h : Host) (f : Place) (start len : Word) : Except String Host := do
  let h := h.set (f.field 32) len
  let n := (ROUNDUP len / 4096).toNat
  let h := setDirect h f start (min n NDIRECT)
  if min n NDIRECT = NDIRECT then
    let (ind, h) ← alloc h 4096
    let h := h.set (f.field 44) (BitVec.ofNat 32 (blockof ind))
    return setIndirect h ind start (n - NDIRECT)
  else return h

/-- `diradd(d, type, name)`: the entry. -/
def diradd (h : Host) (type : Word) (name : List Byte) : Except String (Place × Host) :=
  if h.n + 1 > MAX_DIR_ENTS then .error "too many directory entries"
  else
    let out := Place.heap (64 * h.n)
    let h' := { h with n := h.n + 1, heap := setBytes h.heap (256 * h.n) (name ++ [0]) }
    .ok (out, h'.set (out.field 33) type)

/-- `memmove(start, d->ents, size)`, for `n` words. -/
def copyEnts (h : Host) (start : Nat) : Nat → Host
  | 0 => h
  | i + 1 =>
    let h := copyEnts h start i
    h.set (.disk (start / 4 + i)) (h.heap i)

/-- `finishdir(d)`. -/
def finishdir (h : Host) : Except String Host := do
  let size := h.n * 256
  let (start, h) ← alloc h (BitVec.ofNat 32 size)
  let h := copyEnts h start (size / 4)
  finishfile h (.disk (h.super / 4 + 2)) (BitVec.ofNat 32 (blockof start)) (BitVec.ofInt 32 (ROUNDUPint size))

/-- A file of the command line: its path, and what it holds if it is a regular file that can be
opened. -/
structure HostFile where
  path : List Byte
  content : Option (List Byte)

/-- What `strrchr` leaves of a path. -/
def baseName (path : List Byte) : List Byte := (path.reverse.takeWhile (· ≠ 0x2F)).reverse

/-- `writefile(dir, name)`. -/
def writefile (h : Host) (file : HostFile) : Except String Host :=
  match file.content with
  | none => .error "not a regular file"
  | some content =>
    if content.length ≥ MAXFILESIZE then .error "too large"
    else do
      let (f, h) ← diradd h FTYPE_REG (baseName file.path)
      let (start, h) ← alloc h (BitVec.ofNat 32 content.length)
      let h := { h with disk := setBytes h.disk start content }
      finishfile h f (BitVec.ofNat 32 (blockof start)) (BitVec.ofNat 32 content.length)

/-- `main`, with the number of blocks and the files of its command line. -/
def fsformat (nblocks : Word) (junk : Nat → Word) (files : List HostFile) : Except String Host :=
  if nblocks < 2 ∨ nblocks > 1024 then .error "Usage: fsformat fs.img NBLOCKS files..."
  else do
    let h ← opendisk nblocks junk
    let h ← files.foldlM writefile h
    let h ← finishdir h
    return finishdisk h

/-- The disk that is left. -/
def Host.image (h : Host) (b : Nat) : Block := fun i => if i < 1024 then h.disk (1024 * b + i) else 0

end SisOp.Fsformat
