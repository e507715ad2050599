/-
# `SisOp.Server.File` — `fs/fs.c`

Blocks, files and paths, as programs over the memory of `SisOp.Server.Machine`.  A
`struct File *` is the place of its first word; a path is its bytes without the
final null.  The loops whose bounds the source reads again at every turn carry the
number of turns that are left.
-/
import SisOp.Server.Machine

namespace SisOp.Fs

open SisOp.Lib SisOp.Jos

/-! ## Addresses -/

/-- `struct File *`. -/
structure FilePtr where
  blk : Nat
  idx : Nat
  deriving DecidableEq

namespace FilePtr

variable (f : FilePtr)

def field (k : Nat) : Cell := .disk f.blk (f.idx + k)
def fSize : Cell := f.field 32
def fType : Cell := f.field 33
def fDirect (k : Nat) : Cell := f.field (34 + k)
def fIndirect : Cell := f.field 44

end FilePtr

/-- `&super->s_root`. -/
def sRoot : FilePtr := ⟨1, 2⟩

def sNblocks : Cell := .disk 1 1

/-- The word of `bitmap` with the bit of block `b`. -/
def bitmapCell (b : Nat) : Cell := .disk (bitmapBlock b) (b / 32 % 1024)

/-- `1 << (b % 32)`. -/
def bitMask (b : Nat) : Word := 1#32 <<< (b % 32)

def diskaddr (blockno : Word) : FsM Nat := do
  if blockno = 0 then panic "bad block number in diskaddr"
  else if (← load sNblocks) ≤ blockno then panic "bad block number in diskaddr"
  else return blockno.toNat

/-- The address of byte `off` of block `b`. -/
def blkAddr (b : Nat) (off : Int) : Nat := ((DISKMAP + b * BLKSIZE : Nat) + off : Int).toNat

/-! ## Bytes -/

def loadByte (va : Nat) : FsM Byte :=
  match cellOf va with
  | none => panic "page fault in FS"
  | some c => do
      access va
      return byteOf (← load c) (va % 4)

def storeByte (va : Nat) (b : Byte) : FsM Unit :=
  match cellOf va with
  | none => panic "page fault in FS"
  | some c => do
      access va
      store c (withByte (← load c) (va % 4) b)

def loadBytes : Nat → Nat → FsM (List Byte)
  | _, 0 => return []
  | va, n + 1 => do
      let b ← loadByte va
      return b :: (← loadBytes (va + 1) n)

def storeBytes : Nat → List Byte → FsM Unit
  | _, [] => return ()
  | va, b :: bs => do
      storeByte va b
      storeBytes (va + 1) bs

def memmove (dst src len : Nat) : FsM Unit := do
  note ⟨dst, src, len⟩
  storeBytes dst (← loadBytes src len)

/-! ## The bitmap -/

def blockIsFree (blockno : Nat) : FsM Bool := do
  if (← load sNblocks).toNat ≤ blockno then return false
  return (← load (bitmapCell blockno)).getLsbD (blockno % 32)

def freeBlock (blockno : Word) : FsM Unit := do
  if blockno = 0 then panic "attempt to free zero block"
  else
    let w ← load (bitmapCell blockno.toNat)
    store (bitmapCell blockno.toNat) (w ||| bitMask blockno.toNat)

/-- The loop of `alloc_block`, with `n` blocks left from `i` on. -/
def findFree : Nat → Nat → FsM (Option Nat)
  | 0, _ => return none
  | n + 1, i => do
      if ← blockIsFree i then return some i
      else findFree n (i + 1)

/-- `alloc_block()`: a block number, or an error. -/
def allocBlock : FsM (Except Int Nat) := do
  match ← findFree (← load sNblocks).toNat 0 with
  | none => return .error (-E_NO_DISK)
  | some i =>
      let w ← load (bitmapCell i)
      store (bitmapCell i) (w &&& ~~~ bitMask i)
      flushBlock (bitmapBlock i)
      return .ok i

/-! ## Blocks of a file -/

/-- `(uint32_t *) diskaddr(f->f_indirect) + filebno - NDIRECT`. -/
def indirectSlot (f : FilePtr) (filebno : Nat) : FsM (Except Int Cell) := do
  return .ok (.disk (← diskaddr (← load f.fIndirect)) (filebno - NDIRECT))

/-- `file_block_walk(f, filebno, &ppdiskbno, alloc)`: where the block number stands.  A new
indirect block is not cleared. -/
def fileBlockWalk (f : FilePtr) (filebno : Word) (alloc : Bool) : FsM (Except Int Cell) := do
  if NDIRECT + NINDIRECT ≤ filebno.toNat then return .error (-E_INVAL)
  else if filebno.toNat < NDIRECT then return .ok (f.fDirect filebno.toNat)
  else if (← load f.fIndirect) = 0 then
    if alloc then
      match ← allocBlock with
      | .error r => return .error r
      | .ok b =>
          store f.fIndirect (BitVec.ofNat 32 b)
          flushBlock (← diskaddr (← load f.fIndirect))
          indirectSlot f filebno.toNat
    else return .error (-E_NOT_FOUND)
  else indirectSlot f filebno.toNat

/-- `file_get_block(f, filebno, &blk)`: the block; a new one is not cleared. -/
def fileGetBlock (f : FilePtr) (filebno : Word) : FsM (Except Int Nat) := do
  match ← fileBlockWalk f filebno true with
  | .error r => return .error r
  | .ok slot =>
      if (← load slot) = 0 then
        match ← allocBlock with
        | .error r => return .error r
        | .ok b =>
            store slot (BitVec.ofNat 32 b)
            return .ok (← diskaddr (← load slot))
      else return .ok (← diskaddr (← load slot))

/-! ## Directories -/

/-- Byte `k` of `f->f_name`. -/
def nameByte (f : FilePtr) (k : Nat) : FsM Byte := do
  return byteOf (← load (f.field (k / 4))) (k % 4)

def setNameByte (f : FilePtr) (k : Nat) (b : Byte) : FsM Unit := do
  store (f.field (k / 4)) (withByte (← load (f.field (k / 4))) (k % 4) b)

/-- `strcmp(f->f_name, name) == 0`, from byte `k` on. -/
def nameIs (f : FilePtr) : List Byte → Nat → FsM Bool
  | [], k => do return (← nameByte f k) = 0
  | c :: name, k => do
      if (← nameByte f k) = c then nameIs f name (k + 1)
      else return false

/-- `strcpy(f->f_name, name)`, from byte `k` on. -/
def setName (f : FilePtr) : List Byte → Nat → FsM Unit
  | [], k => setNameByte f k 0
  | c :: name, k => do
      setNameByte f k c
      setName f name (k + 1)

/-- The inner loop of `dir_lookup` and `dir_alloc_file`: the first of the `n` files of block `b`
from `j` on that passes the test. -/
def findFile (test : FilePtr → FsM Bool) (b : Nat) : Nat → Nat → FsM (Option FilePtr)
  | 0, _ => return none
  | n + 1, j => do
      if ← test ⟨b, 64 * j⟩ then return some ⟨b, 64 * j⟩
      else findFile test b n (j + 1)

/-- The outer loop, with `n` blocks left from `i` on. -/
def scanDir (test : FilePtr → FsM Bool) (dir : FilePtr) :
    Nat → Nat → FsM (Except Int (Option FilePtr))
  | 0, _ => return .ok none
  | n + 1, i => do
      match ← fileGetBlock dir (BitVec.ofNat 32 i) with
      | .error r => return .error r
      | .ok b =>
          match ← findFile test b BLKFILES 0 with
          | some f => return .ok (some f)
          | none => scanDir test dir n (i + 1)

/-- `dir->f_size / BLKSIZE`, after the assertion on the remainder. -/
def dirBlocks (dir : FilePtr) : FsM Nat := do
  let size ← load dir.fSize
  if size.srem 4096 = 0 then return (size.sdiv 4096).toNat
  else panic "assertion failed: (dir->f_size % BLKSIZE) == 0"

def dirLookup (dir : FilePtr) (name : List Byte) : FsM (Except Int FilePtr) := do
  match ← scanDir (fun f => nameIs f name 0) dir (← dirBlocks dir) 0 with
  | .error r => return .error r
  | .ok none => return .error (-E_NOT_FOUND)
  | .ok (some f) => return .ok f

/-- `dir_alloc_file(dir, &file)`; the block a directory grows by is not cleared. -/
def dirAllocFile (dir : FilePtr) : FsM (Except Int FilePtr) := do
  let nblock ← dirBlocks dir
  match ← scanDir (fun f => do return (← nameByte f 0) = 0) dir nblock 0 with
  | .error r => return .error r
  | .ok (some f) => return .ok f
  | .ok none =>
      store dir.fSize ((← load dir.fSize) + 4096)
      match ← fileGetBlock dir (BitVec.ofNat 32 nblock) with
      | .error r => return .error r
      | .ok b => return .ok ⟨b, 0⟩

/-! ## Paths -/

def slash : Byte := 0x2F

def skipSlash (path : List Byte) : List Byte := path.dropWhile (· = slash)

/-- What `walk_path` returns and stores. -/
inductive Walked
  /-- 0, with `*pdir` and `*pf`. -/
  | found (pdir : Option FilePtr) (pf : FilePtr)
  /-- `-E_NOT_FOUND` at the last element, with `*pdir` and `lastelem`. -/
  | missing (pdir : FilePtr) (lastelem : List Byte)
  /-- An error, with `*pdir` null. -/
  | failed (r : Int)

/-- The loop of `walk_path`; every turn consumes part of `path`. -/
def walkLoop : Nat → List Byte → Option FilePtr → FilePtr → FsM Walked
  | 0, _, dir, f => return .found dir f
  | n + 1, path, dir, f =>
      if path = [] then return .found dir f
      else
        let name := path.takeWhile (· ≠ slash)
        let rest := skipSlash (path.dropWhile (· ≠ slash))
        if MAXNAMELEN ≤ name.length then return .failed (-E_BAD_PATH)
        else do
          if (← load f.fType) ≠ FTYPE_DIR then return .failed (-E_NOT_FOUND)
          else
            match ← dirLookup f name with
            | .error r =>
                if r = -E_NOT_FOUND ∧ rest = [] then return .missing f name
                else return .failed r
            | .ok f' => walkLoop n rest (some f) f'

def walkPath (path : List Byte) : FsM Walked :=
  walkLoop (skipSlash path).length (skipSlash path) none sRoot

/-! ## Sizes -/

/-- The number of blocks of `size` bytes: `(size + BLKSIZE - 1) / BLKSIZE`. -/
def sizeBlocks (size : Word) : Word := (size + 4095).sdiv 4096

/-- The loop of `file_flush`, with `n` blocks left from `i` on. -/
def flushLoop (f : FilePtr) : Nat → Nat → FsM Unit
  | 0, _ => return ()
  | n + 1, i => do
      match ← fileBlockWalk f (BitVec.ofNat 32 i) false with
      | .error _ => flushLoop f n (i + 1)
      | .ok slot =>
          let b ← load slot
          if b = 0 then flushLoop f n (i + 1)
          else
            flushBlock (← diskaddr b)
            flushLoop f n (i + 1)

def fileFlush (f : FilePtr) : FsM Unit := do
  flushLoop f (sizeBlocks (← load f.fSize)).toInt.toNat 0
  flushBlock f.blk
  let b ← load f.fIndirect
  if b = 0 then return ()
  else flushBlock (← diskaddr b)

def fileFreeBlock (f : FilePtr) (filebno : Word) : FsM Int := do
  match ← fileBlockWalk f filebno false with
  | .error r => return r
  | .ok ptr =>
      let b ← load ptr
      if b = 0 then return 0
      else
        freeBlock b
        store ptr 0
        return 0

/-- The loop of `file_truncate_blocks`, with `n` blocks left from `bno` on; an error is only
reported on the console. -/
def freeBlocks (f : FilePtr) : Nat → Word → FsM Unit
  | 0, _ => return ()
  | n + 1, bno => do
      let _ ← fileFreeBlock f bno
      freeBlocks f n (bno + 1)

def fileTruncateBlocks (f : FilePtr) (newsize : Word) : FsM Unit := do
  let oldNblocks := sizeBlocks (← load f.fSize)
  let newNblocks := sizeBlocks newsize
  freeBlocks f (oldNblocks.toNat - newNblocks.toNat) newNblocks
  if newNblocks.toNat ≤ NDIRECT then
    let b ← load f.fIndirect
    if b = 0 then return ()
    else
      freeBlock b
      store f.fIndirect 0
  else return ()

/-- `file_set_size(f, newsize)`: always 0. -/
def fileSetSize (f : FilePtr) (newsize : Word) : FsM Int := do
  if newsize.slt (← load f.fSize) then
    fileTruncateBlocks f newsize
    store f.fSize newsize
    flushBlock f.blk
    return 0
  else
    store f.fSize newsize
    flushBlock f.blk
    return 0

/-! ## Creating and opening -/

def fileCreate (path : List Byte) : FsM (Except Int FilePtr) := do
  match ← walkPath path with
  | .found _ _ => return .error (-E_FILE_EXISTS)
  | .failed r => return .error r
  | .missing dir name =>
      match ← dirAllocFile dir with
      | .error r => return .error r
      | .ok f =>
          setName f name 0
          fileFlush dir
          return .ok f

def fileOpen (path : List Byte) : FsM (Except Int FilePtr) := do
  match ← walkPath path with
  | .found _ f => return .ok f
  | .missing _ _ => return .error (-E_NOT_FOUND)
  | .failed r => return .error r

/-! ## Reading and writing -/

/-- `MIN(a, b)` of unsigned words. -/
def minWord (a b : Word) : Word := if a ≤ b then a else b

/-- `MIN(BLKSIZE - pos % BLKSIZE, stop - pos)`; the remainder has the sign of `pos`. -/
def chunkLen (pos stop : Word) : Word := minWord (4096 - pos.srem 4096) (stop - pos)

/-- The loop of `file_read` and `file_write`, from `pos` to `stop`: `copy` moves a chunk between
an address in the disk map and one in `buf`.  The comparison is unsigned, the division signed.
Every turn moves at least a byte, so that as many turns as there are bytes suffice. -/
def transfer (copy : Nat → Nat → Nat → FsM Unit) (f : FilePtr) (stop : Word) :
    Nat → Word → Nat → FsM (Except Int Unit)
  | 0, _, _ => return .ok ()
  | n + 1, pos, buf =>
      if pos < stop then do
        match ← fileGetBlock f (pos.sdiv 4096) with
        | .error r => return .error r
        | .ok blk =>
            let bn := chunkLen pos stop
            copy (blkAddr blk (pos.srem 4096).toInt) buf bn.toNat
            transfer copy f stop n (pos + bn) (buf + bn.toNat)
      else return .ok ()

/-- `file_read(f, buf, count, offset)`. -/
def fileRead (f : FilePtr) (buf : Nat) (count offset : Word) : FsM Int := do
  if (← load f.fSize).sle offset then return 0
  else
    let count := minWord count ((← load f.fSize) - offset)
    let stop := offset + count
    match ← transfer (fun blk buf n => memmove buf blk n) f stop (stop.toNat - offset.toNat)
      offset buf with
    | .error r => return r
    | .ok () => return count.toInt

/-- The first lines of `file_write`: extend the file if necessary. -/
def extend (f : FilePtr) (stop : Word) : FsM Int := do
  if (← load f.fSize) < stop then fileSetSize f stop
  else return 0

/-- `file_write(f, buf, count, offset)`. -/
def fileWrite (f : FilePtr) (buf : Nat) (count offset : Word) : FsM Int := do
  let stop := offset + count
  let r ← extend f stop
  if r < 0 then return r
  else
    match ← transfer (fun blk buf n => memmove blk buf n) f stop (stop.toNat - offset.toNat)
      offset buf with
    | .error r => return r
    | .ok () => return count.toInt

/-- `fs_sync()`: the loop, with `n` blocks left from `i` on. -/
def syncLoop : Nat → Nat → FsM Unit
  | 0, _ => return ()
  | n + 1, i => do
      flushBlock (← diskaddr (BitVec.ofNat 32 i))
      syncLoop n (i + 1)

def fsSync : FsM Unit := do syncLoop ((← load sNblocks).toNat - 1) 1

end SisOp.Fs
