/-
# `SisOp.Server.Serve` — `fs/serv.c`

The table of open files and the request handlers.  `pageref` of an `Fd` page is a
16-bit counter: the server's own mapping and those of its clients.
-/
import SisOp.Server.File

namespace SisOp.Fs

open SisOp.Lib SisOp.Jos

def MAXOPEN : Nat := 1024

instance : NeZero MAXOPEN := ⟨by decide⟩

def O_ACCMODE : Word := 0x3
def O_CREAT : Word := 0x100
def O_TRUNC : Word := 0x200
def O_EXCL : Word := 0x400

/-- `struct OpenFile`; `o_fd` is the page of its index. -/
structure OpenFile where
  oFileid : Word
  oFile : Option FilePtr
  oMode : Word

/-- `struct Fd`. -/
structure Fd where
  fdDevId : Word
  fdOffset : Word
  fdOmode : Word
  fdFileId : Word

def Fd.zero : Fd := ⟨0, 0, 0, 0⟩

/-- `devfile.dev_id`. -/
def devfileId : Word := 0x66

/-- An `Fd` page: its contents, whether the server has it mapped, and how many mappings the
clients have. -/
structure FdPage where
  fd : Fd
  mapped : Bool
  clients : Nat

/-- `pageref(o_fd)`: `pp_ref` is a `uint16_t`. -/
def FdPage.pageref (p : FdPage) : Nat := if p.mapped then (p.clients + 1) % 2 ^ 16 else 0

structure Server where
  mach : Machine
  opentab : Fin MAXOPEN → OpenFile
  fds : Fin MAXOPEN → FdPage

namespace Server

/-- A function of the file system. -/
def run {α : Type} (s : Server) (p : FsM α) : Except String α × Server :=
  let (r, m) := p.run onMachine s.mach
  (r, { s with mach := m })

def setFd (s : Server) (i : Fin MAXOPEN) (fd : Fd) : Server :=
  { s with fds := Function.update s.fds i { s.fds i with fd := fd } }

def pageref (s : Server) (i : Fin MAXOPEN) : Nat := (s.fds i).pageref

end Server

/-- `serve_init()` on a table that is zero but for the `o_mode` of its first entry. -/
def serveInit (m : Machine) : Server where
  mach := m
  opentab := fun i => ⟨BitVec.ofNat 32 i, none, if i.val = 0 then 1 else 0⟩
  fds := fun _ => ⟨.zero, false, 0⟩

/-! ## Open files -/

/-- Entry `i` of the table is given out: its id is advanced and its page cleared. -/
def Server.handOut (s : Server) (i : Fin MAXOPEN) : Server :=
  { s with
    opentab := Function.update s.opentab i
      { s.opentab i with oFileid := (s.opentab i).oFileid + BitVec.ofNat 32 MAXOPEN }
    fds := Function.update s.fds i { s.fds i with fd := .zero } }

/-- The server maps a new page at `o_fd`. -/
def Server.newPage (s : Server) (i : Fin MAXOPEN) : Server :=
  { s with fds := Function.update s.fds i ⟨.zero, true, 0⟩ }

/-- The first entry whose page no client has, as `pageref` tells it. -/
@[irreducible] def Server.available (s : Server) : Option (Fin MAXOPEN) :=
  (List.finRange MAXOPEN).find? fun i => s.pageref i ≤ 1

/-- `openfile_alloc(&o)`, where `sys_page_alloc` would return `palloc`: the returned value, and the
entry stored in `*o`. -/
def openfileAlloc (s : Server) (palloc : Int) : Int × Option (Fin MAXOPEN) × Server :=
  match s.available with
  | none => (-E_MAX_OPEN, none, s)
  | some i =>
      if s.pageref i = 0 then
        if palloc < 0 then (palloc, none, s)
        else
          let s := (s.newPage i).handOut i
          ((s.opentab i).oFileid.toInt, some i, s)
      else
        let s := s.handOut i
        ((s.opentab i).oFileid.toInt, some i, s)

/-- `fileid % MAXOPEN`. -/
def slotIndex (fileid : Word) : Fin MAXOPEN := Fin.ofNat MAXOPEN fileid.toNat

/-- `openfile_lookup(envid, fileid, &o)`; `none` is `-E_INVAL`. -/
def openfileLookup (s : Server) (fileid : Word) : Option (Fin MAXOPEN) :=
  let i := slotIndex fileid
  if s.pageref i ≤ 1 ∨ (s.opentab i).oFileid ≠ fileid then none else some i

/-! ## The request page -/

/-- `req_fileid`, of every request but `FSREQ_OPEN`. -/
def Server.reqFileid (s : Server) : Word := s.mach.req 0

/-- `req_n` of `FSREQ_READ` and `FSREQ_WRITE`, `req_size` of `FSREQ_SET_SIZE`. -/
def Server.reqN (s : Server) : Word := s.mach.req 1

/-- `req_omode` of `FSREQ_OPEN`. -/
def Server.reqOmode (s : Server) : Word := s.mach.req (MAXPATHLEN / 4)

/-- The path of `FSREQ_OPEN`: at most `MAXPATHLEN - 1` bytes. -/
def Server.reqPath (s : Server) : List Byte :=
  ((List.range (MAXPATHLEN - 1)).map fun k => byteOf (s.mach.req (k / 4)) (k % 4)).takeWhile (· ≠ 0)

/-- `req->req_buf` of `FSREQ_WRITE`, and how long it is. -/
def REQ_BUF : Nat := FSREQ + 8
def REQ_BUF_SIZE : Nat := 4096 - 8

/-! ## Handlers -/

/-- `o->o_file`: a null pointer faults outside the disk map. -/
def theFile (o : OpenFile) : FsM FilePtr :=
  match o.oFile with
  | none => panic "page fault in FS"
  | some f => return f

/-- `serve_open` after `openfile_alloc`: creating, truncating and finding the file. -/
def openPath (path : List Byte) (omode : Word) : FsM (Except Int FilePtr) := do
  let opened ←
    if omode &&& O_CREAT ≠ 0 then do
      match ← fileCreate path with
      | .ok f => pure (.ok f)
      | .error r =>
          if omode &&& O_EXCL = 0 ∧ r = -E_FILE_EXISTS then fileOpen path
          else pure (.error r)
    else fileOpen path
  match opened with
  | .error r => return .error r
  | .ok f => do
      if omode &&& O_TRUNC ≠ 0 then
        let _ ← fileSetSize f 0
        fileOpen path
      else fileOpen path

/-- `serve_open`; with 0 it sends the page of the entry it stores. -/
def serveOpen (s : Server) (palloc : Int) : Except String (Int × Option (Fin MAXOPEN)) × Server :=
  match openfileAlloc s palloc with
  | (r, none, s) => (.ok (r, none), s)
  | (r, some i, s) =>
      if r < 0 then (.ok (r, none), s)
      else
        match s.run (openPath s.reqPath s.reqOmode) with
        | (.error msg, s) => (.error msg, s)
        | (.ok (.error r), s) => (.ok (r, none), s)
        | (.ok (.ok f), s) =>
            let o := s.opentab i
            let s := { s with
              opentab := Function.update s.opentab i { o with oFile := some f, oMode := s.reqOmode } }
            (.ok (0, some i), s.setFd i
              { (s.fds i).fd with
                fdFileId := o.oFileid
                fdOmode := s.reqOmode &&& O_ACCMODE
                fdDevId := devfileId })

def serveSetSize (s : Server) : Except String Int × Server :=
  match openfileLookup s s.reqFileid with
  | none => (.ok (-E_INVAL), s)
  | some i => s.run do fileSetSize (← theFile (s.opentab i)) s.reqN

/-- `(req->req_n > PGSIZE) ? PGSIZE : req->req_n`. -/
def Server.readCount (s : Server) : Word := minWord s.reqN 4096

def serveRead (s : Server) : Except String Int × Server :=
  match openfileLookup s s.reqFileid with
  | none => (.ok (-E_INVAL), s)
  | some i =>
      let fd := (s.fds i).fd
      match s.run do fileRead (← theFile (s.opentab i)) FSREQ s.readCount fd.fdOffset with
      | (.error msg, s) => (.error msg, s)
      | (.ok r, s) =>
          if r < 0 then (.ok r, s)
          else (.ok r, s.setFd i { fd with fdOffset := fd.fdOffset + BitVec.ofInt 32 r })

/-- The lines of `serve_write` after `file_write`: `f_size <= fd_offset + r` sets the size again. -/
def growTo (f : FilePtr) (stop : Word) : FsM Unit := do
  if (← load f.fSize).sle stop then
    let _ ← fileSetSize f stop
    return ()
  else return ()

/-- `req_n` is not clamped to the size of `req_buf`. -/
def serveWrite (s : Server) : Except String Int × Server :=
  match openfileLookup s s.reqFileid with
  | none => (.ok (-E_INVAL), s)
  | some i =>
      let fd := (s.fds i).fd
      match s.run do fileWrite (← theFile (s.opentab i)) REQ_BUF s.reqN fd.fdOffset with
      | (.error msg, s) => (.error msg, s)
      | (.ok r, s) =>
          if r < 0 then (.ok r, s)
          else
            match s.run do growTo (← theFile (s.opentab i)) (fd.fdOffset + BitVec.ofInt 32 r) with
            | (.error msg, s) => (.error msg, s)
            | (.ok (), s) =>
                (.ok r, s.setFd i { fd with fdOffset := fd.fdOffset + BitVec.ofInt 32 r })

/-- `strcpy(dst, src)`, over at most `n` bytes: a name without an end is copied until it meets one
behind it, or until the copy leaves the disk map. -/
def strcpy : Nat → Nat → Nat → FsM Unit
  | 0, _, _ => return ()
  | n + 1, dst, src => do
      let b ← loadByte src
      storeByte dst b
      if b = 0 then return ()
      else strcpy n (dst + 1) (src + 1)

/-- `struct Fsret_stat`: the name, the size behind it, and whether it is a directory. -/
def statFile (f : FilePtr) : FsM Unit := do
  strcpy DISKSIZE FSREQ (blkAddr f.blk (4 * f.idx))
  store (.req 32) (← load f.fSize)
  store (.req 33) (if (← load f.fType) = FTYPE_DIR then 1 else 0)

def serveStat (s : Server) : Except String Int × Server :=
  match openfileLookup s s.reqFileid with
  | none => (.ok (-E_INVAL), s)
  | some i => s.run do
      statFile (← theFile (s.opentab i))
      return 0

def serveFlush (s : Server) : Except String Int × Server :=
  match openfileLookup s s.reqFileid with
  | none => (.ok (-E_INVAL), s)
  | some i => s.run do
      fileFlush (← theFile (s.opentab i))
      return 0

def serveSync (s : Server) : Except String Int × Server :=
  s.run do
    fsSync
    return 0

/-! ## The loop -/

/-- The codes of `inc/fs.h`; `FSREQ_REMOVE` is 7 and has no handler. -/
def FSREQ_OPEN : Word := 1
def FSREQ_SET_SIZE : Word := 2
def FSREQ_READ : Word := 3
def FSREQ_WRITE : Word := 4
def FSREQ_STAT : Word := 5
def FSREQ_FLUSH : Word := 6
def FSREQ_SYNC : Word := 8

/-- `handlers[req]`. -/
def handlers (req : Word) : Option (Server → Except String Int × Server) :=
  if req = FSREQ_READ then some serveRead
  else if req = FSREQ_STAT then some serveStat
  else if req = FSREQ_FLUSH then some serveFlush
  else if req = FSREQ_WRITE then some serveWrite
  else if req = FSREQ_SET_SIZE then some serveSetSize
  else if req = FSREQ_SYNC then some serveSync
  else none

/-- What `serve` does with request `req`: the value of its reply, and the page that goes with it. -/
def serveRequest (s : Server) (req : Word) (palloc : Int) :
    Except String (Int × Option (Fin MAXOPEN)) × Server :=
  if req = FSREQ_OPEN then serveOpen s palloc
  else
    match handlers req with
    | none => (.ok (-E_INVAL, none), s)
    | some handler =>
        match handler s with
        | (.error msg, s) => (.error msg, s)
        | (.ok r, s) => (.ok (r, none), s)

end SisOp.Fs
