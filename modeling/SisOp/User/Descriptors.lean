/-
# `SisOp.User.Descriptors` — `pipe`, `dup`, `close`, `fork`, `spawn` and `exit`

The library calls of `lib/fd.c`, `lib/pipe.c`, `lib/fork.c` and `lib/spawn.c` as
sequences of system calls: a step is one system call of one environment, with the
code of the library before it.  Of an address space only the pages that descriptors
use are kept (all of them are `PTE_SHARE`), and of the kernel what the calls do to the
page tables and to `pp_ref`.
-/
import SisOp.Jos.Env
import SisOp.Lib.RefCount
import SisOp.Lib.Run
import Mathlib.Data.FinEnum
import Mathlib.Tactic.FinCases

namespace SisOp.User

open SisOp.Lib SisOp.Jos

/-! ## Addresses -/

/-- The number of a virtual page. -/
abbrev Vpn := BitVec 20

def MAXFD : Nat := 32

/-- `PGNUM` of `FDTABLE`, `FILEDATA` and `UTOP`. -/
def FDTABLE : Vpn := 0xD0000
def FILEDATA : Vpn := FDTABLE + BitVec.ofNat 20 MAXFD
def UTOPPN : Vpn := 0xEEC00

def INDEX2FD (i : Int) : Vpn := FDTABLE + BitVec.ofInt 20 i

def fd2num (fd : Vpn) : Vpn := fd - FDTABLE

def fd2data (fd : Vpn) : Vpn := FILEDATA + fd2num fd

/-- The two pages of descriptor `i`. -/
def fdVa (i : Fin MAXFD) : Vpn := INDEX2FD i
def dataVa (i : Fin MAXFD) : Vpn := fd2data (fdVa i)

theorem toNat_fdVa (i : Fin MAXFD) : (fdVa i).toNat = 0xD0000 + i.val := by
  fin_cases i <;> rfl

theorem toNat_dataVa (i : Fin MAXFD) : (dataVa i).toNat = 0xD0020 + i.val := by
  fin_cases i <;> rfl

theorem fdVa_inj {i j : Fin MAXFD} : fdVa i = fdVa j ↔ i = j := by
  refine ⟨fun h => Fin.ext ?_, fun h => h ▸ rfl⟩
  have heq := congrArg BitVec.toNat h
  rw [toNat_fdVa, toNat_fdVa] at heq
  omega

theorem dataVa_inj {i j : Fin MAXFD} : dataVa i = dataVa j ↔ i = j := by
  refine ⟨fun h => Fin.ext ?_, fun h => h ▸ rfl⟩
  have heq := congrArg BitVec.toNat h
  rw [toNat_dataVa, toNat_dataVa] at heq
  omega

theorem fdVa_ne_dataVa (i j : Fin MAXFD) : fdVa i ≠ dataVa j := by
  intro h
  have heq := congrArg BitVec.toNat h
  have hi : i.val < 32 := i.isLt
  rw [toNat_fdVa, toNat_dataVa] at heq
  omega

/-- The pages by what they were allocated for; the number tells the calls of `pipe` and of `open`
apart. -/
inductive Page
  /-- The `Fd` page of the end to read from or, with `true`, to write to. -/
  | fd (k : Nat) (wr : Bool)
  /-- The `struct Pipe`. -/
  | pipe (k : Nat)
  /-- The `Fd` page of a file. -/
  | file (k : Nat)
  deriving DecidableEq

def Page.call : Page → Nat
  | .fd k _ => k
  | .pipe k => k
  | .file k => k

abbrev AddrSpace := Vpn → Option Page

/-- `fd_alloc`. -/
def fdAlloc (m : AddrSpace) : Option (Fin MAXFD) :=
  (List.finRange MAXFD).find? fun i => (m (fdVa i)).isNone

/-- `fd_lookup`. -/
def fdLookup (m : AddrSpace) (fdnum : Int) : Option (Fin MAXFD) :=
  if h : 0 ≤ fdnum ∧ fdnum.toNat < MAXFD then
    if (m (fdVa ⟨fdnum.toNat, h.2⟩)).isSome then some ⟨fdnum.toNat, h.2⟩ else none
  else none

/-! ## Where a call is -/

/-- What comes after a `close` within another call. -/
inductive After
  | ret
  /-- `dup` to `newfdnum`. -/
  | dup (old : Fin MAXFD) (newfdnum : Int)
  /-- `close_all`, with the next number. -/
  | closeAll (i : Nat)
  /-- `spawn`, before `copy_shared_pages(child)`. -/
  | spawn (child : Slot)

inductive Pc
  /-- Between two calls. -/
  | idle
  /-- The library panicked. -/
  | dead
  /-- `pipe`, with `fd0` mapped. -/
  | pipe1 (k : Nat) (i : Fin MAXFD)
  /-- With `fd0` and `fd1` mapped. -/
  | pipe2 (k : Nat) (i j : Fin MAXFD)
  /-- With the data page at `fd2data(fd0)` as well. -/
  | pipe3 (k : Nat) (i j : Fin MAXFD)
  /-- At the labels `err3`, `err2` and `err1`. -/
  | err3 (k : Nat) (i j : Fin MAXFD)
  | err2 (k : Nat) (i j : Fin MAXFD)
  | err1 (k : Nat) (i : Fin MAXFD)
  /-- `devpipe_close`, at its two system calls. -/
  | close1 (i : Fin MAXFD) (after : After)
  | close2 (i : Fin MAXFD) (after : After)
  /-- `fd_close`, at its `sys_page_unmap`. -/
  | close3 (i : Fin MAXFD) (after : After)
  /-- `dup`, after `close(newfdnum)`. -/
  | dup1 (old : Fin MAXFD) (newfdnum : Int)
  /-- With the data page mapped, if there is one. -/
  | dup2 (old : Fin MAXFD) (newfdnum : Int)
  /-- At its label `err`, before each of the two system calls. -/
  | dupErr1 (newfdnum : Int)
  | dupErr2 (newfdnum : Int)
  /-- `close_all`, with the next number. -/
  | closeAll (i : Nat)
  /-- `spawn`, with the program open. -/
  | opened (i : Fin MAXFD)
  /-- `spawn`, loading the segments. -/
  | loading (child : Slot) (i : Fin MAXFD)
  /-- The loop of `fork` or of `copy_shared_pages`, at page `n`, up to `stop`. -/
  | sweep (child : Slot) (n stop : Vpn)

def After.pc : After → Pc
  | .ret => .idle
  | .dup old newfdnum => .dup1 old newfdnum
  | .closeAll i => .closeAll i
  | .spawn child => .sweep child 0 UTOPPN

/-- `fd_close`, with `dev_lookup(fd->fd_dev_id)`: only pipes have more than the `Fd` page to unmap.
A `struct Pipe` in its place starts with a `p_rpos` that no device has as its id. -/
def fdClose (m : AddrSpace) (i : Fin MAXFD) (after : After) : Pc :=
  match m (fdVa i) with
  | some (.fd _ _) => .close1 i after
  | _ => .close3 i after

def close (m : AddrSpace) (fdnum : Int) (after : After) : Pc :=
  match fdLookup m fdnum with
  | none => after.pc
  | some i => fdClose m i after

inductive Status
  | free
  /-- Made by `sys_exofork` of `parent`, and not running yet. -/
  | embryo (parent : Slot)
  | run (pc : Pc)

structure Proc where
  status : Status
  map : AddrSpace

structure World where
  procs : Slot → Proc
  ppRef : Page → BitVec 16
  /-- The number of the next call of `pipe` or `open`. -/
  next : Nat

/-- Environments with no descriptors; those in `live` run. -/
def World.init (live : Slot → Bool) : World where
  procs e := ⟨if live e then .run .idle else .free, fun _ => none⟩
  ppRef _ := 0
  next := 0

/-! ## System calls -/

namespace World

def map (w : World) (e : Slot) : AddrSpace := (w.procs e).map

/-- `page_insert` or `page_remove`, with the counters of the old page and the new. -/
def setPte (w : World) (e : Slot) (va : Vpn) (x : Option Page) : World where
  procs := Function.update w.procs e { w.procs e with map := Function.update (w.map e) va x }
  ppRef p := w.ppRef p + (if x = some p then 1 else 0) - (if w.map e va = some p then 1 else 0)
  next := w.next

/-- The environment goes on to `pc`. -/
def goto (w : World) (e : Slot) (pc : Pc) : World :=
  { w with procs := Function.update w.procs e { w.procs e with status := .run pc } }

/-- `sys_exofork`. -/
def exofork (w : World) (e c : Slot) : World :=
  { w with procs := Function.update w.procs c ⟨.embryo e, fun _ => none⟩ }

/-- `env_free`. -/
def envFree (w : World) (e : Slot) : World where
  procs := Function.update w.procs e ⟨.free, fun _ => none⟩
  ppRef p := w.ppRef p - BitVec.ofNat 16 (refs (w.map e) p)
  next := w.next

/-- `pageref(va)`. -/
def pageref (w : World) (e : Slot) (va : Vpn) : BitVec 16 :=
  match w.map e va with
  | none => 0
  | some p => w.ppRef p

/-- `_pipeisclosed(fd, fd2data(fd))`, its two loads without a step between them. -/
def pipeisclosed (w : World) (e : Slot) (i : Fin MAXFD) : Bool :=
  w.pageref e (fdVa i) = w.pageref e (dataVa i)

end World

inductive Event
  | tau
  | dup (newfdnum : Int)
  | closed (e : Slot) (i : Fin MAXFD) (ret : Bool)

/-- The steps that concern one address space `m`: the change to it, and where the call goes on. -/
inductive Local (m : AddrSpace) (next : Nat) : Pc → Event → Option (Vpn × Option Page) → Pc → Prop
  /-- A call fails before it does anything. -/
  | nothing : Local m next .idle .tau none .idle
  | pipeFd0 (i : Fin MAXFD) (h : fdAlloc m = some i) :
      Local m next .idle .tau (some (fdVa i, some (.fd next false))) (.pipe1 next i)
  | pipe1Fail (k : Nat) (i : Fin MAXFD) : Local m next (.pipe1 k i) .tau none (.err1 k i)
  | pipeFd1 (k : Nat) (i j : Fin MAXFD) (h : fdAlloc m = some j) :
      Local m next (.pipe1 k i) .tau (some (fdVa j, some (.fd k true))) (.pipe2 k i j)
  | pipe2Fail (k : Nat) (i j : Fin MAXFD) : Local m next (.pipe2 k i j) .tau none (.err2 k i j)
  | pipeData (k : Nat) (i j : Fin MAXFD) :
      Local m next (.pipe2 k i j) .tau (some (dataVa i, some (.pipe k))) (.pipe3 k i j)
  | pipe3Fail (k : Nat) (i j : Fin MAXFD) : Local m next (.pipe3 k i j) .tau none (.err3 k i j)
  | pipeMap (k : Nat) (i j : Fin MAXFD) (p : Page) (h : m (dataVa i) = some p) :
      Local m next (.pipe3 k i j) .tau (some (dataVa j, some p)) .idle
  | err3 (k : Nat) (i j : Fin MAXFD) :
      Local m next (.err3 k i j) .tau (some (dataVa i, none)) (.err2 k i j)
  | err2 (k : Nat) (i j : Fin MAXFD) :
      Local m next (.err2 k i j) .tau (some (fdVa j, none)) (.err1 k i)
  | err1 (k : Nat) (i : Fin MAXFD) : Local m next (.err1 k i) .tau (some (fdVa i, none)) .idle
  | closeFd (fdnum : Int) : Local m next .idle .tau none (close m fdnum .ret)
  | close1 (i : Fin MAXFD) (after : After) :
      Local m next (.close1 i after) .tau (some (fdVa i, none)) (.close2 i after)
  | close2 (i : Fin MAXFD) (after : After) :
      Local m next (.close2 i after) .tau (some (dataVa i, none)) (.close3 i after)
  | close3 (i : Fin MAXFD) (after : After) :
      Local m next (.close3 i after) .tau (some (fdVa i, none)) after.pc
  | dup (oldfdnum newfdnum : Int) (old : Fin MAXFD) (h : fdLookup m oldfdnum = some old) :
      Local m next .idle (.dup newfdnum) none (close m newfdnum (.dup old newfdnum))
  | dupData (old : Fin MAXFD) (newfdnum : Int) (p : Page) (h : m (dataVa old) = some p)
      (hva : fd2data (INDEX2FD newfdnum) < UTOPPN) :
      Local m next (.dup1 old newfdnum) .tau (some (fd2data (INDEX2FD newfdnum), some p))
        (.dup2 old newfdnum)
  | dupNoData (old : Fin MAXFD) (newfdnum : Int) (h : m (dataVa old) = none) :
      Local m next (.dup1 old newfdnum) .tau none (.dup2 old newfdnum)
  | dup1Fail (old : Fin MAXFD) (newfdnum : Int) (h : (m (dataVa old)).isSome) :
      Local m next (.dup1 old newfdnum) .tau none (.dupErr1 newfdnum)
  | dupFd (old : Fin MAXFD) (newfdnum : Int) (p : Page) (h : m (fdVa old) = some p)
      (hva : INDEX2FD newfdnum < UTOPPN) :
      Local m next (.dup2 old newfdnum) .tau (some (INDEX2FD newfdnum, some p)) .idle
  | dup2Fail (old : Fin MAXFD) (newfdnum : Int) :
      Local m next (.dup2 old newfdnum) .tau none (.dupErr1 newfdnum)
  | dupErr1 (newfdnum : Int) : Local m next (.dupErr1 newfdnum) .tau
      (some (INDEX2FD newfdnum, none)) (.dupErr2 newfdnum)
  | dupErr2 (newfdnum : Int) : Local m next (.dupErr2 newfdnum) .tau
      (some (fd2data (INDEX2FD newfdnum), none)) .idle
  | exit : Local m next .idle .tau none (.closeAll 0)
  | closeAll (i : Nat) (h : i < MAXFD) :
      Local m next (.closeAll i) .tau none (close m i (.closeAll (i + 1)))
  /-- `open`: the file server maps an `Fd` page. -/
  | spawnOpen (i : Fin MAXFD) (h : fdAlloc m = some i) :
      Local m next .idle .tau (some (fdVa i, some (.file next))) (.opened i)
  /-- It is not a program. -/
  | spawnClose (i : Fin MAXFD) :
      Local m next (.opened i) .tau none (close m i .ret)
  /-- `sys_exofork` fails. -/
  | spawnFail (i : Fin MAXFD) : Local m next (.opened i) .tau none .idle
  /-- `init_stack` fails. -/
  | loadFail (child : Slot) (i : Fin MAXFD) : Local m next (.loading child i) .tau none .idle
  | loaded (child : Slot) (i : Fin MAXFD) :
      Local m next (.loading child i) .tau none (close m i (.spawn child))
  /-- `sys_page_map` fails. -/
  | sweepFail (child : Slot) (n stop : Vpn) : Local m next (.sweep child n stop) .tau none .dead

/-- The change of a local step. -/
def World.change (w : World) (e : Slot) : Option (Vpn × Option Page) → World
  | none => w
  | some (va, x) => w.setPte e va x

inductive World.Step : World → Event → World → Prop
  | own (w : World) (e : Slot) (pc pc' : Pc) (ev : Event) (c : Option (Vpn × Option Page))
      (hpc : (w.procs e).status = .run pc) (h : Local (w.map e) w.next pc ev c pc') :
      World.Step w ev { (w.change e c).goto e pc' with next := w.next + 1 }
  /-- `sys_exofork` of `fork`, whose loop leaves out the page of the exception stack. -/
  | fork (w : World) (e c : Slot) (hpc : (w.procs e).status = .run .idle)
      (hfree : (w.procs c).status = .free) :
      World.Step w .tau ((w.exofork e c).goto e (.sweep c 0 (UTOPPN - 1)))
  | spawn (w : World) (e c : Slot) (i : Fin MAXFD) (hpc : (w.procs e).status = .run (.opened i))
      (hfree : (w.procs c).status = .free) :
      World.Step w .tau ((w.exofork e c).goto e (.loading c i))
  /-- `map_segment` fails. -/
  | spawnError (w : World) (e c : Slot) (i : Fin MAXFD)
      (hpc : (w.procs e).status = .run (.loading c i)) :
      World.Step w .tau ((w.goto e (close (w.map e) i .ret)).envFree c)
  /-- The next page that the parent has; that `duppage` then maps it onto itself changes nothing. -/
  | sweep (w : World) (e c : Slot) (n stop va : Vpn) (p : Page)
      (hpc : (w.procs e).status = .run (.sweep c n stop)) (hva : n ≤ va ∧ va < stop)
      (hskip : ∀ a, n ≤ a → a < va → w.map e a = none) (hp : w.map e va = some p) :
      World.Step w .tau ((w.setPte c va (some p)).goto e (.sweep c (va + 1) stop))
  /-- `sys_env_set_status(child, ENV_RUNNABLE)`. -/
  | sweepDone (w : World) (e c : Slot) (n stop : Vpn)
      (hpc : (w.procs e).status = .run (.sweep c n stop))
      (hskip : ∀ a, n ≤ a → a < stop → w.map e a = none) :
      World.Step w .tau ((w.goto e .idle).goto c .idle)
  /-- `sys_env_destroy(0)`. -/
  | exit (w : World) (e : Slot) (i : Nat) (hpc : (w.procs e).status = .run (.closeAll i))
      (hall : MAXFD ≤ i) : World.Step w .tau (w.envFree e)
  | closed (w : World) (e : Slot) (i : Fin MAXFD) (hpc : (w.procs e).status = .run .idle)
      (hfd : (w.map e (fdVa i)).isSome) :
      World.Step w (.closed e i (w.pipeisclosed e i)) w

end SisOp.User
