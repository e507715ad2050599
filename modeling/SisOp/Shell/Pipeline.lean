/-
# `SisOp.Shell.Pipeline` — `pipe_command` and the processes it makes

`exec_hijo_izq`, `exec_hijo_der` and `pipe_command` of `exec.c`, with `pipe`, `fork`, `dup2`
and `close` succeeding.  A step is one system call of one process.  A process is named
by the forks that lead to it, and a pipe by the process that made it: `pipe_command` makes
one pipe and one child of each kind, and exits.
-/
import SisOp.Lib.Run
import SisOp.Lib.Slots
import SisOp.Shell.Tree

namespace SisOp.Shell

open SisOp.Lib

/-! ## The processes -/

/-- The forks from the first process: `false` for a left child, `true` for a right one. -/
abbrev Path := List Bool

/-- What a descriptor refers to. -/
inductive Ref
  | other (id : Nat)
  | read (pipe : Path)
  | write (pipe : Path)
  deriving DecidableEq

abbrev Fds := Slots Ref

/-- Where a process is. -/
inductive Pc
  /-- At `exec_cmd`; a command that is not a pipe runs from here to its end. -/
  | execCmd (cmd : Cmd)
  /-- At the `fork` of `exec_hijo_izq`, with `p->leftcmd`, `p->rightcmd` and `fd_id`. -/
  | forkIzq (l r : Cmd) (rd wr : Nat)
  /-- At the `fork` of `exec_hijo_der`. -/
  | forkDer (r : Cmd) (rd wr : Nat)
  /-- At the two `close` of `pipe_command`. -/
  | closeRead (rd wr : Nat)
  | closeWrite (wr : Nat)
  /-- At the two `waitpid`. -/
  | waitIzq
  | waitDer
  /-- The child of `exec_hijo_izq` at its `close`, `dup2` and `close`. -/
  | izqClose (cmd : Cmd) (rd wr : Nat)
  | izqDup (cmd : Cmd) (wr : Nat)
  | izqLast (cmd : Cmd) (wr : Nat)
  /-- The child of `exec_hijo_der`, likewise. -/
  | derClose (cmd : Cmd) (rd wr : Nat)
  | derDup (cmd : Cmd) (rd : Nat)
  | derLast (cmd : Cmd) (rd : Nat)
  | ended

structure Process where
  pc : Pc
  fds : Fds

abbrev System := Path → Option Process

/-- One process at `exec_cmd`. -/
def System.init (cmd : Cmd) (fds : Slots Nat) : System :=
  fun q => if q = [] then some ⟨.execCmd cmd, fds.mapVal .other⟩ else none

/-! ## Steps -/

def close (t : Fds) (fd : Nat) : Fds := t.put fd none

def dup (t : Fds) (oldfd newfd : Nat) : Fds := t.put newfd (t.get oldfd)

/-- `pipe` in the process `q`: the two lowest free descriptors. -/
def pipeRead (q : Path) (t : Fds) : Fds := t.put t.lowest (some (.read q))
def pipeBoth (q : Path) (t : Fds) : Fds :=
  (pipeRead q t).put (pipeRead q t).lowest (some (.write q))

/-- The steps of a process that touch no other. -/
inductive Own (q : Path) : Process → Process → Prop
  | pipe (addr : Nat) (l r : Cmd) (t : Fds) :
      Own q ⟨.execCmd (.pipe addr l r), t⟩
        ⟨.forkIzq l r t.lowest (pipeRead q t).lowest, pipeBoth q t⟩
  /-- The command ends, or `exec_cmd` returns and the child exits. -/
  | exit (c : Cmd) (t : Fds) (h : c.IsSimple) : Own q ⟨.execCmd c, t⟩ ⟨.ended, []⟩
  | closeRead (rd wr : Nat) (t : Fds) : Own q ⟨.closeRead rd wr, t⟩ ⟨.closeWrite wr, close t rd⟩
  | closeWrite (wr : Nat) (t : Fds) : Own q ⟨.closeWrite wr, t⟩ ⟨.waitIzq, close t wr⟩
  | izqClose (cmd : Cmd) (rd wr : Nat) (t : Fds) :
      Own q ⟨.izqClose cmd rd wr, t⟩ ⟨.izqDup cmd wr, close t rd⟩
  | izqDup (cmd : Cmd) (wr : Nat) (t : Fds) :
      Own q ⟨.izqDup cmd wr, t⟩ ⟨.izqLast cmd wr, dup t wr 1⟩
  | izqLast (cmd : Cmd) (wr : Nat) (t : Fds) :
      Own q ⟨.izqLast cmd wr, t⟩ ⟨.execCmd cmd, close t wr⟩
  | derClose (cmd : Cmd) (rd wr : Nat) (t : Fds) :
      Own q ⟨.derClose cmd rd wr, t⟩ ⟨.derDup cmd rd, close t wr⟩
  | derDup (cmd : Cmd) (rd : Nat) (t : Fds) :
      Own q ⟨.derDup cmd rd, t⟩ ⟨.derLast cmd rd, dup t rd 0⟩
  | derLast (cmd : Cmd) (rd : Nat) (t : Fds) :
      Own q ⟨.derLast cmd rd, t⟩ ⟨.execCmd cmd, close t rd⟩

/-- The process has ended. -/
def System.Ended (s : System) (q : Path) : Prop := ∃ pr, s q = some pr ∧ pr.pc = .ended

def System.set (s : System) (q : Path) (pr : Process) : System := Function.update s q (some pr)

/-- A step of the process `q`. -/
inductive System.Step : System → Path → System → Prop
  | own (s : System) (q : Path) (pr pr' : Process) (hq : s q = some pr) (h : Own q pr pr') :
      System.Step s q (s.set q pr')
  | forkIzq (s : System) (q : Path) (l r : Cmd) (rd wr : Nat) (t : Fds)
      (hq : s q = some ⟨.forkIzq l r rd wr, t⟩) :
      System.Step s q ((s.set q ⟨.forkDer r rd wr, t⟩).set (q ++ [false]) ⟨.izqClose l rd wr, t⟩)
  | forkDer (s : System) (q : Path) (r : Cmd) (rd wr : Nat) (t : Fds)
      (hq : s q = some ⟨.forkDer r rd wr, t⟩) :
      System.Step s q ((s.set q ⟨.closeRead rd wr, t⟩).set (q ++ [true]) ⟨.derClose r rd wr, t⟩)
  | waitIzq (s : System) (q : Path) (t : Fds) (hq : s q = some ⟨.waitIzq, t⟩)
      (hend : s.Ended (q ++ [false])) : System.Step s q (s.set q ⟨.waitDer, t⟩)
  /-- `waitpid` and `exit(0)`. -/
  | waitDer (s : System) (q : Path) (t : Fds) (hq : s q = some ⟨.waitDer, t⟩)
      (hend : s.Ended (q ++ [true])) : System.Step s q (s.set q ⟨.ended, []⟩)

/-! ## What is claimed of a run -/

/-- The process whose right command holds stage `k` and the later ones. -/
def node (k : Nat) : Path := List.replicate k true

/-- The process of stage `i` of `n`. -/
def stage (n i : Nat) : Path := if i + 1 < n then node i ++ [false] else node i

/-- Stage `i` of `n`: the two ends it has, where it has them, and no other.  Pipe `i` is the one
`node i` makes. -/
structure Wired (n i : Nat) (t : Fds) : Prop where
  out : i + 1 < n → t.get 1 = some (.write (node i))
  inp : 0 < i → t.get 0 = some (.read (node (i - 1)))
  only_read : ∀ m p, t.get m = some (.read p) → 0 < i ∧ m = 0
  only_write : ∀ m p, t.get m = some (.write p) → i + 1 < n ∧ m = 1

/-- The process has not to `fork`. -/
def Pc.WillFork : Pc → Prop
  | .execCmd c => ¬ c.IsSimple
  | .izqClose c _ _ => ¬ c.IsSimple
  | .izqDup c _ => ¬ c.IsSimple
  | .izqLast c _ => ¬ c.IsSimple
  | .derClose c _ _ => ¬ c.IsSimple
  | .derDup c _ => ¬ c.IsSimple
  | .derLast c _ => ¬ c.IsSimple
  | .forkIzq _ _ _ _ => True
  | .forkDer _ _ _ => True
  | _ => False

/-- The process is running its command, waits or has ended: the forks and the `close` that follow
them are behind it. -/
def Pc.Settled : Pc → Prop
  | .execCmd c => c.IsSimple
  | .waitIzq => True
  | .waitDer => True
  | .ended => True
  | _ => False

def System.ForksDone (s : System) : Prop := ∀ q pr, s q = some pr → ¬ pr.pc.WillFork

def System.Settled (s : System) : Prop := ∀ q pr, s q = some pr → pr.pc.Settled

/-- Only stage `i` holds the end to write to of pipe `i`. -/
def System.OnlyWriter (s : System) (n i : Nat) : Prop :=
  ∀ q pr m, s q = some pr → pr.fds.get m = some (.write (node i)) → q = stage n i

/-- A `read` of pipe `i` finds the end of file once the pipe is empty. -/
def System.Eof (s : System) (i : Nat) : Prop :=
  ∀ q pr m, s q = some pr → pr.fds.get m ≠ some (.write (node i))

end SisOp.Shell
