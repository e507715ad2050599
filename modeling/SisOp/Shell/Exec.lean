/-
# `SisOp.Shell.Exec` — `exec_cmd` on a simple command

`set_environ_vars`, the functions of the redirections and `exec_command` of `exec.c`.  A
function returns the calls of `execvp` it makes: after one that fails it only prints and
returns.  The descriptors a process starts with are told apart by number; one
that the functions open carries the name of its file.
-/
import SisOp.Lib.Slots
import SisOp.Shell.Parsing

namespace SisOp.Shell

open SisOp.Lib

/-! ## The process -/

/-- The third argument of `open_redir_fd`. -/
inductive Flags
  | READ
  | WRITE
  | SALIDA_ERR
  deriving DecidableEq

/-- What a file is open for. -/
inductive Mode
  | rd
  | wr
  deriving DecidableEq

/-- What a descriptor refers to. -/
inductive Chan
  | inherited (id : Nat)
  | file (id : Nat) (name : Str) (mode : Mode)
  deriving DecidableEq

/-- A descriptor, and whether `execvp` closes it. -/
structure Entry where
  chan : Chan
  cloexec : Bool
  deriving DecidableEq

abbrev Environ := Str → Option Str

structure Proc where
  fds : Slots Entry
  environ : Environ
  /-- The number of the next file to be opened. -/
  opened : Nat

/-- A process that has opened no file of its own. -/
def Proc.start (fds : Slots (Nat × Bool)) (environ : Environ) : Proc :=
  { fds := fds.mapVal fun e => ⟨.inherited e.1, e.2⟩, environ := environ, opened := 0 }

/-- A call of `execvp(argv[0], argv)` with what the process has then. -/
structure Execvp where
  argv : List Str
  environ : Environ
  fds : Slots Entry

def execvp (p : Proc) (argv : List Str) : List Execvp := [⟨argv, p.environ, p.fds⟩]

/-- `setenv` with `overwrite`; it refuses a key that is empty or has a `'='`. -/
def setenv (env : Environ) (key value : Str) : Environ :=
  if key = [] ∨ '=' ∈ key then env else fun k => if k = key then some value else env k

/-- `dup2`: on two equal descriptors it does nothing, otherwise the copy survives `execvp`. -/
def dup2 (p : Proc) (oldfd newfd : Nat) : Proc :=
  match p.fds.get oldfd with
  | none => p
  | some e =>
    if oldfd = newfd then p
    else { p with fds := p.fds.put newfd (some { e with cloexec := false }) }

/-- The lowest free descriptor becomes a newly opened file. -/
def Proc.withFile (p : Proc) (file : Str) (mode : Mode) (cloexec : Bool) : Proc :=
  { p with
    fds := p.fds.put p.fds.lowest (some ⟨.file p.opened file mode, cloexec⟩)
    opened := p.opened + 1 }

/-! ## `exec.c` -/

section

-- whether `open` succeeds
variable (canOpen : Str → Mode → Bool)

/-- `open`. -/
def openFile (p : Proc) (file : Str) (mode : Mode) (cloexec : Bool) : Option (Nat × Proc) :=
  if canOpen file mode then
    some (p.fds.lowest, p.withFile file mode cloexec)
  else none

/-- `open_redir_fd`: with `READ` the flag `O_CLOEXEC` is given as the mode and has no effect. -/
def openRedirFd (p : Proc) (file : Str) : Flags → Option (Nat × Proc)
  | .READ => openFile canOpen p file .rd false
  | .WRITE => openFile canOpen p file .wr true
  | .SALIDA_ERR => openFile canOpen p file .wr true

def getEnvironKey (arg : Str) : Str := arg.takeWhile (· != '=')

def getEnvironValue (arg : Str) (idx : Nat) : Str := arg.drop (idx + 1)

/-- `set_environ_vars`. -/
def setEnvironVars (env : Environ) (eargv : List Str) : Environ :=
  eargv.foldl (fun env arg =>
    setenv env (getEnvironKey arg)
      (getEnvironValue arg ((blockContains arg '=').getD 0))) env

/-- `redir_entrada`. -/
def redirEntrada (r : Execcmd) (p : Proc) : List Execvp :=
  match openRedirFd canOpen p r.inFile .READ with
  | none => []
  | some (fd, p') => execvp (dup2 p' fd 0) r.argv

/-- `redir_salida`. -/
def redirSalida (r : Execcmd) (p : Proc) : List Execvp :=
  match openRedirFd canOpen p r.outFile .WRITE with
  | none => []
  | some (fd, p') => execvp (dup2 p' fd 1) r.argv

/-- `redir_error_salida`. -/
def redirErrorSalida (r : Execcmd) (p : Proc) : List Execvp :=
  match openRedirFd canOpen p r.outFile .WRITE with
  | none => []
  | some (fdSalida, p') =>
    let p := dup2 p' fdSalida 1
    if (blockContains r.errFile '&').isSome then execvp (dup2 p fdSalida 2) r.argv
    else
      match openRedirFd canOpen p r.errFile .SALIDA_ERR with
      | none => []
      | some (fdError, p') => execvp (dup2 p' fdError 2) r.argv

/-- `redir_command`. -/
def redirCommand (r : Execcmd) (p : Proc) : List Execvp :=
  let redIngreso := 0 < r.inFile.length
  let redSalida := 0 < r.outFile.length
  let redError := 0 < r.errFile.length
  if redError ∧ redSalida then redirErrorSalida canOpen r p
  else if redSalida then redirSalida canOpen r p
  else if redIngreso then redirEntrada canOpen r p
  else []

/-- `exec_command`. -/
def execCommand (e : Execcmd) (p : Proc) : List Execvp :=
  execvp { p with environ := setEnvironVars p.environ e.eargv } e.argv

/-- The cases `EXEC` and `REDIR` of `exec_cmd`. -/
def execCmd (e : Execcmd) (p : Proc) : List Execvp :=
  match e.type with
  | .EXEC => execCommand e p
  | .REDIR => redirCommand canOpen e p
  | _ => []

end

end SisOp.Shell
