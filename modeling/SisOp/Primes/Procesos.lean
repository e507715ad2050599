/-
# `SisOp.Primes.Procesos` — the processes of the sieve (`TP fork/primes.c`)

A system is its processes in the order of their creation, its pipes and what has
been written to the standard output.  Every process carries its descriptor table,
so that an end of a pipe is open as long as some process holds it: `read` sees the
end of the file only when the pipe is empty and nobody can write to it, and blocks
until then.  `write` blocks while the pipe holds `cap` numbers, and kills the writer
when nobody can read.

`Sistema.turno` is one system call of one process (`Pc` says which), `none` when it
would block.  A run is any sequence of turns: nothing is said about who goes next.
A `printf` reaches the output at once, `fork` and `pipe` succeed, and the messages
that `perror` sends to the standard error are left out.
-/
import SisOp.Lib.Run
import Mathlib.Data.Finset.Basic
import Mathlib.Logic.Function.Basic

namespace SisOp.Primes

open SisOp.Lib

def INT_MAX : Int := 2147483647

/-- `i++` on an `int`. -/
def incr (i : Int) : Int := (i + 1).bmod 4294967296

/-! ## Processes -/

/-- The two ends of a pipe, `fd[LECTURA]` and `fd[ESCRITURA]`. -/
inductive Extremo
  | lectura
  | escritura
  deriving DecidableEq

/-- An open descriptor: no end is ever duplicated within a process. -/
abbrev Fd := Nat × Extremo

/-- The call a process is about to make, with the local variables it needs. -/
inductive Pc
  /-- `pipe` and `fork` in `main`. -/
  | mainPipe
  | mainFork
  /-- `hago_de_padre`: the test of the loop and the `write` of `i`, then the rest. -/
  | padreFor (i : Int)
  | padreCloseEscritura
  | padreCloseLectura
  /-- `wait(NULL)` at the end of `hago_de_padre` and of `filtro`. -/
  | wait
  /-- `close(pipe_izq[ESCRITURA])` in `hago_de_hijo`. -/
  | hijoClose
  /-- `primes`, from its first `read`. -/
  | primesRead
  | primesNoHayMas
  | primesCloseIzq
  | primesPrintf (numeroBase : Int)
  | primesPipe (numeroBase : Int)
  | primesFork (numeroBase : Int)
  /-- `close(pipe_izq[LECTURA])` in the new child. -/
  | primesHijoClose
  /-- `filtro`. -/
  | filtroRead (numeroBase : Int)
  | filtroWrite (numeroBase numeroAux : Int)
  | filtroCloseIzq
  | filtroCloseEscritura
  | filtroCloseLectura
  /-- The process has exited. -/
  | exit
  /-- The process has been killed by `SIGPIPE`. -/
  | sigpipe
  deriving DecidableEq

structure Proc where
  pc : Pc
  pipeIzq : Nat
  pipeDer : Nat
  fds : Finset Fd
  /-- Its child, once it has forked. -/
  hijo : Option Nat
  /-- What its last `read` returned. -/
  leido : Option Int
  deriving DecidableEq

/-- A line on the standard output. -/
inductive Linea
  | primo (p : Int)
  | noHayMas
  deriving DecidableEq

structure Sistema where
  nprocs : Nat
  procs : Nat → Proc
  npipes : Nat
  /-- The numbers in every pipe, oldest first. -/
  pipes : Nat → List Int
  /-- The lines printed, each with the process that printed it. -/
  salida : List (Nat × Linea)

namespace Sistema

/-- Some process holds an end of a pipe. -/
def Abierto (s : Sistema) (fd : Fd) : Prop := ∃ j < s.nprocs, fd ∈ (s.procs j).fds

instance decidableAbierto (s : Sistema) (fd : Fd) : Decidable (s.Abierto fd) :=
  inferInstanceAs (Decidable (∃ j < s.nprocs, fd ∈ (s.procs j).fds))

/-! ## System calls -/

def setProc (s : Sistema) (i : Nat) (q : Proc) : Sistema :=
  { s with procs := Function.update s.procs i q }

def setPipe (s : Sistema) (p : Nat) (xs : List Int) : Sistema :=
  { s with pipes := Function.update s.pipes p xs }

/-- Nothing but the next call. -/
def sigue (s : Sistema) (i : Nat) (pc : Pc) : Sistema := s.setProc i { s.procs i with pc := pc }

/-- `close(fd)`. -/
def close (s : Sistema) (i : Nat) (fd : Fd) (pc : Pc) : Sistema :=
  s.setProc i { s.procs i with fds := (s.procs i).fds.erase fd, pc := pc }

/-- `pipe(pipe_der)`. -/
def pipe (s : Sistema) (i : Nat) (pc : Pc) : Sistema :=
  { s.setProc i { s.procs i with
      fds := insert (s.npipes, .lectura) (insert (s.npipes, .escritura) (s.procs i).fds)
      pipeDer := s.npipes
      pc := pc } with
    npipes := s.npipes + 1 }

/-- `fork()`: the parent goes on at `pcPadre`, the child, a copy, at `pcHijo`. -/
def fork (s : Sistema) (i : Nat) (pcPadre pcHijo : Pc) : Sistema :=
  { (s.setProc i { s.procs i with pc := pcPadre, hijo := some s.nprocs }).setProc s.nprocs
      { s.procs i with pc := pcHijo, hijo := none, leido := none } with
    nprocs := s.nprocs + 1 }

/-- The end of a process: the kernel closes its descriptors. -/
def termina (s : Sistema) (i : Nat) (pc : Pc) : Sistema :=
  s.setProc i { s.procs i with fds := ∅, pc := pc }

def printf (s : Sistema) (i : Nat) (l : Linea) (pc : Pc) : Sistema :=
  { s.sigue i pc with salida := s.salida ++ [(i, l)] }

/-- `write(pipe_der[ESCRITURA], &x, sizeof(int))`, whose result decides nothing. -/
def write (s : Sistema) (cap i : Nat) (x : Int) (pc : Pc) : Option Sistema :=
  let p := (s.procs i).pipeDer
  if (p, .escritura) ∉ (s.procs i).fds then some (s.sigue i pc)
  else if ¬ s.Abierto (p, .lectura) then some (s.termina i .sigpipe)
  else if (s.pipes p).length < cap then some ((s.setPipe p (s.pipes p ++ [x])).sigue i pc)
  else none

/-- The process after a `read` that returned `r`. -/
def leyo (s : Sistema) (i : Nat) (r : Int) (pc : Pc) : Sistema :=
  s.setProc i { s.procs i with leido := some r, pc := pc }

/-- `read(pipe_izq[LECTURA], &x, sizeof(int))`: `pc x` comes next if it returned more than 0,
`pcFin` otherwise. -/
def read (s : Sistema) (i : Nat) (pc : Int → Pc) (pcFin : Pc) : Option Sistema :=
  let p := (s.procs i).pipeIzq
  if (p, .lectura) ∉ (s.procs i).fds then some (s.leyo i (-1) pcFin)
  else match s.pipes p with
    | x :: xs => some ((s.setPipe p xs).leyo i 4 (pc x))
    | [] => if s.Abierto (p, .escritura) then none else some (s.leyo i 0 pcFin)

/-- `wait(NULL)`, after which the process returns from `main`. -/
def wait (s : Sistema) (i : Nat) : Option Sistema :=
  match (s.procs i).hijo with
  | none => some (s.termina i .exit)
  | some c =>
      if (s.procs c).pc = .exit ∨ (s.procs c).pc = .sigpipe then some (s.termina i .exit) else none

/-! ## Turns -/

/-- The next call of process `i`. -/
def turno (cap : Nat) (numeroMax : Int) (s : Sistema) (i : Nat) : Option Sistema :=
  let izq := (s.procs i).pipeIzq
  let der := (s.procs i).pipeDer
  match (s.procs i).pc with
  | .mainPipe => some (s.pipe i .mainFork)
  | .mainFork =>
      -- `hago_de_hijo(pipe_der, ..)` in the child, `hago_de_padre` in the parent
      let s' := s.fork i (.padreFor 2) .hijoClose
      some (s'.setProc s.nprocs { s'.procs s.nprocs with pipeIzq := der })
  | .padreFor n =>
      if n ≤ numeroMax then s.write cap i n (.padreFor (incr n))
      else some (s.sigue i .padreCloseEscritura)
  | .padreCloseEscritura => some (s.close i (der, .escritura) .padreCloseLectura)
  | .padreCloseLectura => some (s.close i (der, .lectura) .wait)
  | .wait => s.wait i
  | .hijoClose => some (s.close i (izq, .escritura) .primesRead)
  | .primesRead => s.read i .primesPrintf .primesNoHayMas
  | .primesNoHayMas => some (s.printf i .noHayMas .primesCloseIzq)
  | .primesCloseIzq => some ((s.close i (izq, .lectura) .exit).termina i .exit)
  | .primesPrintf b => some (s.printf i (.primo b) (.primesPipe b))
  | .primesPipe b => some (s.pipe i (.primesFork b))
  | .primesFork b => some (s.fork i (.filtroRead b) .primesHijoClose)
  | .primesHijoClose =>
      -- then `hago_de_hijo(pipe_der, ..)`
      let s' := s.close i (izq, .lectura) .hijoClose
      some (s'.setProc i { s'.procs i with pipeIzq := der })
  | .filtroRead b => s.read i (.filtroWrite b) .filtroCloseIzq
  | .filtroWrite b x =>
      if x.tmod b ≠ 0 then s.write cap i x (.filtroRead b) else some (s.sigue i (.filtroRead b))
  | .filtroCloseIzq => some (s.close i (izq, .lectura) .filtroCloseEscritura)
  | .filtroCloseEscritura => some (s.close i (der, .escritura) .filtroCloseLectura)
  | .filtroCloseLectura => some (s.close i (der, .lectura) .wait)
  | .exit => none
  | .sigpipe => none

/-- `main` has checked its argument. -/
def inicio : Sistema where
  nprocs := 1
  procs := fun _ => ⟨.mainPipe, 0, 0, ∅, none, none⟩
  npipes := 0
  pipes := fun _ => []
  salida := []

end Sistema

/-- One turn of process `i`. -/
def Paso (cap : Nat) (numeroMax : Int) (s : Sistema) (i : Nat) (s' : Sistema) : Prop :=
  i < s.nprocs ∧ s.turno cap numeroMax i = some s'

/-- No process can go on. -/
def Quieto (cap : Nat) (numeroMax : Int) (s : Sistema) : Prop :=
  ∀ i s', ¬ Paso cap numeroMax s i s'

end SisOp.Primes
