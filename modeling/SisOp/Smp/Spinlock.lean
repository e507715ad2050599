/-
# `SisOp.Smp.Spinlock` — spin_lock and spin_unlock, instruction by instruction

Any number of CPUs share the big kernel lock of kern/spinlock.c, compiled with
DEBUG_SPINLOCK as the repository has it.  One step is one access to memory: `holding`
reads `locked` and then `cpu`, the spin is an atomic `xchg`, and the debugging fields
are plain stores, which wait in the store buffer of the CPU that made them.  What a CPU
does between its calls (`client`) is not restricted: it may call either function in any
order and read and write any kernel datum.
-/
import SisOp.Lib.StoreBuffer
import SisOp.Lib.Run

namespace SisOp.Smp

open SisOp.Lib

/-! ## The lock's fields -/

/-- The words the CPUs share: the fields of `kernel_lock` and the kernel's own data. -/
inductive Addr (δ : Type)
  | locked
  | cpu
  | pcs (i : Nat)
  | data (d : δ)
  deriving DecidableEq

/-- The addresses `&cpus[c]`, which is what `thiscpu` is on CPU `c`. -/
structure Cpus (κ : Type) where
  thiscpu : κ → Nat
  ne_zero : ∀ c, thiscpu c ≠ 0
  injective : Function.Injective thiscpu

/-- The lowest kernel address, in inc/memlayout.h. -/
def ULIM : Nat := 0xef800000

/-- The saved program counters found by following %ebp through a stack; `n` of the ten
entries are left. -/
def get_caller_pcs (stack : Nat → Nat) : Nat → Nat → List Nat
  | 0, _ => []
  | n + 1, ebp =>
    if ebp = 0 ∨ ebp < ULIM then List.replicate (n + 1) 0
    else stack (ebp + 4) :: get_caller_pcs stack n (stack ebp)

/-! ## The steps -/

/-- Where a CPU is.  `chain` is what `get_caller_pcs` finds on its stack. -/
inductive Pc
  | client
  | lockLocked (chain : List Nat)
  | lockCpu (chain : List Nat)
  | spin (chain : List Nat)
  | setCpu (chain : List Nat)
  | setPcs (i : Nat) (rest : List Nat)
  | unlockLocked
  | unlockCpu
  | clearPcs
  | clearCpu
  | release
  | panicked
  deriving DecidableEq

/-- What a step shows of itself. -/
inductive Event (κ δ : Type)
  | tau (c : κ)
  | flush (c : κ)
  | callLock (c : κ)
  | goSpin (c : κ)
  | lockPanic (c : κ)
  | acquire (c : κ) (chain : List Nat)
  | locked (c : κ)
  | callUnlock (c : κ)
  | mayUnlock (c : κ)
  | unlockPanic (c : κ)
  | release (c : κ)
  | store (c : κ) (d : δ) (v : Nat)
  | load (c : κ) (d : δ) (v : Nat)
  deriving DecidableEq

variable {κ δ : Type} [DecidableEq κ] [DecidableEq δ]

/-- The shared memory and where each CPU is. -/
structure State (κ δ : Type) where
  tso : Machine κ (Addr δ) Nat
  pc : κ → Pc

/-- CPU `c` goes on at `p`. -/
def State.goto (s : State κ δ) (c : κ) (p : Pc) : State κ δ :=
  { s with pc := Function.update s.pc c p }

/-- CPU `c` stores and goes on at `p`. -/
def State.put (s : State κ δ) (c : κ) (a : Addr δ) (v : Nat) (p : Pc) : State κ δ where
  tso := s.tso.store c a v
  pc := Function.update s.pc c p

/-- CPU `c` exchanges `locked` for `v` and goes on at `p`. -/
def State.xchg (s : State κ δ) (c : κ) (v : Nat) (p : Pc) : State κ δ where
  tso := s.tso.poke .locked v
  pc := Function.update s.pc c p

/-- One access to memory, by one CPU or by its store buffer. -/
inductive Step (cpus : Cpus κ) : State κ δ → Event κ δ → State κ δ → Prop
  | callLock {s : State κ δ} {c : κ} (stack : Nat → Nat) (ebp : Nat) (hpc : s.pc c = .client) :
      Step cpus s (.callLock c) (s.goto c (.lockLocked (get_caller_pcs stack 10 ebp)))
  -- holding(lk): lock->locked && lock->cpu == thiscpu
  | lockFree {s : State κ δ} {c : κ} {chain : List Nat} (hpc : s.pc c = .lockLocked chain)
      (h : s.tso.view c .locked = 0) : Step cpus s (.goSpin c) (s.goto c (.spin chain))
  | lockTaken {s : State κ δ} {c : κ} {chain : List Nat} (hpc : s.pc c = .lockLocked chain)
      (h : s.tso.view c .locked ≠ 0) : Step cpus s (.tau c) (s.goto c (.lockCpu chain))
  | lockOther {s : State κ δ} {c : κ} {chain : List Nat} (hpc : s.pc c = .lockCpu chain)
      (h : s.tso.view c .cpu ≠ cpus.thiscpu c) : Step cpus s (.goSpin c) (s.goto c (.spin chain))
  | lockMine {s : State κ δ} {c : κ} {chain : List Nat} (hpc : s.pc c = .lockCpu chain)
      (h : s.tso.view c .cpu = cpus.thiscpu c) : Step cpus s (.lockPanic c) (s.goto c .panicked)
  -- while (xchg(&lk->locked, 1) != 0) pause
  | spinAgain {s : State κ δ} {c : κ} {chain : List Nat} (hpc : s.pc c = .spin chain)
      (hbuf : s.tso.buf c = []) (h : s.tso.mem .locked ≠ 0) :
      Step cpus s (.tau c) (s.xchg c 1 (.spin chain))
  | acquire {s : State κ δ} {c : κ} {chain : List Nat} (hpc : s.pc c = .spin chain)
      (hbuf : s.tso.buf c = []) (h : s.tso.mem .locked = 0) :
      Step cpus s (.acquire c chain) (s.xchg c 1 (.setCpu chain))
  | setCpu {s : State κ δ} {c : κ} {chain : List Nat} (hpc : s.pc c = .setCpu chain) :
      Step cpus s (.tau c) (s.put c .cpu (cpus.thiscpu c) (.setPcs 0 chain))
  | setPcs {s : State κ δ} {c : κ} {i w : Nat} {rest : List Nat}
      (hpc : s.pc c = .setPcs i (w :: rest)) :
      Step cpus s (.tau c) (s.put c (.pcs i) w (.setPcs (i + 1) rest))
  | locked {s : State κ δ} {c : κ} {i : Nat} (hpc : s.pc c = .setPcs i []) :
      Step cpus s (.locked c) (s.goto c .client)
  | callUnlock {s : State κ δ} {c : κ} (hpc : s.pc c = .client) :
      Step cpus s (.callUnlock c) (s.goto c .unlockLocked)
  -- !holding(lk)
  | unlockFree {s : State κ δ} {c : κ} (hpc : s.pc c = .unlockLocked)
      (h : s.tso.view c .locked = 0) : Step cpus s (.unlockPanic c) (s.goto c .panicked)
  | unlockTaken {s : State κ δ} {c : κ} (hpc : s.pc c = .unlockLocked)
      (h : s.tso.view c .locked ≠ 0) : Step cpus s (.tau c) (s.goto c .unlockCpu)
  | unlockOther {s : State κ δ} {c : κ} (hpc : s.pc c = .unlockCpu)
      (h : s.tso.view c .cpu ≠ cpus.thiscpu c) :
      Step cpus s (.unlockPanic c) (s.goto c .panicked)
  | unlockMine {s : State κ δ} {c : κ} (hpc : s.pc c = .unlockCpu)
      (h : s.tso.view c .cpu = cpus.thiscpu c) : Step cpus s (.mayUnlock c) (s.goto c .clearPcs)
  | clearPcs {s : State κ δ} {c : κ} (hpc : s.pc c = .clearPcs) :
      Step cpus s (.tau c) (s.put c (.pcs 0) 0 .clearCpu)
  | clearCpu {s : State κ δ} {c : κ} (hpc : s.pc c = .clearCpu) :
      Step cpus s (.tau c) (s.put c .cpu 0 .release)
  | release {s : State κ δ} {c : κ} (hpc : s.pc c = .release) (hbuf : s.tso.buf c = []) :
      Step cpus s (.release c) (s.xchg c 0 .client)
  | flush {s : State κ δ} {c : κ} {w : Addr δ × Nat} {ws : List (Addr δ × Nat)}
      (hbuf : s.tso.buf c = w :: ws) :
      Step cpus s (.flush c) { s with tso := s.tso.flush c w ws }
  | store {s : State κ δ} {c : κ} (d : δ) (v : Nat) (hpc : s.pc c = .client) :
      Step cpus s (.store c d v) (s.put c (.data d) v .client)
  | load {s : State κ δ} {c : κ} (d : δ) (hpc : s.pc c = .client) :
      Step cpus s (.load c d (s.tso.view c (.data d))) s

/-- The kernel's static `kernel_lock`, before any CPU runs. -/
def initial (mem : δ → Nat) : State κ δ where
  tso.mem
    | .data d => mem d
    | _ => 0
  tso.buf _ := []
  pc _ := .client

end SisOp.Smp
