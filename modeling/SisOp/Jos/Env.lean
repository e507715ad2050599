/-
# `SisOp.Jos.Env` — environments and the kernel state (`kern/env.c`, `kern/sched.c`)

The kernel state is the memory side `Phys`, the table `envs` with its free list,
and one `CpuInfo` per CPU; `curenv` is `cpu_env` of the CPU the code runs on, so
every function that reads it takes the CPU.  The big kernel lock makes a kernel
entry atomic, and so a function of the state.

Three ways out of a function are told apart.  A panic (or the kernel monitor,
which no command leaves) is an error of `Except String`.  `env_run` and
`sched_halt` do not return: their result is the state in which the CPU leaves the
kernel.  What may do either, as `env_destroy`, returns an `Outcome`.

`hist` is a history: `env_alloc`, `env_free`, `env_run` and the message calls
record there what they did.  No function reads it.
-/
import SisOp.Jos.Pmap

namespace SisOp.Jos

/-! ## Data (`inc/trap.h`, `inc/env.h`, `kern/cpu.h`) -/

def NENV : Nat := 1024

/-- A `struct Env *`: an index into `envs`. -/
abbrev Slot := Fin 1024

/-- `ENVX(envid)`. -/
def ENVX (envid : Word) : Slot :=
  ⟨envid.toNat &&& (NENV - 1), Nat.and_lt_two_pow (n := 10) _ (by decide)⟩

structure PushRegs where
  regEdi : Word
  regEsi : Word
  regEbp : Word
  regOesp : Word
  regEbx : Word
  regEdx : Word
  regEcx : Word
  regEax : Word
  deriving DecidableEq, Inhabited

structure Trapframe where
  tfRegs : PushRegs
  tfEs : BitVec 16
  tfDs : BitVec 16
  tfTrapno : Word
  tfErr : Word
  tfEip : Word
  tfCs : BitVec 16
  tfEflags : Word
  tfEsp : Word
  tfSs : BitVec 16
  deriving DecidableEq, Inhabited

/-- The frame `memset(.., 0, ..)` leaves. -/
def Trapframe.zero : Trapframe := ⟨⟨0, 0, 0, 0, 0, 0, 0, 0⟩, 0, 0, 0, 0, 0, 0, 0, 0, 0⟩

/-- `tf->tf_regs.reg_eax = v`. -/
def Trapframe.setEax (tf : Trapframe) (v : Word) : Trapframe :=
  { tf with tfRegs := { tf.tfRegs with regEax := v } }

inductive EnvStatus
  | free | dying | runnable | running | notRunnable
  deriving DecidableEq

inductive EnvType
  | user | fs
  deriving DecidableEq

structure Env where
  envTf : Trapframe
  envLink : Option Slot
  envId : Word
  envParentId : Word
  envType : EnvType
  envStatus : EnvStatus
  envRuns : Word
  envPgdir : Option Ppn
  envPgfaultUpcall : Word
  envIpcRecving : Bool
  envIpcDstva : Word
  envIpcValue : Word
  envIpcFrom : Word
  envIpcPerm : Word

/-- The `struct Env` that `memset(envs, 0, ..)` leaves. -/
def Env.zero : Env := ⟨.zero, none, 0, 0, .user, .free, 0, none, 0, false, 0, 0, 0, 0⟩

inductive CpuStatus
  | unused | started | halted
  deriving DecidableEq

structure CpuInfo where
  cpuStatus : CpuStatus
  cpuEnv : Option Slot
  /-- The CPU's `%cr3`: the page directory its accesses go through. -/
  cr3 : Ppn
  deriving DecidableEq

/-- What the kernel did, as far as the run-level properties speak of it. -/
inductive Event
  /-- `env_alloc` returned this environment. -/
  | alloc (e : Slot)
  /-- `env_free` was executed on `e` by CPU `c`. -/
  | free (c : Nat) (e : Slot)
  /-- `env_run` left the kernel into `e` on CPU `c`. -/
  | run (c : Nat) (e : Slot)
  /-- `e` blocked in `sys_ipc_recv(dstva)`. -/
  | recv (e : Slot) (dstva : Word)
  /-- A `sys_ipc_try_send` of `from` whose target is `to` returned `ret`; `page` tells
  whether it mapped a page. -/
  | sent (sender target : Slot) (value : Word) (page : Bool) (ret : Int)
  /-- `sys_cputs` printed these bytes. -/
  | print (bytes : List Byte)
  deriving DecidableEq

structure Kernel where
  phys : Phys
  envs : Slot → Env
  envFreeList : Option Slot
  cpus : Nat → CpuInfo
  /-- What happened so far, latest first. -/
  hist : List Event

/-- How a function that may leave the kernel ended. -/
inductive Outcome (α : Type)
  /-- It returned to its caller. -/
  | back (r : α) (k : Kernel)
  /-- The CPU left the kernel: into an environment, or halted. -/
  | away (k : Kernel)

namespace Kernel

def setEnv (k : Kernel) (e : Slot) (f : Env → Env) : Kernel :=
  { k with envs := Function.update k.envs e (f (k.envs e)) }

/-- `curenv`, on CPU `c`. -/
def curenv (k : Kernel) (c : Nat) : Option Slot := (k.cpus c).cpuEnv

def setCur (k : Kernel) (c : Nat) (e : Option Slot) : Kernel :=
  { k with cpus := Function.update k.cpus c { k.cpus c with cpuEnv := e } }

def setCpuStatus (k : Kernel) (c : Nat) (s : CpuStatus) : Kernel :=
  { k with cpus := Function.update k.cpus c { k.cpus c with cpuStatus := s } }

/-- `lcr3(PADDR(pgdir))` on CPU `c`. -/
def lcr3 (k : Kernel) (c : Nat) (pgdir : Ppn) : Kernel :=
  { k with cpus := Function.update k.cpus c { k.cpus c with cr3 := pgdir } }

def log (k : Kernel) (ev : Event) : Kernel := { k with hist := ev :: k.hist }

end Kernel

/-! ## Creating and finding environments -/

def GD_UD : BitVec 16 := 0x20
def GD_KT : BitVec 16 := 0x08
def GD_UT : BitVec 16 := 0x18
def FL_IF : Word := 0x200
def FL_IOPL_MASK : Word := 0x3000
def FL_IOPL_3 : Word := 0x3000

/-- `envid2env(envid, &env, checkperm)` with `curenv = cur`. -/
def envid2env (k : Kernel) (cur : Slot) (envid : Word) (checkperm : Bool) : Except Int Slot :=
  if envid = 0 then .ok cur
  else
    let e := ENVX envid
    if (k.envs e).envStatus = .free ∨ (k.envs e).envId ≠ envid then .error (-E_BAD_ENV)
    else if checkperm ∧ e ≠ cur ∧ (k.envs e).envParentId ≠ (k.envs cur).envId then
      .error (-E_BAD_ENV)
    else .ok e

/-- `env_setup_vm(e)`. -/
def envSetupVm (k : Kernel) (e : Slot) : Except String (Int × Kernel) := do
  match ← pageAlloc k.phys true with
  | (none, _) => return (-E_NO_MEM, k)
  | (some p, m) =>
      let kva ← KADDR m p
      let m := m.incref p
      let m := m.fill kva (m.mem m.kernPgdir)
      let m := m.store (kva, PDX UVPT) (page2pa kva ||| PTE_P ||| PTE_U)
      return (0, { k with phys := m }.setEnv e fun E => { E with envPgdir := some kva })

/-- The `env_id` of the next environment in slot `e`: `ENVGENSHIFT` is 12. -/
def nextEnvId (envId : Word) (e : Slot) : Word :=
  let generation : Word := (envId + (1 <<< 12)) &&& ~~~(BitVec.ofNat 32 (NENV - 1))
  let generation : Word := if generation.toInt ≤ 0 then 1 <<< 12 else generation
  generation ||| BitVec.ofNat 32 e.val

/-- The registers `env_alloc` starts an environment with. -/
def initialTf : Trapframe :=
  { Trapframe.zero with
    tfDs := GD_UD ||| 3
    tfEs := GD_UD ||| 3
    tfSs := GD_UD ||| 3
    tfEsp := USTACKTOP
    tfCs := GD_UT ||| 3
    tfEflags := FL_IF }

/-- `env_alloc(&env, parent_id)`. -/
def envAlloc (k : Kernel) (parentId : Word) : Except String (Except Int Slot × Kernel) := do
  match k.envFreeList with
  | none => return (.error (-E_NO_FREE_ENV), k)
  | some e =>
      let (r, k) ← envSetupVm k e
      if r < 0 then return (.error r, k)
      let k := k.setEnv e fun E =>
        { E with
          envId := nextEnvId E.envId e
          envParentId := parentId
          envType := .user
          envStatus := .runnable
          envRuns := 0
          envTf := initialTf
          envPgfaultUpcall := 0
          envIpcRecving := false }
      let k := { k with envFreeList := (k.envs e).envLink }
      return (.ok e, k.log (.alloc e))

/-! ## Freeing -/

/-- The directory indices `env_free` visits: `pdeno` from 0 to `PDX(UTOP) - 1`. -/
def userPdxs : List Idx := (List.finRange 1024).take (PDX UTOP).val

/-- One turn of `env_free`'s outer loop. -/
def envFreePde (m : Phys) (pgdir : Ppn) (pdeno : Idx) : Except String Phys := do
  let pde := m.load (pgdir, pdeno)
  if pde &&& PTE_P = 0 then return m
  let pt ← KADDR m (PGNUM (PTE_ADDR pde))
  let m ← (List.finRange 1024).foldlM (fun m pteno =>
    if m.load (pt, pteno) &&& PTE_P ≠ 0 then pageRemove m pgdir (PGADDR pdeno pteno) else pure m) m
  let m := m.store (pgdir, pdeno) 0
  pageDecref m (← pa2page m (PGNUM (PTE_ADDR pde)))

/-- `env_free(e)` on CPU `c`.  A null `env_pgdir` faults: page 0 is not mapped for the kernel. -/
def envFree (k : Kernel) (c : Nat) (e : Slot) : Except String Kernel := do
  let k := if k.curenv c = some e then k.lcr3 c k.phys.kernPgdir else k
  match (k.envs e).envPgdir with
  | none => .error "Kernel Page Fault"
  | some pgdir =>
      let m ← userPdxs.foldlM (fun m pdeno => envFreePde m pgdir pdeno) k.phys
      let m ← pageDecref m (← pa2page m pgdir)
      let k := { k with phys := m }.setEnv e fun E =>
        { E with envPgdir := none, envStatus := .free, envLink := k.envFreeList }
      return { k with envFreeList := some e }.log (.free c e)

/-! ## Running and scheduling -/

/-- `env_run(e)` on CPU `c`: the state in which the CPU enters user mode. -/
def envRun (k : Kernel) (c : Nat) (e : Slot) : Except String Kernel := do
  let k := match k.curenv c with
    | some cur =>
        if (k.envs cur).envStatus = EnvStatus.running then
          k.setEnv cur fun E => { E with envStatus := .runnable }
        else k
    | none => k
  let k := k.setCur c (some e)
  let k := k.setEnv e fun E => { E with envStatus := .running, envRuns := E.envRuns + 1 }
  match (k.envs e).envPgdir with
  | none => .error "PADDR called with invalid kva 00000000"
  | some pgdir => return (k.lcr3 c pgdir).log (.run c e)

/-- `sched_halt()` on CPU `c`: the state in which the CPU waits for an interrupt. -/
def schedHalt (k : Kernel) (c : Nat) : Except String Kernel :=
  if ∀ i, ¬ ((k.envs i).envStatus = .runnable ∨ (k.envs i).envStatus = .running ∨
      (k.envs i).envStatus = .dying) then
    .error "No runnable environments in the system!"
  else .ok (((k.setCur c none).lcr3 c k.phys.kernPgdir).setCpuStatus c .halted)

/-- The slots in the order the two loops of `sched_yield` visit them, starting at `id`. -/
def schedOrder (id : Nat) : List Slot :=
  (List.finRange 1024).drop id ++ (List.finRange 1024).take id

/-- `sched_yield()` on CPU `c`. -/
def schedYield (k : Kernel) (c : Nat) : Except String Kernel :=
  let idle := k.curenv c
  let id := match idle with
    | some e => (ENVX (k.envs e).envId).val
    | none => 0
  match (schedOrder id).find? fun i => (k.envs i).envStatus = .runnable with
  | some e => envRun k c e
  | none =>
      match idle with
      | some e => if (k.envs e).envStatus = .running then envRun k c e else schedHalt k c
      | none => schedHalt k c

/-- `env_destroy(e)` on CPU `c`. -/
def envDestroy (k : Kernel) (c : Nat) (e : Slot) : Except String (Outcome Unit) := do
  if (k.envs e).envStatus = .running ∧ k.curenv c ≠ some e then
    return .back () (k.setEnv e fun E => { E with envStatus := .dying })
  let k ← envFree k c e
  if k.curenv c = some e then
    return .away (← schedYield (k.setCur c none) c)
  return .back () k

/-- `user_mem_assert(env, va, len, perm)`. -/
def userMemAssert (k : Kernel) (c : Nat) (e : Slot) (va len perm : Word) :
    Except String (Outcome Unit) := do
  match (k.envs e).envPgdir with
  | none => .error "Kernel Page Fault"
  | some pgdir =>
      let (r, _) ← userMemCheck k.phys pgdir va len (perm ||| PTE_U)
      if r < 0 then envDestroy k c e else return .back () k

end SisOp.Jos
