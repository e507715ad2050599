/-
# `SisOp.Jos.Trap` — kernel entries and the machine (`kern/trap.c`)

`trap` is one kernel entry from the trap frame the processor pushed to the
`env_run` or `sched_halt` it ends in.  Under the big kernel lock it is atomic, so
the machine is a transition system on `Kernel`: a step is a CPU entering the
scheduler for the first time, a trap on a CPU (out of an environment, or an
interrupt on a halted CPU), or a byte an environment stores.  The trap frame, the
faulting address and the key are whatever they are: no program is assumed.
-/
import SisOp.Jos.Syscall
import SisOp.Lib.Run

namespace SisOp.Jos

open SisOp.Lib

/-! ## Trap numbers (`inc/trap.h`) -/

def T_BRKPT : Word := 3
def T_PGFLT : Word := 14
def T_SYSCALL : Word := 48
def IRQ_OFFSET : Word := 32
def IRQ_TIMER : Word := 0
def IRQ_KBD : Word := 1
def IRQ_SERIAL : Word := 4
def IRQ_SPURIOUS : Word := 7

/-! ## Page faults -/

/-- The words of the `struct UTrapframe` that the handler pushes, in memory order. -/
def utrapframe (faultVa : Word) (tf : Trapframe) : List Word :=
  [faultVa, tf.tfErr, tf.tfRegs.regEdi, tf.tfRegs.regEsi, tf.tfRegs.regEbp, tf.tfRegs.regOesp,
    tf.tfRegs.regEbx, tf.tfRegs.regEdx, tf.tfRegs.regEcx, tf.tfRegs.regEax, tf.tfEip,
    tf.tfEflags, tf.tfEsp]

/-- `sizeof(struct UTrapframe) + 4`: the frame and a scratch word above it. -/
def UTF_SIZE : Word := 56

/-- Where the handler starts to push: below the stack pointer when it already is on the
exception stack, else at its top. -/
def utfTop (esp : Word) : Word :=
  if esp < UXSTACKTOP ∧ UXSTACKTOP - PGSIZE ≤ esp then esp else UXSTACKTOP

/-- `page_fault_handler(tf)` for a fault of `cur`, whose frame `tf` points to. -/
def pageFaultHandler (k : Kernel) (c : Nat) (cur : Slot) (faultVa : Word) :
    Except String (Outcome Unit) := do
  let tf := (k.envs cur).envTf
  let upcall := (k.envs cur).envPgfaultUpcall
  if upcall ≠ 0 then
    let u := utfTop tf.tfEsp - UTF_SIZE
    match ← userMemAssert k c cur u UTF_SIZE (PTE_U ||| PTE_P ||| PTE_W) with
    | .away k => return .away k
    | .back _ k =>
        match storeBytes k.phys (k.cpus c).cr3 (PTE_P ||| PTE_W) u
            ((utrapframe faultVa tf).flatMap wordBytes) with
        | none => .error "Kernel Page Fault"
        | some m =>
            let k := { k with phys := m }.setEnv cur fun E =>
              { E with envTf := { E.envTf with tfEip := upcall, tfEsp := u } }
            return .away (← envRun k c cur)
  else envDestroy k c cur

/-! ## Dispatch -/

/-- `trap_dispatch(tf)`.  `cur` is `curenv`, which `tf` belongs to when the trap came from
user mode.  The monitor does not return. -/
def trapDispatch (k : Kernel) (c : Nat) (cur : Option Slot) (tf : Trapframe) (cr2 : Word)
    (key : Int) : Except String (Outcome Unit) := do
  if tf.tfTrapno = T_BRKPT then .error "monitor"
  else if tf.tfTrapno = T_PGFLT then
    if tf.tfCs &&& 3 = 0 then .error "Kernel Page Fault"
    else match cur with
      | none => .error "Kernel Page Fault"
      | some cur => pageFaultHandler k c cur cr2
  else if tf.tfTrapno = T_SYSCALL then
    match cur with
    | none => .error "Kernel Page Fault"
    | some cur =>
        match ← syscall k c cur key tf.tfRegs.regEax tf.tfRegs.regEdx tf.tfRegs.regEcx
            tf.tfRegs.regEbx tf.tfRegs.regEdi tf.tfRegs.regEsi with
        | .away k => return .away k
        | .back r k =>
            return .back () (k.setEnv cur fun E => { E with envTf := E.envTf.setEax (retWord r) })
  else if tf.tfTrapno = IRQ_OFFSET + IRQ_TIMER then return .away (← schedYield k c)
  else if tf.tfTrapno = IRQ_OFFSET + IRQ_SPURIOUS then return .back () k
  else if tf.tfTrapno = IRQ_OFFSET + IRQ_KBD ∨ tf.tfTrapno = IRQ_OFFSET + IRQ_SERIAL then
    return .back () k
  else if tf.tfCs = GD_KT then .error "unhandled trap in kernel"
  else match cur with
    | none => .error "Kernel Page Fault"
    | some cur => envDestroy k c cur

/-- The end of `trap`: back into the current environment if it still runs. -/
def trapReturn (k : Kernel) (c : Nat) : Except String Kernel :=
  match k.curenv c with
  | some e => if (k.envs e).envStatus = .running then envRun k c e else schedYield k c
  | none => schedYield k c

/-- What `trap` does once `trap_dispatch` has ended. -/
def Outcome.finish (o : Outcome Unit) (c : Nat) : Except String Kernel :=
  match o with
  | .away k => .ok k
  | .back _ k => trapReturn k c

/-- `trap(tf)` on CPU `c`, the lock being taken. -/
def trap (k : Kernel) (c : Nat) (tf : Trapframe) (cr2 : Word) (key : Int) :
    Except String Kernel := do
  let k := k.setCpuStatus c .started
  if tf.tfCs &&& 3 = 3 then
    match k.curenv c with
    | none => .error "assertion failed: curenv"
    | some cur =>
        if (k.envs cur).envStatus = .dying then
          let k ← envFree k c cur
          schedYield (k.setCur c none) c
        else
          let k := k.setEnv cur fun E => { E with envTf := tf }
          (← trapDispatch k c (some cur) tf cr2 key).finish c
  else
    (← trapDispatch k c (k.curenv c) tf cr2 key).finish c

/-! ## The machine -/

/-- CPU `c` executes environment `e` in user mode. -/
def UserMode (k : Kernel) (c : Nat) (e : Slot) : Prop :=
  k.curenv c = some e ∧ (k.cpus c).cpuStatus = .started

/-- What may happen next. -/
inductive Action
  /-- CPU `c` has been set up and calls `sched_yield` for the first time. -/
  | start (c : Nat)
  /-- A trap on CPU `c`. -/
  | trap (c : Nat) (tf : Trapframe) (cr2 : Word) (key : Int)
  /-- The environment on CPU `c` stores a byte. -/
  | store (c : Nat) (va : Word) (b : Byte)

/-- A trap leaves user mode with the environment's segments; on a halted CPU only the
sixteen interrupt lines raise one. -/
def Enabled (k : Kernel) : Action → Prop
  | .start c => k.curenv c = none ∧ (k.cpus c).cpuStatus ≠ .halted
  | .trap c tf _ _ =>
      (∃ e, UserMode k c e) ∧ tf.tfCs &&& 3 = 3 ∨
      (k.cpus c).cpuStatus = .halted ∧ tf.tfCs = GD_KT ∧
        IRQ_OFFSET ≤ tf.tfTrapno ∧ tf.tfTrapno < IRQ_OFFSET + 16
  | .store c _ _ => ∃ e, UserMode k c e

/-- The state after an action, unless the kernel panics. -/
def exec (k : Kernel) : Action → Except String Kernel
  | .start c => schedYield ((k.setCpuStatus c .started).lcr3 c k.phys.kernPgdir) c
  | .trap c tf cr2 key => trap k c tf cr2 key
  | .store c va b =>
      match storeByte k.phys (k.cpus c).cr3 va (PTE_P ||| PTE_W ||| PTE_U) b with
      | none => .error "page fault"
      | some m => .ok { k with phys := m }

/-- One step of the machine. -/
def Step (k : Kernel) (a : Action) (k' : Kernel) : Prop := Enabled k a ∧ exec k a = .ok k'

end SisOp.Jos
