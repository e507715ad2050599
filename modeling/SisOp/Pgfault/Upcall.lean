/-
# `SisOp.Pgfault.Upcall` — user page faults (`lib/pfentry.S`, `kern/trap.c`)

An environment as its own processor sees it: registers and memory by virtual address.
`pageFault` is what `page_fault_handler` leaves when it starts the upcall; `exec` are
the instructions of `_pgfault_upcall`, at the addresses the assembler gives them.

A configuration also holds the faults that have not been returned from, latest first,
each with the registers at the fault and how far its upcall is.  A page fault may
happen at any time.  The C handler does what it likes, except that it is compiled C:
it runs on the exception stack below what was there when it was called, leaves what
the unfinished upcalls still need, and ends by returning to its caller.
-/
import SisOp.Jos.Trap
import SisOp.Lib.Span

namespace SisOp.Pgfault

open SisOp.Jos SisOp.Lib

/-! ## Registers and memory -/

/-- The general registers other than `%esp`. -/
structure Gpr where
  edi : Word
  esi : Word
  ebp : Word
  ebx : Word
  edx : Word
  ecx : Word
  eax : Word
  deriving DecidableEq

structure Regs where
  gpr : Gpr
  eip : Word
  eflags : Word
  esp : Word
  deriving DecidableEq

structure Cpu where
  regs : Regs
  mem : Word → Byte

def load (mem : Word → Byte) (a : Word) : Word :=
  bytesWord [mem a, mem (a + 1), mem (a + 2), mem (a + 3)]

def store (mem : Word → Byte) (a w : Word) : Word → Byte := writeAt mem a (wordBytes w)

/-- The flags that `popfl` changes in user mode, where `IF`, `IOPL` and the virtual-8086 flags
stay as they are. -/
def popfMask : Word := 0x244DD5

/-- The flags that `addl` and `subl` compute: `CF`, `PF`, `AF`, `ZF`, `SF` and `OF`. -/
def arithMask : Word := 0x8D5

/-! ## The kernel's part -/

/-- The frame of a trap in user mode, as far as `page_fault_handler` copies it.  `err` and the
old `%esp` that `pushal` leaves are whatever they are. -/
def Regs.trapframe (r : Regs) (err oesp : Word) : Trapframe :=
  { Trapframe.zero with
    tfRegs := ⟨r.gpr.edi, r.gpr.esi, r.gpr.ebp, oesp, r.gpr.ebx, r.gpr.edx, r.gpr.ecx, r.gpr.eax⟩
    tfErr := err
    tfEip := r.eip
    tfEflags := r.eflags
    tfEsp := r.esp }

/-- Where the frame of a fault goes. -/
def utf (esp : Word) : Word := utfTop esp - UTF_SIZE

/-- The environment after `page_fault_handler`, `upcall` being its `env_pgfault_upcall`. -/
def pageFault (upcall faultVa err oesp : Word) (c : Cpu) : Cpu where
  regs := { c.regs with eip := upcall, esp := utf c.regs.esp }
  mem := writeAt c.mem (utf c.regs.esp)
    ((utrapframe faultVa (c.regs.trapframe err oesp)).flatMap wordBytes)

/-- The bytes a user store can change: nothing is mapped for writing from `UTOP` on, and the page
below the exception stack is not mapped. -/
def MayWrite (x : Word) : Prop :=
  x < UXSTACKTOP ∧ ¬ (UXSTACKTOP - 2 * PGSIZE ≤ x ∧ x < UXSTACKTOP - PGSIZE)

/-! ## `_pgfault_upcall` -/

inductive Instr
  /-- `pushl %esp` -/
  | pushEsp
  /-- `movl _pgfault_handler, %eax` -/
  | movHandler
  /-- `call *%eax` -/
  | callEax
  /-- `addl $4, %esp` -/
  | popArg
  /-- `movl 48(%esp), %eax` -/
  | movUtfEsp
  /-- `movl 40(%esp), %ebx` -/
  | movUtfEip
  /-- `subl $4, %eax` -/
  | subEax
  /-- `movl %ebx, (%eax)` -/
  | pushEip
  /-- `movl %eax, 48(%esp)` -/
  | movEsp
  /-- `addl $8, %esp` -/
  | addEsp8
  /-- `popal` -/
  | popal
  /-- `addl $4, %esp` -/
  | addEsp4
  /-- `popfl` -/
  | popfl
  /-- `pop %esp` -/
  | popEsp
  /-- `ret` -/
  | ret
  deriving DecidableEq

/-- Where the instruction lies in `_pgfault_upcall`. -/
def Instr.off : Instr → Word
  | .pushEsp => 0
  | .movHandler => 1
  | .callEax => 6
  | .popArg => 8
  | .movUtfEsp => 11
  | .movUtfEip => 15
  | .subEax => 19
  | .pushEip => 22
  | .movEsp => 24
  | .addEsp8 => 28
  | .popal => 31
  | .addEsp4 => 32
  | .popfl => 35
  | .popEsp => 36
  | .ret => 37

/-- The word an instruction stores. -/
def Instr.target (r : Regs) : Instr → Option Word
  | .pushEsp | .callEax => some (r.esp - 4)
  | .pushEip => some r.gpr.eax
  | .movEsp => some (r.esp + 48)
  | _ => none

/-- `addl` and `subl` leave the flags `f`. -/
def Regs.arith (r : Regs) (f : Word) : Regs :=
  { r with eflags := r.eflags &&& ~~~arithMask ||| f &&& arithMask }

/-- One instruction; `handlerVar` is the address of `_pgfault_handler`, `f` are the flags an
arithmetic instruction computes. -/
def exec (upcall handlerVar f : Word) (i : Instr) (c : Cpu) : Cpu :=
  let r := c.regs
  let goto (i : Instr) (r : Regs) : Regs := { r with eip := upcall + i.off }
  match i with
  | .pushEsp => ⟨goto .movHandler { r with esp := r.esp - 4 }, store c.mem (r.esp - 4) r.esp⟩
  | .movHandler => { c with regs := goto .callEax { r with gpr.eax := load c.mem handlerVar } }
  | .callEax =>
      ⟨{ r with esp := r.esp - 4, eip := r.gpr.eax },
        store c.mem (r.esp - 4) (upcall + Instr.popArg.off)⟩
  | .popArg => { c with regs := goto .movUtfEsp { r.arith f with esp := r.esp + 4 } }
  | .movUtfEsp => { c with regs := goto .movUtfEip { r with gpr.eax := load c.mem (r.esp + 48) } }
  | .movUtfEip => { c with regs := goto .subEax { r with gpr.ebx := load c.mem (r.esp + 40) } }
  | .subEax => { c with regs := goto .pushEip { r.arith f with gpr.eax := r.gpr.eax - 4 } }
  | .pushEip => ⟨goto .movEsp r, store c.mem r.gpr.eax r.gpr.ebx⟩
  | .movEsp => ⟨goto .addEsp8 r, store c.mem (r.esp + 48) r.gpr.eax⟩
  | .addEsp8 => { c with regs := goto .popal { r.arith f with esp := r.esp + 8 } }
  | .popal =>
      { c with regs := goto .addEsp4 { r with
          gpr := ⟨load c.mem r.esp, load c.mem (r.esp + 4), load c.mem (r.esp + 8),
            load c.mem (r.esp + 16), load c.mem (r.esp + 20), load c.mem (r.esp + 24),
            load c.mem (r.esp + 28)⟩
          esp := r.esp + 32 } }
  | .addEsp4 => { c with regs := goto .popfl { r.arith f with esp := r.esp + 4 } }
  | .popfl =>
      { c with regs := goto .popEsp { r with
          eflags := load c.mem r.esp &&& popfMask ||| r.eflags &&& ~~~popfMask
          esp := r.esp + 4 } }
  | .popEsp => { c with regs := goto .ret { r with esp := load c.mem r.esp } }
  | .ret => { c with regs := { r with eip := load c.mem r.esp, esp := r.esp + 4 } }

/-! ## Runs -/

/-- How far the upcall of a fault is: at an instruction, or in the C handler. -/
inductive Pc
  | upcall (i : Instr)
  | handler
  deriving DecidableEq

/-- A fault that has not been returned from. -/
structure Active where
  /-- The registers at the fault. -/
  trap : Regs
  pc : Pc
  deriving DecidableEq

namespace Active

/-- The address of its frame. -/
def utf (A : Active) : Word := Pgfault.utf A.trap.esp

/-- How much of the frame has been popped before the instruction. -/
def popped : Instr → Nat
  | .popal => 8
  | .addEsp4 => 40
  | .popfl => 44
  | .popEsp => 48
  | .ret => 52
  | _ => 0

/-- The trap-time `%eip` has been pushed on the trap-time stack. -/
def Pushed : Instr → Prop
  | .movEsp | .addEsp8 | .popal | .addEsp4 | .popfl | .popEsp | .ret => True
  | _ => False

/-- The bytes the upcall has still to read. -/
def Needs (A : Active) (x : Word) : Prop :=
  match A.pc with
  | .handler => InSpan (A.utf - 8) 4 x ∨ InSpan A.utf 52 x
  | .upcall i => InSpan (A.utf + BitVec.ofNat 32 (popped i)) (52 - popped i) x ∨
      Pushed i ∧ InSpan (A.trap.esp - 4) 4 x

end Active

/-- The bytes that some unfinished upcall has still to read. -/
def Needed (st : List Active) (x : Word) : Prop := ∃ A ∈ st, A.Needs x

/-- What happens in a step. -/
inductive Event
  /-- The program runs, outside any upcall. -/
  | user
  | fault (faultVa err oesp : Word)
  | exec (f : Word)
  /-- The C handler runs. -/
  | handler
  /-- The C handler returns. -/
  | ret
  deriving DecidableEq

/-- Where the upcall goes on after an instruction. -/
def Instr.next (t : Regs) (st : List Active) : Instr → List Active
  | .pushEsp => ⟨t, .upcall .movHandler⟩ :: st
  | .movHandler => ⟨t, .upcall .callEax⟩ :: st
  | .callEax => ⟨t, .handler⟩ :: st
  | .popArg => ⟨t, .upcall .movUtfEsp⟩ :: st
  | .movUtfEsp => ⟨t, .upcall .movUtfEip⟩ :: st
  | .movUtfEip => ⟨t, .upcall .subEax⟩ :: st
  | .subEax => ⟨t, .upcall .pushEip⟩ :: st
  | .pushEip => ⟨t, .upcall .movEsp⟩ :: st
  | .movEsp => ⟨t, .upcall .addEsp8⟩ :: st
  | .addEsp8 => ⟨t, .upcall .popal⟩ :: st
  | .popal => ⟨t, .upcall .addEsp4⟩ :: st
  | .addEsp4 => ⟨t, .upcall .popfl⟩ :: st
  | .popfl => ⟨t, .upcall .popEsp⟩ :: st
  | .popEsp => ⟨t, .upcall .ret⟩ :: st
  | .ret => st

/-- A step of the environment. -/
inductive Step (upcall handlerVar : Word) : Cpu × List Active → Event → Cpu × List Active → Prop
  | user (c c' : Cpu) : Step upcall handlerVar (c, []) .user (c', [])
  /-- A page fault that passes `user_mem_assert`. -/
  | fault {c : Cpu} {st : List Active} {faultVa err oesp : Word}
      (hassert : ∀ x, InSpan (utf c.regs.esp) 56 x → MayWrite x) :
      Step upcall handlerVar (c, st) (.fault faultVa err oesp)
        (pageFault upcall faultVa err oesp c, ⟨c.regs, .upcall .pushEsp⟩ :: st)
  /-- An instruction of the upcall, at its address; what it stores can be written. -/
  | exec {c : Cpu} {t : Regs} {st : List Active} {i : Instr} {f : Word}
      (heip : c.regs.eip = upcall + i.off)
      (hstore : ∀ a, i.target c.regs = some a → ∀ x, InSpan a 4 x → MayWrite x) :
      Step upcall handlerVar (c, ⟨t, .upcall i⟩ :: st) (.exec f)
        (exec upcall handlerVar f i c, i.next t st)
  | handler {c c' : Cpu} {t : Regs} {st : List Active}
      (hmem : ∀ x, Needed (⟨t, .handler⟩ :: st) x → c'.mem x = c.mem x)
      (hflags : c'.regs.eflags &&& ~~~popfMask = c.regs.eflags &&& ~~~popfMask)
      (hesp : (UXSTACKTOP - PGSIZE).toNat ≤ c'.regs.esp.toNat ∧
        c'.regs.esp.toNat ≤ (utf t.esp - 8).toNat) :
      Step upcall handlerVar (c, ⟨t, .handler⟩ :: st) .handler (c', ⟨t, .handler⟩ :: st)
  /-- The `ret` of the C handler, at the stack pointer it was called with. -/
  | ret {c : Cpu} {t : Regs} {st : List Active} (hesp : c.regs.esp = utf t.esp - 8) :
      Step upcall handlerVar (c, ⟨t, .handler⟩ :: st) .ret
        ({ c with regs := { c.regs with eip := load c.mem c.regs.esp, esp := c.regs.esp + 4 } },
          ⟨t, .upcall .popArg⟩ :: st)

end SisOp.Pgfault
