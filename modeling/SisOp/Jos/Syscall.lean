/-
# `SisOp.Jos.Syscall` — the system calls (`kern/syscall.c`)

Each handler takes the kernel state, the CPU `c` where it looks at `curenv`, and
`cur`, the environment `curenv` points to: no handler changes `curenv` before it
leaves the kernel.  A handler that always returns gives the pair of its result
and the new state; `sys_cputs`, `sys_env_destroy`, `sys_yield`, `sys_ipc_recv`
and `sys_env_set_trapframe` may leave the kernel and give an `Outcome`.
-/
import SisOp.Jos.Env

namespace SisOp.Jos

/-! ## Console -/

/-- The `%.*s` loop of `vprintfmt`: bytes up to a NUL or until `precision` is used up, a
negative precision being no limit.  The byte is read before the precision is tested.
`none` is a page fault. -/
def printStr (m : Phys) (pgdir : Ppn) : Nat → Word → Int → Option (List Byte)
  | 0, _, _ => some []
  | fuel + 1, p, precision =>
      (loadByte m pgdir p PTE_P).bind fun ch =>
        if ch = 0 then some []
        else if precision < 0 then (printStr m pgdir fuel (p + 1) precision).map (ch :: ·)
        else if 0 ≤ precision - 1 then (printStr m pgdir fuel (p + 1) (precision - 1)).map (ch :: ·)
        else some []

/-- What `%.*s` prints for a null pointer: as much of `(null)` as the precision allows. -/
def printNull (precision : Int) : List Byte :=
  let bytes : List Byte := [0x28, 0x6E, 0x75, 0x6C, 0x6C, 0x29]
  if precision < 0 then bytes else bytes.take precision.toNat

/-- `sys_cputs(s, len)`. -/
def sysCputs (k : Kernel) (c : Nat) (cur : Slot) (s len : Word) : Except String (Outcome Int) := do
  match ← userMemAssert k c cur s len (PTE_P ||| PTE_U) with
  | .away k => return .away k
  | .back _ k =>
      let bytes := if s = 0 then some (printNull len.toInt) else
        printStr k.phys (k.cpus c).cr3 (2 ^ 32) s len.toInt
      match bytes with
      | none => .error "Kernel Page Fault"
      | some bytes => return .back 0 (k.log (.print bytes))

/-! ## Environments -/

/-- `sys_env_destroy(envid)`. -/
def sysEnvDestroy (k : Kernel) (c : Nat) (cur : Slot) (envid : Word) :
    Except String (Outcome Int) := do
  match envid2env k cur envid true with
  | .error r => return .back r k
  | .ok e =>
      match ← envDestroy k c e with
      | .away k => return .away k
      | .back _ k => return .back 0 k

/-- `sys_exofork()`. -/
def sysExofork (k : Kernel) (cur : Slot) : Except String (Int × Kernel) := do
  match ← envAlloc k (k.envs cur).envId with
  | (.error r, k) => return (r, k)
  | (.ok e, k) =>
      let k := k.setEnv e fun E =>
        { E with envStatus := .notRunnable, envTf := (k.envs cur).envTf.setEax 0 }
      return ((k.envs e).envId.toInt, k)

/-- The two statuses `sys_env_set_status` accepts: `ENV_RUNNABLE` is 2, `ENV_NOT_RUNNABLE` 4. -/
def statusArg (status : Word) : Option EnvStatus :=
  if status = 2 then some .runnable else if status = 4 then some .notRunnable else none

/-- `sys_env_set_status(envid, status)`. -/
def sysEnvSetStatus (k : Kernel) (cur : Slot) (envid status : Word) : Int × Kernel :=
  match statusArg status with
  | none => (-E_INVAL, k)
  | some st =>
      match envid2env k cur envid true with
      | .error r => (r, k)
      | .ok e => (0, k.setEnv e fun E => { E with envStatus := st })

/-- `*tf` as read through `pgdir`: the 68 bytes of a `struct Trapframe`. -/
def loadTrapframe (m : Phys) (pgdir : Ppn) (va : Word) : Option Trapframe :=
  (loadBytes m pgdir PTE_P va 68).map fun bs =>
    let w (i : Nat) : Word := bytesWord ((bs.drop i).take 4)
    { tfRegs := ⟨w 0, w 4, w 8, w 12, w 16, w 20, w 24, w 28⟩
      tfEs := (w 32).setWidth 16
      tfDs := (w 36).setWidth 16
      tfTrapno := w 40
      tfErr := w 44
      tfEip := w 48
      tfCs := (w 52).setWidth 16
      tfEflags := w 56
      tfEsp := w 60
      tfSs := (w 64).setWidth 16 }

/-- `sys_env_set_trapframe(envid, tf)`.  The check is made on the directory of the target,
the frame is read through the one that is loaded. -/
def sysEnvSetTrapframe (k : Kernel) (c : Nat) (cur : Slot) (envid tf : Word) :
    Except String (Outcome Int) := do
  match envid2env k cur envid true with
  | .error _ => return .back (-E_BAD_ENV) k
  | .ok e =>
      match ← userMemAssert k c e tf 68 PTE_W with
      | .away k => return .away k
      | .back _ k =>
          match loadTrapframe k.phys (k.cpus c).cr3 tf with
          | none => .error "Kernel Page Fault"
          | some frame =>
              return .back 0 (k.setEnv e fun E =>
                { E with envTf :=
                    { frame with
                      tfCs := frame.tfCs ||| 3
                      tfEflags := (frame.tfEflags ||| FL_IF) &&& ~~~FL_IOPL_MASK } })

/-- `sys_env_set_pgfault_upcall(envid, func)`. -/
def sysEnvSetPgfaultUpcall (k : Kernel) (cur : Slot) (envid func : Word) : Int × Kernel :=
  match envid2env k cur envid false with
  | .error r => (r, k)
  | .ok e => (0, k.setEnv e fun E => { E with envPgfaultUpcall := func })

/-! ## Memory -/

/-- The test `(size_t) va >= UTOP || (size_t) va % PGSIZE`, negated. -/
def VaOk (va : Word) : Prop := ¬ (UTOP ≤ va ∨ va % PGSIZE ≠ 0)

instance : DecidablePred VaOk := fun va =>
  inferInstanceAs (Decidable (¬ (UTOP ≤ va ∨ va % PGSIZE ≠ 0)))

/-- `sys_page_alloc(envid, va, perm)`. -/
def sysPageAlloc (k : Kernel) (cur : Slot) (envid va perm : Word) :
    Except String (Int × Kernel) := do
  if ¬ PermOk perm then return (-E_INVAL, k)
  if ¬ VaOk va then return (-E_INVAL, k)
  match envid2env k cur envid false with
  | .error r => return (r, k)
  | .ok e =>
      match ← pageAlloc k.phys true with
      | (none, _) => return (-E_NO_MEM, k)
      | (some page, m) =>
          match (k.envs e).envPgdir with
          | none => .error "Kernel Page Fault"
          | some pgdir =>
              let (r, m) ← pageInsert m pgdir page va perm
              let m ← if r < 0 then pageFree m page else pure m
              return (r, { k with phys := m })

/-- `sys_page_map(srcenvid, srcva, dstenvid, dstva, perm)`. -/
def sysPageMap (k : Kernel) (cur : Slot) (srcenvid srcva dstenvid dstva perm : Word) :
    Except String (Int × Kernel) := do
  if ¬ PermOk perm then return (-E_INVAL, k)
  if ¬ (VaOk srcva ∧ VaOk dstva) then return (-E_INVAL, k)
  match envid2env k cur srcenvid false with
  | .error r => return (r, k)
  | .ok srcenv =>
      match (k.envs srcenv).envPgdir with
      | none => .error "Kernel Page Fault"
      | some srcdir =>
          match ← pageLookup k.phys srcdir srcva with
          | none => return (-E_INVAL, k)
          | some (page, pte) =>
              if ¬ Writable (k.phys.load pte) ∧ Writable perm then return (-E_INVAL, k)
              match envid2env k cur dstenvid false with
              | .error r => return (r, k)
              | .ok dstenv =>
                  match (k.envs dstenv).envPgdir with
                  | none => .error "Kernel Page Fault"
                  | some dstdir =>
                      let (r, m) ← pageInsert k.phys dstdir page dstva (perm ||| PTE_P ||| PTE_U)
                      let m ← if r < 0 then pageFree m page else pure m
                      return (r, { k with phys := m })

/-- `sys_page_unmap(envid, va)`. -/
def sysPageUnmap (k : Kernel) (cur : Slot) (envid va : Word) : Except String (Int × Kernel) := do
  if ¬ VaOk va then return (-E_INVAL, k)
  match envid2env k cur envid false with
  | .error r => return (r, k)
  | .ok e =>
      match (k.envs e).envPgdir with
      | none => .error "Kernel Page Fault"
      | some pgdir => return (0, { k with phys := ← pageRemove k.phys pgdir va })

/-! ## Messages -/

/-- `sys_ipc_try_send(envid, value, srcva, perm)`. -/
def sysIpcTrySend (k : Kernel) (cur : Slot) (envid value srcva perm : Word) :
    Except String (Int × Kernel) := do
  match envid2env k cur envid false with
  | .error _ => return (-E_BAD_ENV, k)
  | .ok e =>
      if ¬ (k.envs e).envIpcRecving then
        return (-E_IPC_NOT_RECV, k.log (.sent cur e value false (-E_IPC_NOT_RECV)))
      let k := k.setEnv e fun E => { E with envIpcPerm := 0 }
      let page := decide (srcva < UTOP ∧ (k.envs e).envIpcDstva < UTOP)
      let (r, k) ← if page then sysPageMap k cur 0 srcva envid (k.envs e).envIpcDstva perm
        else pure (0, k)
      if r ≠ 0 then return (r, k.log (.sent cur e value false r))
      let k := if page then k.setEnv e fun E => { E with envIpcPerm := perm } else k
      let k := k.setEnv e fun E =>
        { E with
          envIpcRecving := false
          envIpcFrom := (k.envs cur).envId
          envIpcValue := value
          envTf := E.envTf.setEax 0
          envStatus := .runnable }
      return (0, k.log (.sent cur e value page 0))

/-- `sys_ipc_recv(dstva)`.  A `dstva` at or above `UTOP` leaves `env_ipc_dstva` as it was. -/
def sysIpcRecv (k : Kernel) (c : Nat) (cur : Slot) (dstva : Word) :
    Except String (Outcome Int) := do
  if dstva < UTOP ∧ dstva % PGSIZE ≠ 0 then return .back (-E_INVAL) k
  let k := if dstva < UTOP then k.setEnv cur fun E => { E with envIpcDstva := dstva } else k
  let k := k.setEnv cur fun E => { E with envIpcRecving := true, envStatus := .notRunnable }
  return .away (← schedYield (k.log (.recv cur dstva)) c)

/-! ## Dispatch -/

/-- The numbers of `inc/syscall.h`. -/
inductive Sysno
  | cputs | cgetc | getenvid | envDestroy | pageAlloc | pageMap | pageUnmap | exofork
  | envSetStatus | envSetTrapframe | envSetPgfaultUpcall | yield | ipcTrySend | ipcRecv
  deriving DecidableEq

def Sysno.all : List Sysno :=
  [.cputs, .cgetc, .getenvid, .envDestroy, .pageAlloc, .pageMap, .pageUnmap, .exofork,
    .envSetStatus, .envSetTrapframe, .envSetPgfaultUpcall, .yield, .ipcTrySend, .ipcRecv]

def Sysno.ofWord (no : Word) : Option Sysno := Sysno.all[no.toNat]?

/-- An `int` result as the register that returns it. -/
def retWord (r : Int) : Word := BitVec.ofInt 32 r

/-- The outcome of a handler that always returns. -/
def returned (p : Int × Kernel) : Outcome Int := .back p.1 p.2

/-- `syscall(syscallno, a1, .., a5)` made by `cur` on CPU `c`; `key` is what `cons_getc`
would return. -/
def syscall (k : Kernel) (c : Nat) (cur : Slot) (key : Int) (syscallno a1 a2 a3 a4 a5 : Word) :
    Except String (Outcome Int) :=
  match Sysno.ofWord syscallno with
  | some .cputs => sysCputs k c cur a1 a2
  | some .cgetc => .ok (.back key k)
  | some .getenvid => .ok (.back (k.envs cur).envId.toInt k)
  | some .envDestroy => sysEnvDestroy k c cur a1
  | some .yield => do return .away (← schedYield k c)
  | some .exofork => do return returned (← sysExofork k cur)
  | some .envSetStatus => .ok (returned (sysEnvSetStatus k cur a1 a2))
  | some .pageAlloc => do return returned (← sysPageAlloc k cur a1 a2 a3)
  | some .pageMap => do return returned (← sysPageMap k cur a1 a2 a3 a4 a5)
  | some .pageUnmap => do return returned (← sysPageUnmap k cur a1 a2)
  | some .ipcTrySend => do return returned (← sysIpcTrySend k cur a1 a2 a3 a4)
  | some .ipcRecv => sysIpcRecv k c cur a1
  | some .envSetPgfaultUpcall => .ok (returned (sysEnvSetPgfaultUpcall k cur a1 a2))
  | some .envSetTrapframe => sysEnvSetTrapframe k c cur a1 a2
  | none => .ok (.back (-E_INVAL) k)

end SisOp.Jos
