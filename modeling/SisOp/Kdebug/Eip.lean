/-
# `SisOp.Kdebug.Eip` — where the debugger's information is read

`debuginfo_eip` (`kern/kdebug.c`) reads the tables of a program at the addresses that the
program put at `USTABDATA`.  A computation leaves the events of its run: the calls of
`user_mem_check` that returned 0 and the bytes it has read, in order.  What it reads is
mapped memory, `mem`; a byte that is not mapped stops the kernel with a page fault, and
the run goes on here with a 0 in its place.

Of the pointers that C subtracts only those a whole number of entries apart have a
difference; `undef` is what the machine computes of the others.
-/
import SisOp.Kdebug.Brackets
import SisOp.Memory.UserMem

namespace SisOp.Kdebug

open SisOp.Jos

/-! ## Events -/

/-- A call `user_mem_check(curenv, va, len, 0)` that has returned 0, or a byte read. -/
inductive Event
  | checked (va len : Word)
  | read (a : Word)
  deriving DecidableEq

/-- A computation and the events of its run. -/
structure Traced (α : Type) where
  out : Except String α
  events : List Event

namespace Traced

variable {α β : Type}

def pure (a : α) : Traced α := ⟨.ok a, []⟩

def bind (x : Traced α) (f : α → Traced β) : Traced β :=
  match x.out with
  | .error e => ⟨.error e, x.events⟩
  | .ok a => ⟨(f a).out, x.events ++ (f a).events⟩

instance : Monad Traced where
  pure := Traced.pure
  bind := Traced.bind

end Traced

/-! ## `struct UserStabData` and `struct Stab` -/

def USTABDATA : Word := 0x200000

def N_FUN : Byte := 0x24
def N_SO : Byte := 0x64
def N_SOL : Byte := 0x84
def N_PSYM : Byte := 0xA0

/-- `struct UserStabData`. -/
structure UserStabData where
  stabs : Word
  stabEnd : Word
  stabstr : Word
  stabstrEnd : Word

/-- `struct Eipdebuginfo`; `none` is the string `"<unknown>"`. -/
structure Eipdebuginfo where
  eipFile : Option Word
  eipLine : BitVec 16
  eipFnName : Option Word
  eipFnNamelen : Word
  eipFnAddr : Word
  eipFnNarg : Nat

/-- `stab_end - stabs`. -/
def stabCount (undef : Word → Word → Word) (stabEnd stabs : Word) : Int :=
  if (stabEnd - stabs).toInt % 12 = 0 then (stabEnd - stabs).toInt / 12 else (undef stabEnd stabs).toInt

/-- The bytes at `a`, `a + 1`, ... -/
def bytesFrom (a : Word) (n : Nat) : List Word := (List.range n).map fun k => a + BitVec.ofNat 32 k

section Reads

variable (mem : Word → Byte)

def wordAt (a : Word) : Word := bytesWord ((bytesFrom a 4).map mem)

/-- `&stabs[i]`. -/
def stabAddr (stabs : Word) (i : Int) : Word := stabs + BitVec.ofInt 32 (12 * i)

/-- `stabs[i]`. -/
def stabAt (stabs : Word) (i : Int) : Stab where
  nStrx := wordAt mem (stabAddr stabs i)
  nType := mem (stabAddr stabs i + 4)
  nDesc := mem (stabAddr stabs i + 7) ++ mem (stabAddr stabs i + 6)
  nValue := wordAt mem (stabAddr stabs i + 8)

/-- A computed value, and the bytes read for it. -/
def reading {α : Type} (a : α) (bytes : List Word) : Traced α := ⟨.ok a, bytes.map .read⟩

def readByte (a : Word) : Traced Byte := reading (mem a) [a]

def readWord (a : Word) : Traced Word := reading (wordAt mem a) (bytesFrom a 4)

/-- The bytes of `n_type` of the entries. -/
def typeBytes (stabs : Word) (is : List Int) : List Word := is.map fun i => stabAddr stabs i + 4

/-- The bytes of `n_value` of the entries. -/
def valueBytes (stabs : Word) (is : List Int) : List Word :=
  is.flatMap fun i => bytesFrom (stabAddr stabs i + 8) 4

/-- What `stab_binsearch` reads when its loop ends with `s`: an entry of the type is compared with
the address, and the last loop looks at types only. -/
def searchBytes (stabs : Word) (type : Byte) (s : Search) : List Word :=
  typeBytes stabs s.seen ++
    valueBytes stabs (s.seen.filter fun i => (stabAt mem stabs i).nType = type) ++
      if s.anyMatches then
        typeBytes stabs (scanned (stabAt mem stabs) type (s.right - s.left).toNat s.right)
      else []

/-- `stab_binsearch(stabs, &left, &right, type, addr)`. -/
def binsearch (stabs : Word) (left right : Int) (type : Byte) (addr : Word) : Traced (Int × Int) :=
  match searchLoop (stabAt mem stabs) type (2 * (right - left + 1).toNat + 1)
      ⟨left, right, left, right, addr, false, []⟩ with
  | .error e => ⟨.error e, []⟩
  | .ok s =>
      ⟨(stabBinsearch (stabAt mem stabs) type left right addr).map fun r => (r.1, r.2.1),
        (searchBytes mem stabs type s).map .read⟩

/-- `strfind(s, c)`, in front of an end that is `n` bytes away. -/
def strfind (c : Byte) : Nat → Word → Traced Word
  | 0, s => return s
  | n + 1, s => do
      let b ← readByte mem s
      if b = 0 ∨ b = c then return s
      strfind c n (s + 1)

/-- The loop back to the name of a file. -/
def scanFile (stabs : Word) : Nat → Int → Traced Int
  | 0, lline => return lline
  | n + 1, lline => do
      let ty ← readByte mem (stabAddr stabs lline + 4)
      if ty = N_SOL then return lline
      if ty = N_SO then
        let value ← readWord mem (stabAddr stabs lline + 8)
        if value ≠ 0 then return lline
      scanFile stabs n (lline - 1)

/-- The loop that counts the arguments. -/
def countArgs (stabs : Word) : Nat → Int → Traced Nat
  | 0, _ => return 0
  | n + 1, lline => do
      let ty ← readByte mem (stabAddr stabs lline + 4)
      if ty ≠ N_PSYM then return 0
      let rest ← countArgs stabs n (lline + 1)
      return rest + 1

/-! ## `debuginfo_eip` -/

/-- The string of an entry, when its index is inside the table. -/
def stringAt (t : UserStabData) (i : Int) : Traced (Option Word) := do
  let strx ← readWord mem (stabAddr t.stabs i)
  if strx < t.stabstrEnd - t.stabstr then return some (t.stabstr + strx) else return none

/-- `strfind(info->eip_fn_name, ':') - info->eip_fn_name`. -/
def nameLength (t : UserStabData) : Option Word → Traced Word
  | none => return 9
  | some name => do
      let stop ← strfind mem 0x3A (t.stabstrEnd - name).toNat name
      return stop - name

/-- The searches: the file, the function, the line, the name of the file and the arguments. -/
def eipSearch (t : UserStabData) (n : Int) (addr : Word) (info : Eipdebuginfo) :
    Traced (Int × Eipdebuginfo) := do
  let (lfile, rfile) ← binsearch mem t.stabs 0 (n - 1) N_SO addr
  if lfile = 0 then return (-1, info)
  let (lfun, rfun) ← binsearch mem t.stabs lfile rfile N_FUN addr
  let (info, addr, lline, rline) ←
    if lfun ≤ rfun then do
      let name ← stringAt mem t lfun
      let value ← readWord mem (stabAddr t.stabs lfun + 8)
      Traced.pure ({ info with eipFnName := name, eipFnAddr := value }, addr - value, lfun, rfun)
    else Traced.pure ({ info with eipFnAddr := addr }, addr, lfile, rfile)
  let namelen ← nameLength mem t info.eipFnName
  let info := { info with eipFnNamelen := namelen }
  let (lline, rline) ← binsearch mem t.stabs lline rline N_SLINE addr
  let info ←
    if lline ≤ rline then
      reading { info with eipLine := (stabAt mem t.stabs lline).nDesc }
        (bytesFrom (stabAddr t.stabs lline + 6) 2)
    else Traced.pure info
  let lline ← scanFile mem t.stabs (lline - lfile + 1).toNat lline
  let file ← if lfile ≤ lline then stringAt mem t lline else Traced.pure none
  let narg ← if lfun < rfun then countArgs mem t.stabs (rfun - lfun - 1).toNat (lfun + 1) else Traced.pure 0
  return (0, { info with eipFile := file, eipFnNarg := narg })

/-- The string table is not empty, and its last byte is 0; then the searches. -/
def eipTables (undef : Word → Word → Word) (t : UserStabData) (addr : Word) (info : Eipdebuginfo) :
    Traced (Int × Eipdebuginfo) := do
  if t.stabstrEnd ≤ t.stabstr then return (-1, info)
  let last ← readByte mem (t.stabstrEnd - 1)
  if last ≠ 0 then return (-1, info)
  eipSearch mem t (stabCount undef t.stabEnd t.stabs) addr info

end Reads

section Eip

variable (m : Phys) (pgdir : Ppn)

/-- The byte the kernel reads at an address. -/
def byteAt (a : Word) : Byte := (loadByte m pgdir a PTE_P).getD 0

/-- What is left of a call of `user_mem_check`. -/
def checkResult (va len : Word) : Except String (Int × Option Word) → Traced Bool
  | .error e => ⟨.error e, []⟩
  | .ok (r, _) => if r = 0 then ⟨.ok false, [.checked va len]⟩ else ⟨.ok true, []⟩

/-- `user_mem_check(curenv, va, len, 0) != 0`. -/
def check (va len : Word) : Traced Bool := checkResult va len (userMemCheck m pgdir va len 0)

/-- `*usd`. -/
def readUserStabData : Traced UserStabData := do
  let stabs ← readWord (byteAt m pgdir) USTABDATA
  let stabEnd ← readWord (byteAt m pgdir) (USTABDATA + 4)
  let stabstr ← readWord (byteAt m pgdir) (USTABDATA + 8)
  let stabstrEnd ← readWord (byteAt m pgdir) (USTABDATA + 12)
  return ⟨stabs, stabEnd, stabstr, stabstrEnd⟩

/-- The tables of the program: `none` when a check fails. -/
def userTables (undef : Word → Word → Word) : Traced (Option UserStabData) := do
  if ← check m pgdir USTABDATA 16 then return none
  let t ← readUserStabData m pgdir
  if ← check m pgdir t.stabs (BitVec.ofInt 32 (stabCount undef t.stabEnd t.stabs)) then return none
  if ← check m pgdir t.stabstr (t.stabstrEnd - t.stabstr) then return none
  return some t

/-- `debuginfo_eip(addr, info)`, with the tables of the kernel. -/
def debuginfoEip (undef : Word → Word → Word) (kern : UserStabData) (addr : Word) :
    Traced (Int × Eipdebuginfo) := do
  let info : Eipdebuginfo := ⟨none, 0, none, 9, addr, 0⟩
  if ULIM ≤ addr then eipTables (byteAt m pgdir) undef kern addr info
  else
    match ← userTables m pgdir undef with
    | none => return (-1, info)
    | some t => eipTables (byteAt m pgdir) undef t addr info

end Eip

end SisOp.Kdebug
