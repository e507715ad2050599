/-
# `SisOp.Jos.Pmap` — physical pages and page tables (`kern/pmap.c`)

`Phys` is the memory side of the kernel: the `pages` array with its links and
16-bit counters, the head of `page_free_list`, and the contents of every
physical page as 1024 words.  Page directories and page tables are pages like
any other: `pgdir_walk` reads and writes them through `mem`, so two uses of one
page are seen to interfere.

A kernel pointer to a physical page (`page2kva`, `KADDR`) is the page's number;
a `pte_t *` is a page and an index (`PtePtr`).  A function that may panic
returns in `Except String`, with the text of the panic; what `page_alloc` hands
out is also recorded in the history `handed`, which no function reads.

`curenv` and the TLB do not appear here: `tlb_invalidate` has no effect on
`Phys`.
-/
import SisOp.Jos.Mmu

namespace SisOp.Jos

/-- `struct PageInfo`. -/
structure PageInfo where
  ppLink : Option Ppn
  ppRef : BitVec 16
  deriving DecidableEq

/-- The globals of `kern/pmap.c` and the contents of physical memory. -/
structure Phys where
  npages : Nat
  kernPgdir : Ppn
  pages : Ppn → PageInfo
  pageFreeList : Option Ppn
  mem : Ppn → Idx → Word
  /-- The pages `page_alloc` has handed out, latest first. -/
  handed : List Ppn

/-- A `pte_t *`: a page directory or page table, and the index of an entry. -/
abbrev PtePtr := Ppn × Idx

namespace Phys

def load (m : Phys) (p : PtePtr) : Word := m.mem p.1 p.2

/-- `*p = w`. -/
def store (m : Phys) (p : PtePtr) (w : Word) : Phys :=
  { m with mem := Function.update m.mem p.1 (Function.update (m.mem p.1) p.2 w) }

/-- `memset(page, 0, PGSIZE)` or `memcpy(page, .., PGSIZE)`. -/
def fill (m : Phys) (p : Ppn) (ws : Idx → Word) : Phys :=
  { m with mem := Function.update m.mem p ws }

def setRef (m : Phys) (p : Ppn) (r : BitVec 16) : Phys :=
  { m with pages := Function.update m.pages p { m.pages p with ppRef := r } }

/-- `pp->pp_ref++`; the counter is 16 bits wide. -/
def incref (m : Phys) (p : Ppn) : Phys := m.setRef p ((m.pages p).ppRef + 1)

def setLink (m : Phys) (p : Ppn) (l : Option Ppn) : Phys :=
  { m with pages := Function.update m.pages p { m.pages p with ppLink := l } }

end Phys

/-- `KADDR(pa)` for a page-aligned `pa`, as the page it points to. -/
def KADDR (m : Phys) (p : Ppn) : Except String Ppn :=
  if m.npages ≤ p.toNat then .error "KADDR called with invalid pa" else .ok p

/-- `pa2page(pa)`. -/
def pa2page (m : Phys) (p : Ppn) : Except String Ppn :=
  if m.npages ≤ p.toNat then .error "pa2page called with invalid pa" else .ok p

/-! ## The page allocator -/

/-- `page_alloc(alloc_flags)`; `zero` is `alloc_flags & ALLOC_ZERO`. -/
def pageAlloc (m : Phys) (zero : Bool) : Except String (Option Ppn × Phys) :=
  match m.pageFreeList with
  | none => .ok (none, m)
  | some page => do
      let m := { m with pageFreeList := (m.pages page).ppLink, handed := page :: m.handed }
      let m := m.setLink page none
      if zero then
        let kva ← KADDR m page
        return (some page, m.fill kva fun _ => 0)
      else
        return (some page, m)

def pageFree (m : Phys) (pp : Ppn) : Except String Phys :=
  if (m.pages pp).ppRef ≠ 0 then .error "pp_ref != 0"
  else if (m.pages pp).ppLink ≠ none then .error "pp_link != NULL"
  else .ok { m.setLink pp m.pageFreeList with pageFreeList := some pp }

def pageDecref (m : Phys) (pp : Ppn) : Except String Phys :=
  let r := (m.pages pp).ppRef - 1
  if r = 0 then pageFree (m.setRef pp r) pp else .ok (m.setRef pp r)

/-! ## Page tables -/

/-- `pgdir_walk(pgdir, va, create)`. -/
def pgdirWalk (m : Phys) (pgdir : Ppn) (va : Word) (create : Bool) :
    Except String (Option PtePtr × Phys) := do
  let pgdirEntry := m.load (pgdir, PDX va)
  if ¬ PTE_VALID pgdirEntry then
    if ¬ create then return (none, m)
    match ← pageAlloc m true with
    | (none, m) => return (none, m)
    | (some newPage, m) =>
        let m := m.store (pgdir, PDX va) (page2pa newPage ||| PTE_P ||| PTE_W ||| PTE_U)
        let m := m.incref newPage
        let kva ← KADDR m newPage
        return (some (kva, PTX va), m)
  else
    let ptdir ← KADDR m (PGNUM (PTE_ADDR pgdirEntry))
    return (some (ptdir, PTX va), m)

/-- `page_lookup(pgdir, va, &pte)`: the page mapped at `va` and its entry.
The walk does not create, so it leaves the memory as it is. -/
def pageLookup (m : Phys) (pgdir : Ppn) (va : Word) : Except String (Option (Ppn × PtePtr)) := do
  match ← pgdirWalk m pgdir va false with
  | (none, _) => return none
  | (some pte, _) =>
      if ¬ PTE_VALID (m.load pte) then return none
      let page ← pa2page m (PGNUM (PTE_ADDR (m.load pte)))
      return some (page, pte)

def pageRemove (m : Phys) (pgdir : Ppn) (va : Word) : Except String Phys := do
  match ← pageLookup m pgdir va with
  | none => return m
  | some (pag, pte) => pageDecref (m.store pte 0) pag

/-- `page_insert(pgdir, pp, va, perm)`: 0, or `-E_NO_MEM` when no page table could be allocated. -/
def pageInsert (m : Phys) (pgdir pp : Ppn) (va perm : Word) : Except String (Int × Phys) := do
  match ← pgdirWalk m pgdir va true with
  | (none, m) => return (-E_NO_MEM, m)
  | (some pte, m) =>
      let m := m.incref pp
      let m ← if PTE_VALID (m.load pte) then pageRemove m pgdir va else pure m
      return (0, m.store pte (page2pa pp ||| perm ||| PTE_P))

/-! ## Checking user pointers -/

/-- The loop of `user_mem_check`.  One turn per page, so `2 ^ 20` turns of fuel are never
used up (`userMemCheckLoop_fuel`). -/
def userMemCheckLoop (m : Phys) (pgdir : Ppn) (va endVa perm : Word) :
    Nat → Word → Except String (Int × Option Word)
  | 0, _ => .error "user_mem_check: out of fuel"
  | fuel + 1, currentVa => do
      if currentVa < endVa then
        let (pte, m) ← pgdirWalk m pgdir currentVa false
        let bad := match pte with
          | none => true
          | some pte => decide (m.load pte ||| perm ||| PTE_P ≠ m.load pte)
        if ULIM ≤ currentVa ∨ bad = true then
          return (-E_FAULT, some (if currentVa < va then va else currentVa))
        userMemCheckLoop m pgdir va endVa perm fuel (currentVa + PGSIZE)
      else
        return (0, none)

/-- `user_mem_check(env, va, len, perm)` on the directory of `env`: the result and, on
`-E_FAULT`, the value stored in `user_mem_check_addr`. -/
def userMemCheck (m : Phys) (pgdir : Ppn) (va len perm : Word) :
    Except String (Int × Option Word) :=
  userMemCheckLoop m pgdir va (ROUNDUP (va + len) PGSIZE) perm (2 ^ 20 + 1) (ROUNDDOWN va PGSIZE)

/-! ## Accesses through a loaded page directory -/

/-- The entry a directory holds for `va`, when the directory entry is present. -/
def pteAt (m : Phys) (pgdir : Ppn) (va : Word) : Option Word :=
  let pde := m.mem pgdir (PDX va)
  if PTE_VALID pde then some (m.mem (PGNUM pde) (PTX va)) else none

/-- Byte `i` of a word, little endian. -/
def byteOf (w : Word) (i : Nat) : Byte := w.extractLsb' (8 * i) 8

/-- A word with byte `i` replaced. -/
def withByte (w : Word) (i : Nat) (b : Byte) : Word :=
  w &&& ~~~(0xFF#32 <<< (8 * i)) ||| b.setWidth 32 <<< (8 * i)

theorem byteOf_withByte {w : Word} {b : Byte} {i j : Nat} (hi : i < 4) (hj : j < 4) :
    byteOf (withByte w i b) j = if j = i then b else byteOf w j := by
  refine BitVec.eq_of_getLsbD_eq fun k hk => ?_
  have hk8 : 8 * j + k < 32 := by omega
  have hmask : (0xFF#32 <<< (8 * i)).getLsbD (8 * j + k) = decide (j = i) := by
    rw [BitVec.getLsbD_shiftLeft, show (0xFF#32 : Word) = BitVec.setWidth 32 (BitVec.allOnes 8) from rfl,
      BitVec.getLsbD_setWidth, BitVec.getLsbD_allOnes]
    by_cases h : j = i
    · simp [h]
      omega
    · simp [h]
      omega
  have hbyte : (b.setWidth 32 <<< (8 * i)).getLsbD (8 * j + k) =
      (decide (j = i) && b.getLsbD k) := by
    rw [BitVec.getLsbD_shiftLeft, BitVec.getLsbD_setWidth]
    by_cases h : j = i
    · subst h
      simp [hk8]
      omega
    · by_cases hlt : 8 * j + k < 8 * i
      · simp [h, hlt]
      · have hge : 8 ≤ 8 * j + k - 8 * i := by omega
        simp [h, BitVec.getLsbD_of_ge b _ hge]
  have hL : (byteOf (withByte w i b) j).getLsbD k =
      (w.getLsbD (8 * j + k) && !decide (j = i) || decide (j = i) && b.getLsbD k) := by
    rw [byteOf, BitVec.getLsbD_extractLsb', withByte, BitVec.getLsbD_or, BitVec.getLsbD_and,
      BitVec.getLsbD_not, hmask, hbyte]
    simp [hk, hk8]
  rw [hL]
  by_cases h : j = i
  · simp [h]
  · simp [h, byteOf, hk]

/-- Where the word that holds `va` lies, when both levels allow an access with `flags`
(the hardware's walk: both entries are checked). -/
def translate (m : Phys) (pgdir : Ppn) (va flags : Word) : Option PtePtr :=
  let pde := m.mem pgdir (PDX va)
  let pte := m.mem (PGNUM pde) (PTX va)
  if pde &&& flags = flags ∧ pte &&& flags = flags then
    some (PGNUM pte, ⟨va.toNat / 4 % 1024, Nat.mod_lt _ (by decide)⟩)
  else none

/-- A one-byte load; `none` is a page fault. -/
def loadByte (m : Phys) (pgdir : Ppn) (va flags : Word) : Option Byte :=
  (translate m pgdir va flags).map fun p => byteOf (m.load p) (va.toNat % 4)

/-- A one-byte store; `none` is a page fault. -/
def storeByte (m : Phys) (pgdir : Ppn) (va flags : Word) (b : Byte) : Option Phys :=
  (translate m pgdir va flags).map fun p => m.store p (withByte (m.load p) (va.toNat % 4) b)

/-- The stores of a C object's bytes at `va`, `va + 1`, ... -/
def storeBytes (m : Phys) (pgdir : Ppn) (flags : Word) : Word → List Byte → Option Phys
  | _, [] => some m
  | va, b :: bs => (storeByte m pgdir va flags b).bind fun m' => storeBytes m' pgdir flags (va + 1) bs

/-- The loads of `n` bytes at `va`, `va + 1`, ... -/
def loadBytes (m : Phys) (pgdir : Ppn) (flags : Word) : Word → Nat → Option (List Byte)
  | _, 0 => some []
  | va, n + 1 => (loadByte m pgdir va flags).bind fun b =>
      (loadBytes m pgdir flags (va + 1) n).map (b :: ·)

/-- The four bytes of a word in memory order. -/
def wordBytes (w : Word) : List Byte := [byteOf w 0, byteOf w 1, byteOf w 2, byteOf w 3]

/-- The word four bytes in memory order make. -/
def bytesWord : List Byte → Word
  | [a, b, c, d] => (d ++ c ++ b ++ a : BitVec 32)
  | _ => 0

end SisOp.Jos
