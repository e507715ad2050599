/-
# `SisOp.Jos.MemInit` — setting up memory (`mem_init` of `kern/pmap.c`)

From what the CMOS says about the installed memory and the addresses the linker
chose to the state in which the kernel page directory is loaded: `boot_alloc`,
`page_init`, the reordering and the assertions of `check_page_free_list`, and the
mappings above `UTOP`.

The tests `check_page_alloc`, `check_page` and `check_page_installed_pgdir` take
three pages, try the allocator out on them and give them back.  What they leave
behind is modelled (the order and the contents of the three pages, and the page
table that testing `mmio_map_region` allocates), their assertions are not; nor
is `check_kern_pgdir`, which only reads.
-/
import SisOp.Jos.Pmap

namespace SisOp.Jos

def KSTKSIZE : Word := 8 * PGSIZE
def KSTKGAP : Word := 8 * PGSIZE
def NCPU : Nat := 8

/-- `sizeof(struct PageInfo)`. -/
def sizeofPageInfo : Word := 8

/-- `sizeof(struct Env) * NENV`. -/
def sizeofEnvs : Word := 124 * 1024

/-- What the kernel finds when it starts. -/
structure Machine where
  /-- `NVRAM_BASELO`, `NVRAM_EXTLO` and `NVRAM_EXT16LO`. -/
  basemem : BitVec 16
  extmem : BitVec 16
  ext16mem : BitVec 16
  /-- The linker symbols `end`, `bootstack` and `percpu_kstacks`. -/
  kend : Word
  bootstack : Word
  percpuKstacks : Word
  /-- The contents of memory. -/
  mem : Ppn → Idx → Word
  /-- `kernel.ld` links the kernel from here on. -/
  kendHigh : 0xF0100000 ≤ kend
  /-- `.p2align PGSHIFT` in `entry.S`. -/
  bootstackAligned : bootstack % PGSIZE = 0
  /-- `__attribute__ ((aligned(PGSIZE)))` in `mpconfig.c`. -/
  kstacksAligned : percpuKstacks % PGSIZE = 0

/-- `i386_detect_memory`: the number of pages. -/
def i386DetectMemory (hw : Machine) : Word :=
  let basemem := hw.basemem.setWidth 32
  let extmem := hw.extmem.setWidth 32
  let ext16mem := hw.ext16mem.setWidth 32 * 64
  let totalmem : Word :=
    if ext16mem ≠ 0 then 16 * 1024 + ext16mem
    else if extmem ≠ 0 then 1 * 1024 + extmem
    else basemem
  totalmem / 4

/-- `PADDR(kva)`. -/
def PADDR (kva : Word) : Except String Word :=
  if kva < KERNBASE then .error "PADDR called with invalid kva" else .ok (kva - KERNBASE)

/-- `boot_alloc(n)`: the result and the new `nextfree`. -/
def bootAlloc (hw : Machine) (nextfree n : Word) : Except String (Word × Word) := do
  let nextfree := if nextfree = 0 then ROUNDUP hw.kend PGSIZE else nextfree
  if n = 0 then return (nextfree, nextfree)
  let pa ← PADDR nextfree
  if i386DetectMemory hw * PGSIZE < ROUNDUP n PGSIZE + pa then .error "Memoria insuficiente"
  else return (nextfree, nextfree + ROUNDUP n PGSIZE)

/-- A `memset` of `n` bytes at `va` while `entry_pgdir` is loaded: it maps 4 MB at `KERNBASE`. -/
def bootMemset (va n : Word) : Except String Unit :=
  if va.toNat + n.toNat ≤ KERNBASE.toNat + PTSIZE.toNat then .ok () else .error "page fault"

/-! ## The free list -/

/-- `incluir_en_paginas_libres(page)`; `firstFree` is `PADDR(boot_alloc(0))`. -/
def incluirEnPaginasLibres (firstFree : Word) (page : Ppn) : Bool :=
  let paddr := page2pa page
  if paddr = 0 then false
  else if IOPHYSMEM ≤ paddr ∧ paddr < firstFree then false
  else if paddr = MPENTRY_PADDR then false
  else true

/-- One turn of the loop of `page_init`. -/
def pageInitTurn (firstFree : Word) (m : Phys) (page : Ppn) : Phys :=
  if incluirEnPaginasLibres firstFree page then
    { m.setLink page m.pageFreeList with pageFreeList := some page }
  else m

/-- `page_init()`: `i` goes from 1 to `npages - 1`. -/
def pageInit (firstFree : Word) (m : Phys) : Phys :=
  ((List.range' 1 (m.npages - 1)).map (BitVec.ofNat 20)).foldl (pageInitTurn firstFree) m

/-- The pages met by following `pp_link`, at most `fuel` of them. -/
def freeCells (m : Phys) : Nat → Option Ppn → List Ppn
  | 0, _ => []
  | _, none => []
  | fuel + 1, some pp => pp :: freeCells m fuel (m.pages pp).ppLink

/-- The state of the loop that sorts the free list: the two lists and, for each, the page whose
`pp_link` the array `tp` points at, or `none` while it points at the variable. -/
structure Sorting where
  phys : Phys
  pp1 : Option Ppn
  pp2 : Option Ppn
  tp0 : Option Ppn
  tp1 : Option Ppn

/-- `*tp[0] = x`. -/
def Sorting.write0 (s : Sorting) (x : Option Ppn) : Sorting :=
  match s.tp0 with
  | none => { s with pp1 := x }
  | some p => { s with phys := s.phys.setLink p x }

/-- `*tp[1] = x`. -/
def Sorting.write1 (s : Sorting) (x : Option Ppn) : Sorting :=
  match s.tp1 with
  | none => { s with pp2 := x }
  | some p => { s with phys := s.phys.setLink p x }

/-- One turn of the loop; `pdx_limit` is 1. -/
def Sorting.turn (s : Sorting) (pp : Ppn) : Sorting :=
  if 1 ≤ (PDX (page2pa pp)).val then { s.write1 (some pp) with tp1 := some pp }
  else { s.write0 (some pp) with tp0 := some pp }

/-- The loop over the list, which reads `pp->pp_link` after the turn.  The list has at most
`npages` cells. -/
def Sorting.loop : Nat → Sorting → Option Ppn → Sorting
  | 0, s, _ => s
  | _, s, none => s
  | fuel + 1, s, some pp => (s.turn pp).loop fuel ((s.turn pp).phys.pages pp).ppLink

/-- The first part of `check_page_free_list(1)`: pages below 4 MB come first. -/
def lowFirst (m : Phys) : Phys :=
  let s := Sorting.loop m.npages ⟨m, none, none, none, none⟩ m.pageFreeList
  let s := s.write1 none
  let s := s.write0 s.pp2
  { s.phys with pageFreeList := s.pp1 }

/-- `memset(page2kva(pp), 0x97, 128)`. -/
def poison (m : Phys) (pp : Ppn) : Phys :=
  m.fill pp fun i => if i.val < 32 then 0x97979797 else m.mem pp i

/-- The assertions about one page of the list; `firstFreePage` is `boot_alloc(0)`. -/
def freePageOk (m : Phys) (firstFreePage : Word) (pp : Ppn) : Bool :=
  pp.toNat < m.npages ∧ page2pa pp ≠ 0 ∧ page2pa pp ≠ IOPHYSMEM ∧
    page2pa pp ≠ EXTPHYSMEM - PGSIZE ∧ page2pa pp ≠ EXTPHYSMEM ∧
    (page2pa pp < EXTPHYSMEM ∨ firstFreePage ≤ page2pa pp + KERNBASE) ∧
    page2pa pp ≠ MPENTRY_PADDR

/-- `check_page_free_list(only_low_memory)`. -/
def checkPageFreeList (m : Phys) (firstFreePage : Word) (onlyLowMemory : Bool) :
    Except String Phys :=
  if m.pageFreeList = none then .error "'page_free_list' is a null pointer!"
  else
    let m := if onlyLowMemory then lowFirst m else m
    let cells := freeCells m m.npages m.pageFreeList
    let m := (if onlyLowMemory then cells.filter fun pp => (PDX (page2pa pp)).val < 1
      else cells).foldl poison m
    if ¬ cells.all (freePageOk m firstFreePage) then .error "assertion failed"
    else if ¬ cells.any fun pp => page2pa pp < EXTPHYSMEM then
      .error "assertion failed: nfree_basemem > 0"
    else if ¬ cells.any fun pp => EXTPHYSMEM ≤ page2pa pp then
      .error "assertion failed: nfree_extmem > 0"
    else .ok m

/-! ## Static mappings -/

/-- The loop of `boot_map_region`, one page a turn.  It stops without a word when no page
table can be allocated. -/
def bootMapLoop (pgdir : Ppn) (perm : Word) : Nat → Phys → Word → Word → Except String Phys
  | 0, m, _, _ => .ok m
  | n + 1, m, va, pa => do
      match ← pgdirWalk m pgdir va true with
      | (none, m) => return m
      | (some pte, m) =>
          bootMapLoop pgdir perm n (m.store pte (pa ||| perm ||| PTE_P)) (va + PGSIZE) (pa + PGSIZE)

/-- `boot_map_region(pgdir, va, size, pa, perm)`, `size` being a multiple of `PGSIZE`. -/
def bootMapRegion (m : Phys) (pgdir : Ppn) (va size pa perm : Word) : Except String Phys :=
  bootMapLoop pgdir perm (size.toNat / 4096) m va pa

/-- `mmio_map_region(pa, size)`: the address, and the new `base`. -/
def mmioMapRegion (m : Phys) (base pa size : Word) : Except String (Word × Word × Phys) := do
  let size := ROUNDUP size PGSIZE
  if MMIOLIM ≤ base + size then .error "MMIO OVERFLOW"
  else
    let m ← bootMapRegion m m.kernPgdir base size pa (PTE_PCD ||| PTE_PWT ||| PTE_W)
    return (base, base + size, m)

/-- The per-CPU stacks. -/
def memInitMp (hw : Machine) (m : Phys) : Except String Phys :=
  (List.range NCPU).foldlM (fun m i => do
    let pa ← PADDR (hw.percpuKstacks + BitVec.ofNat 32 i * KSTKSIZE)
    bootMapRegion m m.kernPgdir (KSTACKTOP - KSTKSIZE - BitVec.ofNat 32 i * (KSTKSIZE + KSTKGAP))
      KSTKSIZE pa PTE_W) m

/-! ## What the tests leave -/

/-- `assert((pp = page_alloc(0)))`. -/
def assertAlloc (m : Phys) : Except String (Ppn × Phys) := do
  match ← pageAlloc m false with
  | (none, _) => .error "assertion failed"
  | (some pp, m) => return (pp, m)

/-- The three allocations the tests begin with. -/
def takeThree (m : Phys) : Except String ((Ppn × Ppn × Ppn) × Phys) := do
  let (pp0, m) ← assertAlloc m
  let (pp1, m) ← assertAlloc m
  let (pp2, m) ← assertAlloc m
  return ((pp0, pp1, pp2), m)

/-- `check_page_alloc()`: in the middle the three pages are freed and taken again, which
exchanges the first and the last. -/
def checkPageAlloc (m : Phys) : Except String Phys := do
  let ((pp2, pp1, pp0), m) ← takeThree m
  let m := m.fill pp0 fun _ => 0
  let m ← pageFree m pp0
  let m ← pageFree m pp1
  pageFree m pp2

/-- `*pgdir_walk(kern_pgdir, va, 0) = 0`. -/
def clearPte (m : Phys) (va : Word) : Except String Phys := do
  match ← pgdirWalk m m.kernPgdir va false with
  | (none, _) => .error "assertion failed"
  | (some pte, m) => return m.store pte 0

/-- `check_page()`. -/
def checkPage (m : Phys) : Except String Phys := do
  let ((pp0, pp1, pp2), m) ← takeThree m
  let m := m.fill pp0 fun _ => 0
  let m ← pageFree m pp0
  let m ← pageFree m pp1
  let m ← pageFree m pp2
  -- test mmio_map_region
  let (mm1, base, m) ← mmioMapRegion m MMIOBASE 0 4097
  let (mm2, _, m) ← mmioMapRegion m base 0 4096
  let m ← clearPte m mm1
  let m ← clearPte m (mm1 + PGSIZE)
  clearPte m mm2

/-- `check_page_installed_pgdir()`: the first page becomes a page table and is taken back
last. -/
def checkPageInstalledPgdir (m : Phys) : Except String Phys := do
  let ((pp0, pp1, pp2), m) ← takeThree m
  let m := m.fill pp0 fun _ => 0
  let m := m.fill pp1 fun _ => 0x01010101
  let m := m.fill pp2 fun i => if i = 0 then 0x03030303 else 0x02020202
  let m ← pageFree m pp1
  let m ← pageFree m pp2
  pageFree m pp0

/-! ## `mem_init` -/

/-- The memory `mem_init` leaves, and the addresses of the two arrays. -/
structure MemInit where
  phys : Phys
  pages : Word
  envs : Word

/-- The globals before `page_init`: the arrays have just been cleared. -/
def bootPhys (hw : Machine) (kernPgdir : Ppn) : Phys where
  npages := (i386DetectMemory hw).toNat
  kernPgdir := kernPgdir
  pages := fun _ => ⟨none, 0⟩
  pageFreeList := none
  mem := hw.mem
  handed := []

/-- `mem_init()`. -/
def memInit (hw : Machine) : Except String MemInit := do
  let npages := i386DetectMemory hw
  let (kernPgdir, nextfree) ← bootAlloc hw 0 PGSIZE
  bootMemset kernPgdir PGSIZE
  let kernPa ← PADDR kernPgdir
  let m := (bootPhys hw (PGNUM kernPa)).fill (PGNUM kernPa) fun _ => 0
  let m := m.store (PGNUM kernPa, PDX UVPT) (kernPa ||| PTE_U ||| PTE_P)
  let (pages, nextfree) ← bootAlloc hw nextfree (sizeofPageInfo * npages)
  bootMemset pages (sizeofPageInfo * npages)
  let (envs, nextfree) ← bootAlloc hw nextfree sizeofEnvs
  bootMemset envs sizeofEnvs
  let firstFree ← PADDR nextfree
  let m := pageInit firstFree m
  let m ← checkPageFreeList m nextfree true
  let m ← checkPageAlloc m
  let m ← checkPage m
  let pagesPa ← PADDR pages
  let m ← bootMapRegion m m.kernPgdir UPAGES PTSIZE pagesPa PTE_U
  let envsPa ← PADDR envs
  let m ← bootMapRegion m m.kernPgdir UENVS PTSIZE envsPa PTE_U
  let stackPa ← PADDR hw.bootstack
  let m ← bootMapRegion m m.kernPgdir (KSTACKTOP - KSTKSIZE) KSTKSIZE stackPa PTE_W
  let m ← bootMapRegion m m.kernPgdir KERNBASE 0x10000000 0 PTE_W
  let m ← memInitMp hw m
  let m ← checkPageFreeList m nextfree false
  let m ← checkPageInstalledPgdir m
  return ⟨m, pages, envs⟩

end SisOp.Jos
