/-
# `SisOp.Server.Machine` — the memory of the file server and its block cache

`inc/fs.h` and `fs/bc.c`.  The server sees the disk as memory: block `b` is the
page at `DISKMAP + b * BLKSIZE`, read in by a page fault the first time it is
touched and written back by `flush_block`.  What it sees of the disk is the same
before and after a fault or a flush (`Machine.mem`), so its functions are programs
(`SisOp.Lib.Prog`) that are run either on the machine, or on what it shows
(`View`); `abstracts` relates the two.

Sizes and block numbers are natural numbers, a block is its words.  The machine is the
one that `fs_init` leaves: `super` and `bitmap` are set.
-/
import SisOp.Jos.Pmap
import SisOp.Lib.Prog

namespace SisOp.Fs

open SisOp.Lib SisOp.Jos

/-! ## Constants -/

def BLKSIZE : Nat := 4096
def BLKBITSIZE : Nat := BLKSIZE * 8
def MAXNAMELEN : Nat := 128
def MAXPATHLEN : Nat := 1024
def NDIRECT : Nat := 10
def NINDIRECT : Nat := BLKSIZE / 4
def MAXFILESIZE : Nat := (NDIRECT + NINDIRECT) * BLKSIZE
def BLKFILES : Nat := BLKSIZE / 256
def FTYPE_REG : Word := 0
def FTYPE_DIR : Word := 1

def DISKMAP : Nat := 0x10000000
def DISKSIZE : Nat := 0xC0000000

/-- `fsreq`: the page below the disk map. -/
def FSREQ : Nat := 0x0FFFF000

/-- Where the program starts: its own memory lies between here and `fsreq`. -/
def UTEXT : Nat := 0x00800000

def E_NO_DISK : Int := 9
def E_MAX_OPEN : Int := 10
def E_NOT_FOUND : Int := 11
def E_BAD_PATH : Int := 12
def E_FILE_EXISTS : Int := 13

/-! ## Memory -/

abbrev Block := Nat → Word

/-- A word of the memory the server works on. -/
inductive Cell
  | disk (b i : Nat)
  | req (i : Nat)
  | own (i : Nat)
  deriving DecidableEq

/-- The word an address lies in. -/
def cellOf (va : Nat) : Option Cell :=
  if UTEXT ≤ va ∧ va < FSREQ then some (.own ((va - UTEXT) / 4))
  else if FSREQ ≤ va ∧ va < DISKMAP then some (.req ((va - FSREQ) / 4))
  else if DISKMAP ≤ va ∧ va < DISKMAP + DISKSIZE then
    some (.disk ((va - DISKMAP) / BLKSIZE) ((va - DISKMAP) % BLKSIZE / 4))
  else none

/-- A call of `memmove`. -/
structure Move where
  dst : Nat
  src : Nat
  len : Nat

/-- A call of `memmove`, with the disk as it was seen when it was made. -/
structure Access extends Move where
  mem : Nat → Block

/-- What the server's functions see. -/
structure View where
  mem : Nat → Block
  req : Block
  own : Block
  /-- The calls of `memmove`, latest first. -/
  moves : List Access

def View.get (v : View) : Cell → Word
  | .disk b i => v.mem b i
  | .req i => v.req i
  | .own i => v.own i

def View.set (v : View) (c : Cell) (w : Word) : View :=
  match c with
  | .disk b i => { v with mem := Function.update v.mem b (Function.update (v.mem b) i w) }
  | .req i => { v with req := Function.update v.req i w }
  | .own i => { v with own := Function.update v.own i w }

/-- `super->s_nblocks`. -/
def nblocks (mem : Nat → Block) : Nat := (mem 1 1).toNat

/-- The block of the bitmap that has the bit of block `b`. -/
def bitmapBlock (b : Nat) : Nat := 2 + b / BLKBITSIZE

/-- What `block_is_free` finds. -/
def FreeIn (mem : Nat → Block) (b : Nat) : Prop :=
  b < nblocks mem ∧ (mem (bitmapBlock b) (b / 32 % 1024)).getLsbD (b % 32) = true

instance (mem : Nat → Block) (b : Nat) : Decidable (FreeIn mem b) :=
  inferInstanceAs (Decidable (_ ∧ _))

/-! ## The machine -/

/-- A page of the disk map; `dirty` is `PTE_D`. -/
structure Page where
  data : Block
  dirty : Bool

structure Machine where
  disk : Nat → Block
  cache : Nat → Option Page
  req : Block
  own : Block
  moves : List Access
  /-- The writes to the disk, latest first. -/
  written : List (Nat × Block)

namespace Machine

/-- A block as the server sees it. -/
def mem (s : Machine) (b : Nat) : Block :=
  match s.cache b with
  | some p => p.data
  | none => s.disk b

def view (s : Machine) : View := ⟨s.mem, s.req, s.own, s.moves⟩

/-- `sys_page_alloc` and `ide_read`, which stores the block in the new page. -/
def pageIn (s : Machine) (b : Nat) : Machine :=
  { s with cache := Function.update s.cache b (some ⟨s.disk b, true⟩) }

/-- `sys_page_map(0, addr, 0, addr, ..)` of a page over itself: the entry loses `PTE_D`. -/
def remap (s : Machine) (b : Nat) : Machine :=
  { s with cache := Function.update s.cache b ((s.cache b).map fun p => ⟨p.data, false⟩) }

/-- An access to byte `off` of block `b`, with `fault` as the handler. -/
def access (fault : Machine → Nat → Nat → Except String Unit × Machine) (s : Machine) (b off : Nat) :
    Except String Unit × Machine :=
  if (s.cache b).isSome then (.ok (), s) else fault s b off

/-- `bc_pgfault` for an access to byte `off` of block `b`.  The address is not rounded for
`sys_page_map`, which refuses one that is not the start of a page.  The handler reads
`super->s_nblocks` and a word of the bitmap, and can fault there in turn. -/
def bcPgfault : Nat → Machine → Nat → Nat → Except String Unit × Machine
  | 0, s, _, _ => (.error "page fault in the page fault handler", s)
  | n + 1, s, b, off =>
      match access (bcPgfault n) s 1 4 with
      | (.error msg, s) => (.error msg, s)
      | (.ok _, s) =>
          if nblocks s.mem ≤ b then (.error "reading non-existent block", s)
          else if off ≠ 0 then (.error "in bc_pgfault, sys_page_map", s.pageIn b)
          else
            match access (bcPgfault n) ((s.pageIn b).remap b) (bitmapBlock b)
                (4 * (b / 32 % 1024)) with
            | (.error msg, s) => (.error msg, s)
            | (.ok _, s) => if FreeIn s.mem b then (.error "reading free block", s) else (.ok (), s)

/-- An access to byte `off` of block `b`: a fault there leads to at most two more. -/
def touch (s : Machine) (b off : Nat) : Except String Unit × Machine :=
  access (bcPgfault 3) s b off

/-- An access to an address; only the disk map is loaded on demand. -/
def accessAt (s : Machine) (va : Nat) : Except String Unit × Machine :=
  if DISKMAP ≤ va ∧ va < DISKMAP + DISKSIZE then
    s.touch ((va - DISKMAP) / BLKSIZE) ((va - DISKMAP) % BLKSIZE)
  else (.ok (), s)

/-- A store to a mapped page. -/
def store (s : Machine) (b i : Nat) (w : Word) : Machine :=
  { s with cache := Function.update s.cache b (some ⟨Function.update (s.mem b) i w, true⟩) }

/-- `flush_block` of an address in block `b`. -/
def flushBlock (s : Machine) (b : Nat) : Machine :=
  match s.cache b with
  | none => s
  | some p =>
      if p.dirty then
        { s with
          disk := Function.update s.disk b p.data
          written := (b, p.data) :: s.written
          cache := Function.update s.cache b (some ⟨p.data, false⟩) }
      else s

end Machine

/-! ## The interface -/

inductive Cmd
  /-- An access to the address, before the byte there is loaded or stored. -/
  | access (va : Nat)
  | load (c : Cell)
  | store (c : Cell) (w : Word)
  | flush (b : Nat)
  | note (m : Move)
  | panic (msg : String)

def Cmd.Ans : Cmd → Type
  | .load _ => Word
  | .panic _ => Empty
  | _ => Unit

/-- A function of the server. -/
abbrev FsM := Prog Cmd Cmd.Ans

def access (va : Nat) : FsM Unit := Prog.cmd (C := Cmd) (.access va)
def load (c : Cell) : FsM Word := Prog.cmd (C := Cmd) (.load c)
def store (c : Cell) (w : Word) : FsM Unit := Prog.cmd (C := Cmd) (.store c w)
def flushBlock (b : Nat) : FsM Unit := Prog.cmd (C := Cmd) (.flush b)
def note (m : Move) : FsM Unit := Prog.cmd (C := Cmd) (.note m)
def panic {α : Type} (msg : String) : FsM α := .call (.panic msg) fun x => nomatch x

/-- The commands on a view: nothing faults, and flushing does nothing. -/
def onView : Handler Cmd Cmd.Ans View
  | .access _, v => (.ok (), v)
  | .load c, v => (.ok (v.get c), v)
  | .store c w, v => (.ok (), v.set c w)
  | .flush _, v => (.ok (), v)
  | .note m, v => (.ok (), { v with moves := ⟨m, v.mem⟩ :: v.moves })
  | .panic msg, v => (.error msg, v)

/-- The commands on the machine. -/
def onMachine : Handler Cmd Cmd.Ans Machine
  | .access va, s => s.accessAt va
  | .load (.req i), s => (.ok (s.req i), s)
  | .load (.own i), s => (.ok (s.own i), s)
  | .load (.disk b i), s =>
      match s.touch b (4 * i) with
      | (.error msg, s) => (.error msg, s)
      | (.ok _, s) => (.ok (s.mem b i), s)
  | .store (.req i) w, s => (.ok (), { s with req := Function.update s.req i w })
  | .store (.own i) w, s => (.ok (), { s with own := Function.update s.own i w })
  | .store (.disk b i) w, s =>
      match s.touch b (4 * i) with
      | (.error msg, s) => (.error msg, s)
      | (.ok _, s) => (.ok (), s.store b i w)
  | .flush b, s => (.ok (), s.flushBlock b)
  | .note m, s => (.ok (), { s with moves := ⟨m, s.mem⟩ :: s.moves })
  | .panic msg, s => (.error msg, s)

/-! ## What the cache hides -/

section

variable {s s' : Machine} {b : Nat} {msg : String}

theorem Machine.pageIn_mem (hb : s.cache b = none) : (s.pageIn b).mem = s.mem := by
  funext b'
  rcases eq_or_ne b' b with rfl | hne
  · simp [Machine.mem, Machine.pageIn, hb]
  · simp [Machine.mem, Machine.pageIn, Function.update_of_ne hne]

theorem Machine.remap_mem (s : Machine) (b : Nat) : (s.remap b).mem = s.mem := by
  funext b'
  rcases eq_or_ne b' b with rfl | hne
  · cases hc : s.cache b' <;> simp [Machine.mem, Machine.remap, hc]
  · simp [Machine.mem, Machine.remap, Function.update_of_ne hne]

theorem Machine.pageIn_view (hb : s.cache b = none) : (s.pageIn b).view = s.view := by
  rw [Machine.view, Machine.pageIn_mem hb]
  rfl

theorem Machine.remap_view (s : Machine) (b : Nat) : (s.remap b).view = s.view := by
  rw [Machine.view, Machine.remap_mem]
  rfl

/-- An access keeps what its handler keeps. -/
theorem Machine.access_keeps {P : Machine → Prop} {off : Nat}
    {fault : Machine → Nat → Nat → Except String Unit × Machine}
    (hfault : s.cache b = none → P (fault s b off).2) (hs : P s) :
    P (Machine.access fault s b off).2 := by
  unfold Machine.access
  split
  · exact hs
  · exact hfault (Option.not_isSome_iff_eq_none.mp ‹_›)

/-- Without the super block every fault is followed by another one. -/
theorem Machine.bcPgfault_super_missing (n : Nat) (h1 : s.cache 1 = none) (b off : Nat) :
    Machine.bcPgfault n s b off = (.error "page fault in the page fault handler", s) := by
  induction n generalizing b off with
  | zero => rfl
  | succ n ih =>
      rw [Machine.bcPgfault, Machine.access, if_neg (by simp [h1]), ih]

/-- With the super block in memory. -/
theorem Machine.bcPgfault_super (n : Nat) (h1 : (s.cache 1).isSome) (b off : Nat) :
    Machine.bcPgfault (n + 1) s b off =
      if nblocks s.mem ≤ b then (.error "reading non-existent block", s)
      else if off ≠ 0 then (.error "in bc_pgfault, sys_page_map", s.pageIn b)
      else
        match Machine.access (Machine.bcPgfault n) ((s.pageIn b).remap b) (bitmapBlock b)
            (4 * (b / 32 % 1024)) with
        | (.error msg, s) => (.error msg, s)
        | (.ok _, s) => if FreeIn s.mem b then (.error "reading free block", s) else (.ok (), s) := by
  rw [Machine.bcPgfault, show Machine.access (Machine.bcPgfault n) s 1 4 = (.ok (), s) from if_pos h1]

theorem Machine.bcPgfault_view (n : Nat) {off : Nat} (hb : s.cache b = none) :
    (Machine.bcPgfault n s b off).2.view = s.view := by
  induction n generalizing s b off with
  | zero => rfl
  | succ n ih =>
      rcases h1 : s.cache 1 with _ | p
      · rw [Machine.bcPgfault_super_missing _ h1]
      · rw [Machine.bcPgfault_super n (by simp [h1])]
        have hin : ((s.pageIn b).remap b).view = s.view :=
          (Machine.remap_view _ b).trans (Machine.pageIn_view hb)
        split
        · rfl
        · split
          · exact Machine.pageIn_view hb
          · have hrec : (Machine.access (Machine.bcPgfault n) ((s.pageIn b).remap b) (bitmapBlock b)
                (4 * (b / 32 % 1024))).2.view = s.view :=
              Machine.access_keeps (P := fun t => t.view = s.view) (fun hc => (ih hc).trans hin) hin
            split
            · rename_i hacc
              rwa [hacc] at hrec
            · rename_i hacc
              rw [hacc] at hrec
              split <;> exact hrec

/-- A page fault changes nothing the server sees. -/
theorem Machine.touch_view (s : Machine) (b off : Nat) : (s.touch b off).2.view = s.view :=
  Machine.access_keeps (P := fun t => t.view = s.view) (fun hb => Machine.bcPgfault_view 3 hb) rfl

theorem Machine.accessAt_view (s : Machine) (va : Nat) : (s.accessAt va).2.view = s.view := by
  unfold Machine.accessAt
  split
  · exact s.touch_view _ _
  · rfl

theorem Machine.store_view (i : Nat) (w : Word) :
    (s.store b i w).view = s.view.set (.disk b i) w := by
  have hmem : (s.store b i w).mem = Function.update s.mem b (Function.update (s.mem b) i w) := by
    funext b'
    rcases eq_or_ne b' b with rfl | hne
    · rw [Function.update_self]
      simp [Machine.mem, Machine.store]
    · rw [Function.update_of_ne hne]
      simp [Machine.mem, Machine.store, Function.update_of_ne hne]
  rw [Machine.view, hmem]
  rfl

theorem Machine.flushBlock_view (s : Machine) (b : Nat) : (s.flushBlock b).view = s.view := by
  unfold Machine.flushBlock
  split
  · rfl
  · rename_i p hp
    split
    · have hmem : ∀ disk written, Machine.mem { s with
          disk := Function.update s.disk b p.data
          written := written
          cache := Function.update s.cache b (some ⟨p.data, disk⟩) } = s.mem := fun _ _ => by
        funext b'
        rcases eq_or_ne b' b with rfl | hne
        · simp [Machine.mem, hp]
        · simp [Machine.mem, Function.update_of_ne hne]
      rw [Machine.view, hmem]
      rfl
    · rfl

end

/-- A program does on the machine what it does on the view, unless it ends in a page fault. -/
theorem abstracts : Prog.Abstracts onMachine onView Machine.view
    fun v v' => ∃ ms, v'.moves = ms ++ v.moves where
  ok := fun c s r s' h => by
    cases c with
    | access va =>
        have hview := s.accessAt_view va
        change s.accessAt va = _ at h
        rw [h] at hview
        rw [← hview]
        rfl
    | load c =>
        cases c with
        | req i | own i =>
            cases h
            rfl
        | disk b i =>
            have hview := s.touch_view b (4 * i)
            simp only [onMachine] at h
            rcases ht : s.touch b (4 * i) with ⟨e | u, s1⟩
            · rw [ht] at h
              cases h
            · rw [ht] at h hview
              cases h
              rw [← hview]
              rfl
    | store c w =>
        cases c with
        | req i | own i =>
            cases h
            rfl
        | disk b i =>
            have hview := s.touch_view b (4 * i)
            simp only [onMachine] at h
            rcases ht : s.touch b (4 * i) with ⟨e | u, s1⟩
            · rw [ht] at h
              cases h
            · rw [ht] at h hview
              cases h
              rw [Machine.store_view, hview]
              rfl
    | flush b =>
        cases h
        rw [Machine.flushBlock_view]
        rfl
    | note m =>
        cases h
        rfl
    | panic msg => cases h
  error := fun c s e s' h => by
    cases c with
    | access va =>
        have hview := s.accessAt_view va
        change s.accessAt va = _ at h
        rw [h] at hview
        exact ⟨[], by rw [hview]; rfl⟩
    | load c =>
        cases c with
        | req i | own i => cases h
        | disk b i =>
            have hview := s.touch_view b (4 * i)
            simp only [onMachine] at h
            rcases ht : s.touch b (4 * i) with ⟨e | u, s1⟩
            · rw [ht] at h hview
              cases h
              exact ⟨[], by rw [hview]; rfl⟩
            · rw [ht] at h
              cases h
    | store c w =>
        cases c with
        | req i | own i => cases h
        | disk b i =>
            have hview := s.touch_view b (4 * i)
            simp only [onMachine] at h
            rcases ht : s.touch b (4 * i) with ⟨e | u, s1⟩
            · rw [ht] at h hview
              cases h
              exact ⟨[], by rw [hview]; rfl⟩
            · rw [ht] at h
              cases h
    | flush b => cases h
    | note m => cases h
    | panic msg =>
        cases h
        exact ⟨[], rfl⟩
  refl := fun v => ⟨[], rfl⟩
  trans := by
    rintro v v' v'' ⟨ms, h⟩ ⟨ms', h'⟩
    exact ⟨ms' ++ ms, by rw [h', h, List.append_assoc]⟩
  grows := fun c v => by
    cases c with
    | store c w => cases c <;> exact ⟨[], rfl⟩
    | note m => exact ⟨[⟨m, v.mem⟩], rfl⟩
    | _ => exact ⟨[], rfl⟩

end SisOp.Fs
