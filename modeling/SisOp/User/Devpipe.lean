/-
# `SisOp.User.Devpipe` — `devpipe_read` and `devpipe_write`

The two loops of `lib/pipe.c` as threads that access a shared `struct Pipe` one
load or store at a time, the left operand of a comparison first.  A label says which
slot of `p_buf` an access used; the index is C's, with the remainder of a signed number.
-/
import SisOp.Jos.Mmu
import SisOp.Lib.Run

namespace SisOp.User

open SisOp.Lib SisOp.Jos

/-! ## The shared page -/

/-- `off_t`: 32 bits, two's complement. -/
abbrev Off := BitVec 32

def PIPEBUFSIZ : Nat := 32

/-- `struct Pipe`. -/
structure Pipe where
  pRpos : Off
  pWpos : Off
  pBuf : Fin PIPEBUFSIZ → Byte

/-- A page fresh from `sys_page_alloc`. -/
def Pipe.zero : Pipe := ⟨0, 0, fun _ => 0⟩

/-- `pos % PIPEBUFSIZ`: the remainder has the sign of `pos`. -/
def bufIndex (pos : Off) : Int := pos.toInt.tmod PIPEBUFSIZ

/-- `p->p_rpos == p->p_wpos`. -/
def isEmpty (rpos wpos : Off) : Prop := rpos = wpos

/-- `p->p_wpos >= p->p_rpos + sizeof(p->p_buf)`: `sizeof` makes the comparison unsigned. -/
def isFull (rpos wpos : Off) : Prop := rpos + BitVec.ofNat 32 PIPEBUFSIZ ≤ wpos

/-! ## The two loops -/

/-- Where `devpipe_write(fd, vbuf, n)` is; the arguments are `vbuf`, `i` and what was loaded. -/
inductive Writer
  | idle
  /-- At `i < n`. -/
  | test (vbuf : List Byte) (i : Nat)
  /-- At the load of `p_wpos` in the condition of `while`. -/
  | head (vbuf : List Byte) (i : Nat)
  /-- At the load of `p_rpos` there. -/
  | cond (vbuf : List Byte) (i : Nat) (wpos : Off)
  /-- The pipe is full: at `_pipeisclosed`. -/
  | full (vbuf : List Byte) (i : Nat)
  /-- There is room: at the load of `p_wpos` for the index. -/
  | index (vbuf : List Byte) (i : Nat)
  /-- At the store to `p_buf`. -/
  | store (vbuf : List Byte) (i : Nat) (wpos : Off)
  /-- At the load of `p_wpos++`. -/
  | bump (vbuf : List Byte) (i : Nat)
  /-- At the store of `p_wpos++`. -/
  | advance (vbuf : List Byte) (i : Nat) (wpos : Off)

/-- Where `devpipe_read(fd, vbuf, n)` is; `got` is `buf[0 .. i)`. -/
inductive Reader
  | idle
  | test (n : Nat) (got : List Byte)
  | head (n : Nat) (got : List Byte)
  | cond (n : Nat) (got : List Byte) (rpos : Off)
  /-- The pipe is empty and nothing was read: at `_pipeisclosed`. -/
  | empty (n : Nat) (got : List Byte)
  | index (n : Nat) (got : List Byte)
  | load (n : Nat) (got : List Byte) (rpos : Off)
  | bump (n : Nat) (got : List Byte)
  | advance (n : Nat) (got : List Byte) (rpos : Off)

/-- Both ends, the page, what was stored and what the reads returned. -/
structure State where
  pipe : Pipe
  writer : Writer
  reader : Reader
  stored : List Byte
  returned : List Byte
  /-- Some access used an index that is not one of `p_buf`. -/
  stray : Bool

def State.init : State := ⟨.zero, .idle, .idle, [], [], false⟩

/-- What a step does to `p_buf`. -/
inductive Label
  | tau
  | store (index : Int) (b : Byte)
  | load (index : Int) (b : Byte)

/-- A byte of `p_buf` at an index, if it is one. -/
def slotOf (index : Int) : Option (Fin PIPEBUFSIZ) :=
  if h : 0 ≤ index ∧ index < PIPEBUFSIZ then some ⟨index.toNat, by omega⟩ else none

/-- One access of the writer. -/
inductive WriterStep (s : State) : Label → State → Prop
  | call (vbuf : List Byte) : s.writer = .idle →
      WriterStep s .tau { s with writer := .test vbuf 0 }
  | more {vbuf : List Byte} {i : Nat} : s.writer = .test vbuf i → i < vbuf.length →
      WriterStep s .tau { s with writer := .head vbuf i }
  /-- `return i`. -/
  | done {vbuf : List Byte} {i : Nat} : s.writer = .test vbuf i → ¬ i < vbuf.length →
      WriterStep s .tau { s with writer := .idle }
  | loadW {vbuf : List Byte} {i : Nat} : s.writer = .head vbuf i →
      WriterStep s .tau { s with writer := .cond vbuf i s.pipe.pWpos }
  | noRoom {vbuf : List Byte} {i : Nat} {wpos : Off} : s.writer = .cond vbuf i wpos →
      isFull s.pipe.pRpos wpos → WriterStep s .tau { s with writer := .full vbuf i }
  | room {vbuf : List Byte} {i : Nat} {wpos : Off} : s.writer = .cond vbuf i wpos →
      ¬ isFull s.pipe.pRpos wpos → WriterStep s .tau { s with writer := .index vbuf i }
  /-- All readers are gone: `return 0`. -/
  | closed {vbuf : List Byte} {i : Nat} : s.writer = .full vbuf i →
      WriterStep s .tau { s with writer := .idle }
  /-- `sys_yield` and look again. -/
  | again {vbuf : List Byte} {i : Nat} : s.writer = .full vbuf i →
      WriterStep s .tau { s with writer := .head vbuf i }
  | loadIndex {vbuf : List Byte} {i : Nat} : s.writer = .index vbuf i →
      WriterStep s .tau { s with writer := .store vbuf i s.pipe.pWpos }
  | store {vbuf : List Byte} {i : Nat} {wpos : Off} {j : Fin PIPEBUFSIZ} {b : Byte} :
      s.writer = .store vbuf i wpos → vbuf[i]? = some b → slotOf (bufIndex wpos) = some j →
      WriterStep s (.store (bufIndex wpos) b)
        { s with
          writer := .bump vbuf i
          pipe := { s.pipe with pBuf := Function.update s.pipe.pBuf j b }
          stored := s.stored ++ [b] }
  /-- What the store hits is no byte of `p_buf`; the run is not followed further. -/
  | stray {vbuf : List Byte} {i : Nat} {wpos : Off} {b : Byte} :
      s.writer = .store vbuf i wpos → vbuf[i]? = some b → slotOf (bufIndex wpos) = none →
      WriterStep s (.store (bufIndex wpos) b) { s with stray := true, stored := s.stored ++ [b] }
  | loadBump {vbuf : List Byte} {i : Nat} : s.writer = .bump vbuf i →
      WriterStep s .tau { s with writer := .advance vbuf i s.pipe.pWpos }
  | advance {vbuf : List Byte} {i : Nat} {wpos : Off} : s.writer = .advance vbuf i wpos →
      WriterStep s .tau
        { s with writer := .test vbuf (i + 1), pipe := { s.pipe with pWpos := wpos + 1 } }

/-- One access of the reader. -/
inductive ReaderStep (s : State) : Label → State → Prop
  | call (n : Nat) : s.reader = .idle → ReaderStep s .tau { s with reader := .test n [] }
  | more {n : Nat} {got : List Byte} : s.reader = .test n got → got.length < n →
      ReaderStep s .tau { s with reader := .head n got }
  | done {n : Nat} {got : List Byte} : s.reader = .test n got → ¬ got.length < n →
      ReaderStep s .tau { s with reader := .idle, returned := s.returned ++ got }
  | loadR {n : Nat} {got : List Byte} : s.reader = .head n got →
      ReaderStep s .tau { s with reader := .cond n got s.pipe.pRpos }
  /-- The pipe is empty and something was read: `return i`. -/
  | short {n : Nat} {got : List Byte} {rpos : Off} : s.reader = .cond n got rpos →
      isEmpty rpos s.pipe.pWpos → 0 < got.length →
      ReaderStep s .tau { s with reader := .idle, returned := s.returned ++ got }
  | nothing {n : Nat} {got : List Byte} {rpos : Off} : s.reader = .cond n got rpos →
      isEmpty rpos s.pipe.pWpos → ¬ 0 < got.length →
      ReaderStep s .tau { s with reader := .empty n got }
  | some {n : Nat} {got : List Byte} {rpos : Off} : s.reader = .cond n got rpos →
      ¬ isEmpty rpos s.pipe.pWpos → ReaderStep s .tau { s with reader := .index n got }
  /-- All writers are gone: `return 0`. -/
  | closed {n : Nat} {got : List Byte} : s.reader = .empty n got →
      ReaderStep s .tau { s with reader := .idle }
  | again {n : Nat} {got : List Byte} : s.reader = .empty n got →
      ReaderStep s .tau { s with reader := .head n got }
  | loadIndex {n : Nat} {got : List Byte} : s.reader = .index n got →
      ReaderStep s .tau { s with reader := .load n got s.pipe.pRpos }
  | load {n : Nat} {got : List Byte} {rpos : Off} {j : Fin PIPEBUFSIZ} :
      s.reader = .load n got rpos → slotOf (bufIndex rpos) = some j →
      ReaderStep s (.load (bufIndex rpos) (s.pipe.pBuf j))
        { s with reader := .bump n (got ++ [s.pipe.pBuf j]) }
  | stray {n : Nat} {got : List Byte} {rpos : Off} (b : Byte) :
      s.reader = .load n got rpos → slotOf (bufIndex rpos) = none →
      ReaderStep s (.load (bufIndex rpos) b) { s with stray := true }
  | loadBump {n : Nat} {got : List Byte} : s.reader = .bump n got →
      ReaderStep s .tau { s with reader := .advance n got s.pipe.pRpos }
  | advance {n : Nat} {got : List Byte} {rpos : Off} : s.reader = .advance n got rpos →
      ReaderStep s .tau
        { s with reader := .test n got, pipe := { s.pipe with pRpos := rpos + 1 } }

/-- Either end makes an access. -/
def Step (s : State) (a : Label) (s' : State) : Prop :=
  s.stray = false ∧ (WriterStep s a s' ∨ ReaderStep s a s')

/-! ## What is asked of a run -/

/-- The index of every access is one of `p_buf`. -/
def InRange (tr : List Label) : Prop :=
  ∀ (index : Int) (b : Byte), .store index b ∈ tr ∨ .load index b ∈ tr →
    0 ≤ index ∧ index < PIPEBUFSIZ

def Label.isStore : Label → Bool
  | .store _ _ => true
  | _ => false

/-- How many bytes the writer has stored. -/
def stores (tr : List Label) : Nat := tr.countP Label.isStore

end SisOp.User
