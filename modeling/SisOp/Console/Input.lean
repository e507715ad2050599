/-
# `SisOp.Console.Input` — the console's input buffer

`cons_intr` and `cons_getc` (`kern/console.c`): a ring of 512 bytes that interrupts fill
and readers empty.  The two positions are equal when the ring is empty, and also when it
has just been filled; so the ring is the queue `push`, which the 512th unread character
empties, and a queue that loses nothing as long as fewer wait.
-/
import SisOp.Printf.Format
import SisOp.Lib.Ring
import Mathlib.Logic.Function.Basic

namespace SisOp.Console

open SisOp.Jos (Byte)
open SisOp.Lib

/-! ## The ring -/

def CONSBUFSIZE : Nat := 512

instance : NeZero CONSBUFSIZE := ⟨by decide⟩

/-- The static variable `cons`. -/
structure Cons where
  buf : Nat → Byte
  rpos : Nat
  wpos : Nat

/-- A position, one further on. -/
def nextPos (pos : Nat) : Nat := if pos + 1 = CONSBUFSIZE then 0 else pos + 1

/-- One turn of `cons_intr`, for what `proc` returned. -/
def consChar (s : Cons) (c : Int) : Cons :=
  if c = 0 then s
  else { s with buf := Function.update s.buf s.wpos (BitVec.ofInt 8 c), wpos := nextPos s.wpos }

/-- `cons_intr(proc)`, where `proc` returns `cs` and then -1. -/
def cons_intr (s : Cons) (cs : List Int) : Cons := cs.foldl consChar s

/-- `cons_getc()`; the two devices have `serial` and `kbd` for it. -/
def cons_getc (s : Cons) (serial kbd : List Int) : Byte × Cons :=
  let s := cons_intr (cons_intr s serial) kbd
  if s.rpos ≠ s.wpos then (s.buf s.rpos, { s with rpos := nextPos s.rpos }) else (0, s)

/-! ## The queue -/

/-- A character that arrives; the one that fills the buffer loses all that waits. -/
def push (q : List Byte) (c : Int) : List Byte :=
  if c = 0 then q
  else if q.length + 1 = CONSBUFSIZE then []
  else q ++ [BitVec.ofInt 8 c]

/-- A character that is read. -/
def pop : List Byte → Byte × List Byte
  | [] => (0, [])
  | c :: q => (c, q)

/-- The ring `s` holds the queue `q`. -/
def Queues (s : Cons) (q : List Byte) : Prop :=
  ∃ sent r, Holds (fun i : Fin CONSBUFSIZE => s.buf i) sent r ∧ sent.length < r + CONSBUFSIZE ∧
    s.rpos = r % CONSBUFSIZE ∧ s.wpos = sent.length % CONSBUFSIZE ∧ q = sent.drop r

theorem nextPos_mod (n : Nat) : nextPos (n % CONSBUFSIZE) = (n + 1) % CONSBUFSIZE := by
  rw [nextPos]
  by_cases hlast : n % CONSBUFSIZE + 1 = CONSBUFSIZE
  · rw [if_pos hlast]
    simp only [CONSBUFSIZE] at *
    omega
  · rw [if_neg hlast]
    simp only [CONSBUFSIZE] at *
    omega

theorem queues_empty (buf : Nat → Byte) : Queues ⟨buf, 0, 0⟩ [] :=
  ⟨[], 0, Holds.empty _, by decide, rfl, rfl, rfl⟩

section

variable {s : Cons} {q : List Byte}

theorem Queues.length_lt (h : Queues s q) : q.length < CONSBUFSIZE := by
  obtain ⟨sent, r, hholds, hroom, -, -, rfl⟩ := h
  have hbehind := hholds.behind
  rw [List.length_drop]
  omega

/-- One character arrives. -/
theorem Queues.push (h : Queues s q) (c : Int) : Queues (consChar s c) (push q c) := by
  by_cases hc : c = 0
  · rw [consChar, if_pos hc, Console.push, if_pos hc]
    exact h
  obtain ⟨sent, r, hholds, hroom, hr, hw, rfl⟩ := h
  have hbehind := hholds.behind
  have hslot : (fun i : Fin CONSBUFSIZE => Function.update s.buf s.wpos (BitVec.ofInt 8 c) i) =
      Function.update (fun i : Fin CONSBUFSIZE => s.buf i) (Fin.ofNat CONSBUFSIZE sent.length)
        (BitVec.ofInt 8 c) := by
    funext i
    by_cases hi : i = Fin.ofNat CONSBUFSIZE sent.length
    · have hival : i.val = s.wpos := by rw [hi, hw]; rfl
      rw [hi, Function.update_self, ← hi, hival, Function.update_self]
    · have hival : i.val ≠ s.wpos := fun heq => hi (Fin.ext (heq.trans hw))
      rw [Function.update_of_ne hival, Function.update_of_ne hi]
  have hpush := hholds.push hroom (BitVec.ofInt 8 c)
  rw [← hslot] at hpush
  have hlen : (sent ++ [BitVec.ofInt 8 c]).length = sent.length + 1 := by simp
  rw [consChar, if_neg hc, Console.push, if_neg hc, List.length_drop]
  by_cases hfull : sent.length - r + 1 = CONSBUFSIZE
  · -- the positions meet: the reader will find nothing
    rw [if_pos hfull]
    refine ⟨sent ++ [BitVec.ofInt 8 c], sent.length + 1, ⟨hlen.ge, by omega, ?_⟩, by omega, ?_, ?_, ?_⟩
    · intro i hi hlt
      omega
    · rw [hr]
      simp only [CONSBUFSIZE] at *
      omega
    · rw [hw, nextPos_mod, hlen]
    · rw [List.drop_of_length_le hlen.le]
  · rw [if_neg hfull]
    refine ⟨sent ++ [BitVec.ofInt 8 c], r, hpush, by omega, hr, ?_, ?_⟩
    · rw [hw, nextPos_mod, hlen]
    · rw [List.drop_append_of_le_length hbehind]

theorem Queues.intr (h : Queues s q) (cs : List Int) : Queues (cons_intr s cs) (cs.foldl Console.push q) := by
  induction cs generalizing s q with
  | nil => exact h
  | cons c cs ih => exact ih (h.push c)

/-- One character is read. -/
theorem Queues.getc (h : Queues s q) (serial kbd : List Int) :
    (cons_getc s serial kbd).1 = (pop (kbd.foldl Console.push (serial.foldl Console.push q))).1 ∧
      Queues (cons_getc s serial kbd).2 (pop (kbd.foldl Console.push (serial.foldl Console.push q))).2 := by
  have h' := (h.intr serial).intr kbd
  rw [cons_getc]
  generalize cons_intr (cons_intr s serial) kbd = t at h' ⊢
  generalize kbd.foldl Console.push (serial.foldl Console.push q) = p at h' ⊢
  obtain ⟨sent, r, hholds, hroom, hr, hw, rfl⟩ := h'
  have hbehind := hholds.behind
  by_cases hempty : r = sent.length
  · have hpos : ¬ t.rpos ≠ t.wpos := by rw [hr, hw, hempty]; simp
    rw [if_neg hpos, hempty, List.drop_length]
    exact ⟨rfl, sent, sent.length, hempty ▸ hholds, by omega, hempty ▸ hr, hw, List.drop_length.symm⟩
  · have hlt : r < sent.length := by omega
    have hpos : t.rpos ≠ t.wpos := by
      rw [hr, hw]
      simp only [CONSBUFSIZE] at *
      omega
    rw [if_pos hpos, List.drop_eq_getElem_cons hlt]
    refine ⟨?_, sent, r + 1, hholds.pop hlt, by omega, ?_, hw, rfl⟩
    · have hfront := hholds.front hlt
      rw [hr]
      exact hfront
    · rw [hr, nextPos_mod]

end

/-! ## Runs -/

/-- An interrupt's characters, or a call of `cons_getc` with what it polls. -/
inductive InputOp
  | intr (cs : List Int)
  | getc (serial kbd : List Int)

/-- What the calls of `cons_getc` return, and the ring after them. -/
def inputs : Cons → List InputOp → List Byte × Cons
  | s, [] => ([], s)
  | s, .intr cs :: ops => inputs (cons_intr s cs) ops
  | s, .getc serial kbd :: ops =>
    let r := cons_getc s serial kbd
    ((inputs r.2 ops).1.cons r.1, (inputs r.2 ops).2)

/-- The same, of the queue. -/
def queued : List Byte → List InputOp → List Byte × List Byte
  | q, [] => ([], q)
  | q, .intr cs :: ops => queued (cs.foldl push q) ops
  | q, .getc serial kbd :: ops =>
    let r := pop (kbd.foldl push (serial.foldl push q))
    ((queued r.2 ops).1.cons r.1, (queued r.2 ops).2)

theorem Queues.inputs {s : Cons} {q : List Byte} (h : Queues s q) (ops : List InputOp) :
    (inputs s ops).1 = (queued q ops).1 ∧ Queues (Console.inputs s ops).2 (queued q ops).2 := by
  induction ops generalizing s q with
  | nil => exact ⟨rfl, h⟩
  | cons op ops ih =>
    cases op with
    | intr cs => exact ih (h.intr cs)
    | getc serial kbd =>
      obtain ⟨hc, h'⟩ := h.getc serial kbd
      obtain ⟨hrest, h''⟩ := ih h'
      exact ⟨by rw [Console.inputs, queued, hc, hrest], h''⟩

/-- Every run of interrupts and reads is one of the queue that its 512th character empties. -/
theorem console_input (buf : Nat → Byte) (ops : List InputOp) :
    (inputs ⟨buf, 0, 0⟩ ops).1 = (queued [] ops).1 ∧
      Queues (inputs ⟨buf, 0, 0⟩ ops).2 (queued [] ops).2 :=
  (queues_empty buf).inputs ops

/-! ## While there is room -/

/-- The characters in what devices return. -/
def chars (cs : List Int) : List Byte := (cs.filter (· ≠ 0)).map (BitVec.ofInt 8)

/-- What the devices return to a step. -/
def InputOp.arrives : InputOp → List Int
  | .intr cs => cs
  | .getc serial kbd => serial ++ kbd

/-- With `n` characters waiting at first, fewer than 512 ever wait. -/
def Roomy : Nat → List InputOp → Prop
  | _, [] => True
  | n, op :: ops =>
    n + (chars op.arrives).length < CONSBUFSIZE ∧
      match op with
      | .intr cs => Roomy (n + (chars cs).length) ops
      | .getc serial kbd => Roomy (n + (chars (serial ++ kbd)).length - 1) ops

/-- The devices return bytes. -/
def Bytes (ops : List InputOp) : Prop := ∀ op ∈ ops, ∀ c ∈ op.arrives, 0 ≤ c ∧ c < 256

instance : DecidablePred Bytes := fun ops =>
  inferInstanceAs (Decidable (∀ op ∈ ops, ∀ c ∈ op.arrives, 0 ≤ c ∧ c < 256))

theorem foldl_push {q : List Byte} {cs : List Int} (h : q.length + (chars cs).length < CONSBUFSIZE) :
    cs.foldl push q = q ++ chars cs := by
  induction cs generalizing q with
  | nil => exact (List.append_nil q).symm
  | cons c cs ih =>
    by_cases hc : c = 0
    · have hskip : chars (c :: cs) = chars cs := by simp [chars, hc]
      rw [hskip] at h ⊢
      rw [List.foldl_cons, push, if_pos hc, ih h]
    · have htake : chars (c :: cs) = BitVec.ofInt 8 c :: chars cs := by simp [chars, hc]
      rw [htake, List.length_cons] at h
      rw [List.foldl_cons, push, if_neg hc, if_neg (by omega), ih, htake, List.append_assoc, List.singleton_append]
      rw [List.length_append, List.length_singleton]
      omega

theorem ne_zero_of_mem_chars {cs : List Int} (h : ∀ c ∈ cs, 0 ≤ c ∧ c < 256) {b : Byte} (hb : b ∈ chars cs) :
    b ≠ 0 := by
  obtain ⟨c, hc, rfl⟩ := List.mem_map.mp hb
  obtain ⟨hmem, hne⟩ := List.mem_filter.mp hc
  have hrange := h c hmem
  intro hzero
  have hnat := congrArg BitVec.toNat hzero
  rw [BitVec.toNat_ofInt] at hnat
  simp only [ne_eq, decide_eq_true_eq] at hne
  simp only [BitVec.ofNat_eq_ofNat, BitVec.toNat_ofNat] at hnat
  omega

theorem queued_lossless {q : List Byte} {ops : List InputOp} (hq : ∀ b ∈ q, b ≠ 0) (hroom : Roomy q.length ops)
    (hbytes : Bytes ops) :
    (queued q ops).1.filter (· ≠ 0) ++ (queued q ops).2 = q ++ ops.flatMap fun op => chars op.arrives := by
  induction ops generalizing q with
  | nil => simp [queued]
  | cons op ops ih =>
    have hop : ∀ c ∈ op.arrives, 0 ≤ c ∧ c < 256 := hbytes op List.mem_cons_self
    have hrest : Bytes ops := fun op' h => hbytes op' (List.mem_cons_of_mem _ h)
    have hall : ∀ b ∈ q ++ chars op.arrives, b ≠ 0 := fun b hb => by
      rcases List.mem_append.mp hb with hb | hb
      · exact hq b hb
      · exact ne_zero_of_mem_chars hop hb
    obtain ⟨hlt, hroom'⟩ := hroom
    rw [List.flatMap_cons, ← List.append_assoc]
    cases op with
    | intr cs =>
      rw [queued, foldl_push (show q.length + (chars cs).length < CONSBUFSIZE from hlt)]
      exact ih hall (by rw [List.length_append]; exact hroom') hrest
    | getc serial kbd =>
      rw [queued, ← List.foldl_append,
        foldl_push (show q.length + (chars (serial ++ kbd)).length < CONSBUFSIZE from hlt)]
      change (let r := pop (q ++ chars (serial ++ kbd));
        ((queued r.2 ops).1.cons r.1).filter (· ≠ 0) ++ (queued r.2 ops).2) =
          q ++ chars (serial ++ kbd) ++ _
      change ∀ b ∈ q ++ chars (serial ++ kbd), b ≠ 0 at hall
      change Roomy (q.length + (chars (serial ++ kbd)).length - 1) ops at hroom'
      have hlen : (q ++ chars (serial ++ kbd)).length = q.length + (chars (serial ++ kbd)).length :=
        List.length_append
      generalize hp : q ++ chars (serial ++ kbd) = p at hall hlen ⊢
      dsimp only
      cases p with
      | nil =>
        rw [pop, List.filter_cons_of_neg (by simp), ih hall _ hrest]
        rw [List.length_nil] at hlen ⊢
        rwa [← hlen] at hroom'
      | cons b p =>
        have hb : b ≠ 0 := hall b List.mem_cons_self
        rw [pop, List.filter_cons_of_pos (by simpa using hb), List.cons_append, List.cons_append,
          ih (fun x hx => hall x (List.mem_cons_of_mem _ hx)) _ hrest]
        rw [List.length_cons] at hlen
        rwa [← hlen, Nat.add_sub_cancel] at hroom'

/-- While fewer than 512 characters wait, every character that arrived has been read, in order, or
still waits. -/
theorem console_fifo (buf : Nat → Byte) {ops : List InputOp} (hroom : Roomy 0 ops) (hbytes : Bytes ops) :
    ∃ waiting, Queues (inputs ⟨buf, 0, 0⟩ ops).2 waiting ∧
      (inputs ⟨buf, 0, 0⟩ ops).1.filter (· ≠ 0) ++ waiting = ops.flatMap fun op => chars op.arrives := by
  obtain ⟨hout, hwait⟩ := console_input buf ops
  refine ⟨_, hwait, ?_⟩
  rw [hout]
  exact queued_lossless (q := []) (by simp) hroom hbytes

/-- Two characters from an interrupt, and one that is polled. -/
theorem console_fifo_polled : ∃ waiting,
    Queues (inputs ⟨fun _ => 0, 0, 0⟩ [.intr [0x61, 0, 0x62], .getc [] [0x63]]).2 waiting ∧
      (inputs ⟨fun _ => 0, 0, 0⟩ [.intr [0x61, 0, 0x62], .getc [] [0x63]]).1.filter (· ≠ 0) ++ waiting =
        [0x61, 0x62, 0x63] :=
  @console_fifo (fun _ => 0) [.intr [0x61, 0, 0x62], .getc [] [0x63]] ⟨by decide, by decide, trivial⟩ (by decide)

end SisOp.Console
