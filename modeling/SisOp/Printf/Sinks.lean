/-
# `SisOp.Printf.Sinks` — where the formatted characters go

`snprintf` (`lib/printfmt.c`) writes them into a buffer and counts those that do not fit;
`cprintf` (`lib/printf.c`) and `fprintf` (`lib/fprintf.c`) collect them in a buffer of
256 bytes that a system call, or `write`, empties.  Each is a fold of its `putch` over
what `vprintfmt` prints, so each theorem holds for every format and all arguments.
-/
import SisOp.Printf.Format
import SisOp.Lib.Blocks
import Mathlib.Logic.Function.Basic
import Mathlib.Tactic.Linarith

namespace SisOp.Printf

open SisOp.Jos (Word Byte)
open SisOp.Lib

/-- A `char` that is stored. -/
def char (c : Word) : Byte := c.setWidth 8

/-! ## snprintf -/

/-- `struct sprintbuf`, and the memory it points into. -/
structure Sprintbuf where
  mem : Nat → Byte
  buf : Nat
  ebuf : Nat
  cnt : Nat

/-- `sprintputch(ch, b)`. -/
def sprintputch (b : Sprintbuf) (c : Word) : Sprintbuf :=
  if b.buf < b.ebuf then
    { b with cnt := b.cnt + 1, mem := Function.update b.mem b.buf (char c), buf := b.buf + 1 }
  else { b with cnt := b.cnt + 1 }

/-- inc/error.h. -/
def E_INVAL : Int := 3

/-- `vsnprintf(buf, n, fmt, ap)`: its result and the memory after it. -/
def vsnprintf (str : Word → Text) (mem : Nat → Byte) (buf : Nat) (n : Int) (fmt : Text) (ap : Va) :
    Int × (Nat → Byte) :=
  if buf = 0 ∨ n < 1 then (-E_INVAL, mem)
  else
    let b := (vprintfmt str fmt ap).foldl sprintputch ⟨mem, buf, buf + n.toNat - 1, 0⟩
    (b.cnt, Function.update b.mem b.buf 0)

/-- The buffer `b`, started at `buf` over the memory `mem`, has been given `out`. -/
structure Holds (mem : Nat → Byte) (buf room : Nat) (b : Sprintbuf) (out : List Word) : Prop where
  ebuf : b.ebuf = buf + room
  cnt : b.cnt = out.length
  pos : b.buf = buf + min out.length room
  text : ∀ i < min out.length room, (out[i]?).map char = some (b.mem (buf + i))
  frame : ∀ a, a < buf ∨ b.buf ≤ a → b.mem a = mem a

theorem Holds.putch {mem : Nat → Byte} {buf room : Nat} {b : Sprintbuf} {out : List Word}
    (h : Holds mem buf room b out) (c : Word) : Holds mem buf room (sprintputch b c) (out ++ [c]) := by
  have hpos := h.pos
  have hebuf := h.ebuf
  unfold sprintputch
  split
  case isTrue hlt =>
    have hmin : min out.length room = out.length := by omega
    have hmin' : min (out ++ [c]).length room = out.length + 1 := by
      rw [List.length_append, List.length_singleton]
      omega
    refine ⟨hebuf, ?_, ?_, fun i hi => ?_, fun a ha => ?_⟩
    · rw [h.cnt, List.length_append, List.length_singleton]
    · rw [hmin']
      show b.buf + 1 = buf + (out.length + 1)
      omega
    · rw [hmin'] at hi
      by_cases hlast : i = out.length
      · subst hlast
        rw [List.getElem?_append_right (Nat.le_refl _), Nat.sub_self]
        have hhere : buf + out.length = b.buf := by omega
        simp only [hhere, Function.update_self, List.getElem?_cons_zero, Option.map_some]
      · have hne : buf + i ≠ b.buf := by omega
        rw [List.getElem?_append_left (by omega)]
        simp only [Function.update_of_ne hne]
        exact h.text i (by omega)
    · have hne : a ≠ b.buf := by
        dsimp only at ha
        omega
      simp only [Function.update_of_ne hne]
      exact h.frame a (by dsimp only at ha; omega)
  case isFalse hge =>
    have hmin : min out.length room = room := by omega
    have hmin' : min (out ++ [c]).length room = room := by
      rw [List.length_append, List.length_singleton]
      omega
    refine ⟨hebuf, ?_, ?_, fun i hi => ?_, h.frame⟩
    · rw [h.cnt, List.length_append, List.length_singleton]
    · rw [hmin', hpos, hmin]
    · rw [hmin'] at hi
      rw [List.getElem?_append_left (by omega)]
      exact h.text i (by omega)

theorem Holds.foldl {mem : Nat → Byte} {buf room : Nat} {b : Sprintbuf} {out : List Word}
    (h : Holds mem buf room b out) (more : List Word) :
    Holds mem buf room (more.foldl sprintputch b) (out ++ more) := by
  induction more generalizing b out with
  | nil => rwa [List.append_nil]
  | cons c more ih =>
    rw [List.foldl_cons, ← List.singleton_append, ← List.append_assoc]
    exact ih (h.putch c)

/-- What a call that printed `out` into `room` bytes and a NUL returns, and the memory after it. -/
structure Wrote (mem : Nat → Byte) (buf room : Nat) (out : List Word) (r : Int × (Nat → Byte)) : Prop where
  result : r.1 = out.length
  text : ∀ i < min out.length room, (out[i]?).map char = some (r.2 (buf + i))
  nul : r.2 (buf + min out.length room) = 0
  frame : ∀ a, a < buf ∨ buf + min out.length room < a → r.2 a = mem a

theorem Holds.wrote {mem : Nat → Byte} {buf room : Nat} {b : Sprintbuf} {out : List Word}
    (h : Holds mem buf room b out) : Wrote mem buf room out (b.cnt, Function.update b.mem b.buf 0) where
  result := congrArg _ h.cnt
  text i hi := by
    have hne : buf + i ≠ b.buf := by
      rw [h.pos]
      omega
    rw [h.text i hi]
    exact congrArg some (Function.update_of_ne hne ..).symm
  nul := by
    rw [← h.pos]
    exact Function.update_self ..
  frame a ha := by
    have hpos := h.pos
    have hne : a ≠ b.buf := by omega
    exact (Function.update_of_ne hne ..).trans (h.frame a (by omega))

/-- `struct printbuf` of `cprintf`: the `idx` bytes of `buf`, and the calls of `sys_cputs` made. -/
structure Printbuf where
  buf : Text
  cnt : Nat
  calls : List Text

/-- `putch(ch, b)` of `lib/printf.c`. -/
def putch (b : Printbuf) (c : Word) : Printbuf :=
  if (b.buf ++ [char c]).length = 256 - 1 then
    ⟨[], b.cnt + 1, b.calls ++ [b.buf ++ [char c]]⟩
  else ⟨b.buf ++ [char c], b.cnt + 1, b.calls⟩

/-- `vcprintf(fmt, ap)`: its result and the strings it gives to `sys_cputs`. -/
def vcprintf (str : Word → Text) (fmt : Text) (ap : Va) : Nat × List Text :=
  let b := (vprintfmt str fmt ap).foldl putch ⟨[], 0, []⟩
  (b.cnt, b.calls ++ [b.buf])

/-- `cprintf`'s buffer is one of 255 bytes. -/
theorem foldl_putch (out : List Word) (b : Printbuf) :
    out.foldl putch b =
      ⟨((out.map char).foldl (Blocks.push 255) ⟨b.calls, b.buf⟩).pending, b.cnt + out.length,
        ((out.map char).foldl (Blocks.push 255) ⟨b.calls, b.buf⟩).full⟩ := by
  induction out generalizing b with
  | nil => rfl
  | cons c out ih =>
    have hstep : putch b c = ⟨((⟨b.calls, b.buf⟩ : Blocks Byte).push 255 (char c)).pending, b.cnt + 1,
        ((⟨b.calls, b.buf⟩ : Blocks Byte).push 255 (char c)).full⟩ := by
      unfold putch Blocks.push
      rw [List.length_append, List.length_singleton]
      split <;> rfl
    rw [List.foldl_cons, ih, hstep, List.map_cons, List.foldl_cons, List.length_cons]
    congr 1
    show b.cnt + 1 + out.length = b.cnt + (out.length + 1)
    omega

/-- `struct printbuf` of `fprintf`: the `idx` bytes of `buf`, and the calls of `write` with what
they returned. -/
structure Filebuf where
  buf : Text
  result : Int
  error : Int
  log : List (Text × Int)

section

variable (write : Nat → Text → Int)

/-- `writebuf(b)`; the `k`-th call of `write` returns `write k`. -/
def writebuf (b : Filebuf) : Filebuf :=
  if b.error > 0 then
    let result := write b.log.length b.buf
    { b with
      log := b.log ++ [(b.buf, result)]
      result := if result > 0 then b.result + result else b.result
      error := if result ≠ b.buf.length then (if result < 0 then result else 0) else b.error }
  else b

/-- `putch(ch, thunk)` of `lib/fprintf.c`. -/
def fputch (b : Filebuf) (c : Word) : Filebuf :=
  if (b.buf ++ [char c]).length = 256 then
    { writebuf write { b with buf := b.buf ++ [char c] } with buf := [] }
  else { b with buf := b.buf ++ [char c] }

/-- `vfprintf(fd, fmt, ap)`: its result and the calls of `write`. -/
def vfprintf (str : Word → Text) (fmt : Text) (ap : Va) : Int × List (Text × Int) :=
  let b := (vprintfmt str fmt ap).foldl (fputch write) ⟨[], 0, 1, []⟩
  let b := if b.buf.length > 0 then writebuf write b else b
  (if b.result ≠ 0 then b.result else b.error, b.log)

variable {write}

/-- `writebuf` for the block `l`. -/
def Filebuf.send (write : Nat → Text → Int) (b : Filebuf) (l : Text) : Filebuf :=
  writebuf write { b with buf := l }

theorem foldl_fputch (out : List Word) (b b' : Filebuf) (full : List Text)
    (h : b = { full.foldl (Filebuf.send write) b' with buf := b.buf }) :
    out.foldl (fputch write) b =
      { ((out.map char).foldl (Blocks.push 256) ⟨full, b.buf⟩).full.foldl (Filebuf.send write) b' with
        buf := ((out.map char).foldl (Blocks.push 256) ⟨full, b.buf⟩).pending } := by
  induction out generalizing b full with
  | nil => exact h
  | cons c out ih =>
    rw [List.foldl_cons, List.map_cons, List.foldl_cons]
    have hlen : (b.buf ++ [char c]).length = b.buf.length + 1 := by simp
    by_cases hfull : b.buf.length + 1 = 256
    · have hput : fputch write b c = { writebuf write { b with buf := b.buf ++ [char c] } with buf := [] } :=
        if_pos (hlen.trans hfull)
      have hpush : (⟨full, b.buf⟩ : Blocks Byte).push 256 (char c) = ⟨full ++ [b.buf ++ [char c]], []⟩ :=
        if_pos hfull
      have hstep := ih (fputch write b c) (full ++ [b.buf ++ [char c]]) (by
        rw [hput, List.foldl_append]
        rw [h]
        rfl)
      rw [hpush]
      rwa [show (fputch write b c).buf = [] by rw [hput]] at hstep
    · have hput : fputch write b c = { b with buf := b.buf ++ [char c] } :=
        if_neg (by rw [hlen]; exact hfull)
      have hpush : (⟨full, b.buf⟩ : Blocks Byte).push 256 (char c) = ⟨full, b.buf ++ [char c]⟩ :=
        if_neg hfull
      rw [hpush]
      have hstep := ih (fputch write b c) full (by rw [hput]; rw [h])
      rwa [show (fputch write b c).buf = b.buf ++ [char c] by rw [hput]] at hstep

/-- After a write that was short, nothing more is written. -/
theorem foldl_send_closed {b : Filebuf} (h : b.error ≤ 0) (ls : List Text) :
    (ls.foldl (Filebuf.send write) b).result = b.result ∧
      (ls.foldl (Filebuf.send write) b).error = b.error ∧ (ls.foldl (Filebuf.send write) b).log = b.log := by
  induction ls generalizing b with
  | nil => exact ⟨rfl, rfl, rfl⟩
  | cons l ls ih =>
    have hstep : Filebuf.send write b l = { b with buf := l } := if_neg (by dsimp only; omega)
    rw [List.foldl_cons, hstep]
    exact ih h

/-- What `error` is after the writes: 1 while they have been whole. -/
def status : List (Text × Int) → Int
  | [] => 1
  | (l, r) :: log => if r = l.length then status log else min r 0

theorem foldl_send_open (hwrite : ∀ k bs, write k bs ≤ bs.length) {b : Filebuf} (h : b.error = 1)
    (ls : List Text) :
    (ls.foldl (Filebuf.send write) b).result =
        b.result + (accepted (sends write b.log.length ls)).length ∧
      (ls.foldl (Filebuf.send write) b).error = status (sends write b.log.length ls) ∧
      (ls.foldl (Filebuf.send write) b).log = b.log ++ sends write b.log.length ls := by
  induction ls generalizing b with
  | nil => exact ⟨(Int.add_zero _).symm, h, (List.append_nil _).symm⟩
  | cons l ls ih =>
    have hle := hwrite b.log.length l
    have htake : (l.take (write b.log.length l).toNat).length = (write b.log.length l).toNat := by
      rw [List.length_take]
      omega
    have hresult : (Filebuf.send write b l).result = b.result + (write b.log.length l).toNat := by
      simp only [Filebuf.send, writebuf, h, Int.zero_lt_one, gt_iff_lt, if_true]
      split <;> omega
    have hlog : (Filebuf.send write b l).log = b.log ++ [(l, write b.log.length l)] := by
      simp only [Filebuf.send, writebuf, h, Int.zero_lt_one, gt_iff_lt, if_true]
    have herror : (Filebuf.send write b l).error =
        if write b.log.length l = l.length then 1 else min (write b.log.length l) 0 := by
      simp only [Filebuf.send, writebuf, h, Int.zero_lt_one, gt_iff_lt, if_true]
      split_ifs <;> omega
    rw [List.foldl_cons, sends, accepted, List.flatMap_cons, status]
    by_cases hall : write b.log.length l = l.length
    · rw [if_pos hall] at herror ⊢
      obtain ⟨h1, h2, h3⟩ := ih herror
      have hlen : (Filebuf.send write b l).log.length = b.log.length + 1 := by
        rw [hlog, List.length_append, List.length_singleton]
      rw [hlen] at h1 h2 h3
      rw [if_pos hall]
      refine ⟨?_, h2, ?_⟩
      · rw [h1, hresult, List.length_append, htake, accepted]
        omega
      · rw [h3, hlog, List.append_assoc, List.singleton_append]
    · rw [if_neg hall] at herror ⊢
      obtain ⟨h1, h2, h3⟩ := @foldl_send_closed write (Filebuf.send write b l) (by omega) ls
      rw [if_neg hall]
      refine ⟨?_, h2.trans herror, h3.trans hlog⟩
      rw [h1, hresult, List.flatMap_nil, List.append_nil, htake]

/-- Where nothing of a first block is taken, `error` is what its `write` returned. -/
theorem status_of_accepted_nil (hwrite : ∀ k bs, write k bs ≤ bs.length) {l : Text} {ls : List Text}
    (hl : l ≠ []) (h : accepted (sends write 0 (l :: ls)) = []) :
    status (sends write 0 (l :: ls)) = write 0 l := by
  rw [sends, accepted, List.flatMap_cons, List.append_eq_nil_iff] at h
  have hle := hwrite 0 l
  have hpos : 0 < l.length := List.length_pos_of_ne_nil hl
  have hnone : l.take (write 0 l).toNat = [] := h.1
  have htake := congrArg List.length hnone
  rw [List.length_take, List.length_nil] at htake
  have hne : write 0 l ≠ l.length := by omega
  rw [sends, status, if_neg hne]
  omega

/-- The writes of `vfprintf` are those of the blocks of its output. -/
theorem vfprintf_eq (str : Word → Text) (fmt : Text) (ap : Va) :
    vfprintf write str fmt ap =
      let b := ((blocks 256 ((vprintfmt str fmt ap).map char)).all).foldl (Filebuf.send write) ⟨[], 0, 1, []⟩
      (if b.result ≠ 0 then b.result else b.error, b.log) := by
  have hfold := @foldl_fputch write (vprintfmt str fmt ap) ⟨[], 0, 1, []⟩ ⟨[], 0, 1, []⟩ [] rfl
  rw [vfprintf, hfold, Blocks.all]
  by_cases hnil : (blocks 256 ((vprintfmt str fmt ap).map char)).pending = []
  · have hnil' : (((vprintfmt str fmt ap).map char).foldl (Blocks.push 256) ⟨[], []⟩).pending = [] := hnil
    simp only [hnil', hnil, if_true, List.length_nil, gt_iff_lt, Nat.lt_irrefl, if_false]
    rfl
  · have hpos : (((vprintfmt str fmt ap).map char).foldl (Blocks.push 256) ⟨[], []⟩).pending.length > 0 :=
      List.length_pos_of_ne_nil hnil
    rw [if_neg hnil, List.foldl_append]
    simp only [if_pos hpos]
    rfl

end

end SisOp.Printf
