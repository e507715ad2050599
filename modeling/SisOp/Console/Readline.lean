/-
# `SisOp.Console.Readline` — a line of input, and the same line on the screen

`readline` (`lib/readline.c`).  Its input is what `getchar` returns, call by call, and its
output is what it echoes.  `edit` is what a key does to the line that is being typed:
`readline_edits` is that the buffer is that line after any keys, and never more than the
buffer holds; `readline_on_screen` is that the cells before the cursor show it, whatever was
erased and however the screen has scrolled.
-/
import SisOp.Console.Screen

namespace SisOp.Console

open SisOp.Jos (Word Byte)
open SisOp.Printf (Text ch int bytes vprintfmt)

/-! ## The code -/

def BUFLEN : Nat := 1024

/-- `E_EOF` of `inc/error.h`. -/
def E_EOF : Int := 8

/-- `buf`, and how much of it is the line. -/
structure Line where
  buf : Nat → Byte
  i : Nat

/-- Where a turn of the loop leaves. -/
inductive Turn
  | next (l : Line)
  | null (l : Line)
  | ret (buf : Nat → Byte)

/-- One turn of the loop, with what `getchar` returned, and the calls of `cputchar` in it. -/
def turn (echoing : Bool) (l : Line) : Except Int Byte → Turn × List Word
  | .error c =>
    (.null l,
      if c ≠ -E_EOF then vprintfmt (fun _ => []) (bytes "read error: %e\n") fun _ => BitVec.ofInt 32 c else [])
  | .ok c =>
    if (c = ch '\x08' ∨ c = 0x7F) ∧ l.i > 0 then
      (.next { l with i := l.i - 1 }, if echoing then [int (ch '\x08')] else [])
    else if ch ' ' ≤ c ∧ l.i < BUFLEN - 1 then
      (.next ⟨Function.update l.buf l.i c, l.i + 1⟩, if echoing then [int c] else [])
    else if c = ch '\n' ∨ c = ch '\r' then
      (.ret (Function.update l.buf l.i 0), if echoing then [int (ch '\n')] else [])
    else (.next l, [])

/-- How the loop ends, or that it waits; what was echoed, and the input that is left. -/
structure Read where
  turn : Turn
  out : List Word
  rest : List (Except Int Byte)

/-- The loop. -/
def readlineFrom (echoing : Bool) (l : Line) : List (Except Int Byte) → Read
  | [] => ⟨.next l, [], []⟩
  | c :: keys =>
    match turn echoing l c with
    | (.next l', out) => { readlineFrom echoing l' keys with out := out ++ (readlineFrom echoing l' keys).out }
    | (t, out) => ⟨t, out, keys⟩

/-- `readline`, after its prompt. -/
def readline (echoing : Bool) (buf : Nat → Byte) (keys : List (Except Int Byte)) : Read :=
  readlineFrom echoing ⟨buf, 0⟩ keys

/-! ## Editing -/

/-- The two keys that take a character back. -/
def erases (c : Byte) : Bool := c = ch '\x08' ∨ c = 0x7F

/-- The two keys that end the line. -/
def ends (c : Byte) : Bool := c = ch '\n' ∨ c = ch '\r'

/-- What a key does to the line. -/
def edit (line : Text) (c : Byte) : Text :=
  if erases c ∧ line ≠ [] then line.dropLast
  else if ch ' ' ≤ c ∧ line.length < BUFLEN - 1 then line ++ [c]
  else line

/-- The line that the keys type. -/
def edited (keys : Text) : Text := keys.foldl edit []

/-- What is echoed for a key. -/
def echo (line : Text) (c : Byte) : List Word :=
  if erases c ∧ line ≠ [] then [int (ch '\x08')]
  else if ch ' ' ≤ c ∧ line.length < BUFLEN - 1 then [int c]
  else []

/-- What is echoed for some keys. -/
def echoes (line : Text) : Text → List Word
  | [] => []
  | c :: keys => echo line c ++ echoes (edit line c) keys

/-- The buffer holds the line. -/
structure Line.Holds (l : Line) (line : Text) : Prop where
  text : (List.range l.i).map l.buf = line
  room : l.i < BUFLEN
  printable : ∀ c ∈ line, ch ' ' ≤ c

/-- The buffer holds the line and a NUL behind it, and is what it was beyond its end. -/
structure Returned (buf buf' : Nat → Byte) (line : Text) : Prop where
  text : (List.range line.length).map buf' = line
  nul : buf' line.length = 0
  no_nul : 0 ∉ line
  room : line.length < BUFLEN
  beyond : ∀ j ≥ BUFLEN, buf' j = buf j

section

variable {l : Line} {line : Text}

theorem Line.Holds.length (h : l.Holds line) : l.i = line.length := by
  rw [← h.text, List.length_map, List.length_range]

theorem Line.Holds.nil (buf : Nat → Byte) : Line.Holds ⟨buf, 0⟩ [] :=
  ⟨rfl, Nat.zero_lt_of_lt (Nat.lt_succ_self 1023), fun _ h => absurd h List.not_mem_nil⟩

theorem map_update_range {buf : Nat → Byte} (i : Nat) (c : Byte) :
    (List.range i).map (Function.update buf i c) = (List.range i).map buf :=
  List.map_congr_left fun _ hj => Function.update_of_ne (List.mem_range.mp hj).ne ..

theorem Line.Holds.insert (h : l.Holds line) {c : Byte} (hc : ch ' ' ≤ c) (hroom : line.length < BUFLEN - 1) :
    Line.Holds ⟨Function.update l.buf l.i c, l.i + 1⟩ (line ++ [c]) where
  text := by
    rw [List.range_succ, List.map_append, map_update_range, h.text, List.map_singleton]
    exact congrArg (fun c => line ++ [c]) (Function.update_self ..)
  room := by
    have hi := h.length
    dsimp only
    omega
  printable c' hc' := by
    rcases List.mem_append.mp hc' with hold | hnew
    · exact h.printable c' hold
    · rw [List.mem_singleton.mp hnew]
      exact hc

theorem Line.Holds.erase (h : l.Holds line) : Line.Holds { l with i := l.i - 1 } line.dropLast where
  text := by
    have hrange : (List.range l.i).dropLast = List.range (l.i - 1) := by
      rw [List.dropLast_eq_take, List.length_range, List.take_range, Nat.min_eq_left (Nat.sub_le ..)]
    rw [← h.text, ← List.map_dropLast, hrange]
  room := (Nat.sub_le ..).trans_lt h.room
  printable c hc := h.printable c (List.dropLast_subset line hc)

/-- One key that does not end the line. -/
theorem turn_edit (h : l.Holds line) {c : Byte} (hc : ends c = false) :
    ∃ l', turn true l (.ok c) = (.next l', echo line c) ∧ l'.Holds (edit line c) ∧
      ∀ j ≥ BUFLEN, l'.buf j = l.buf j := by
  have hi := h.length
  have herases : ((c = ch '\x08' ∨ c = 0x7F) ∧ l.i > 0) ↔ (erases c = true ∧ line ≠ []) := by
    rw [hi, gt_iff_lt, List.length_pos_iff, erases, decide_eq_true_iff]
  have hroom : (ch ' ' ≤ c ∧ l.i < BUFLEN - 1) ↔ (ch ' ' ≤ c ∧ line.length < BUFLEN - 1) := by rw [hi]
  have hends : ¬ (c = ch '\n' ∨ c = ch '\r') := by simpa [ends] using hc
  rw [turn, echo, edit]
  by_cases he : erases c = true ∧ line ≠ []
  · rw [if_pos (herases.mpr he), if_pos he, if_pos he]
    exact ⟨_, rfl, h.erase, fun _ _ => rfl⟩
  · rw [if_neg (mt herases.mp he), if_neg he, if_neg he]
    by_cases hr : ch ' ' ≤ c ∧ line.length < BUFLEN - 1
    · rw [if_pos (hroom.mpr hr), if_pos hr, if_pos hr]
      refine ⟨_, rfl, h.insert hr.1 hr.2, fun j hj => Function.update_of_ne ?_ ..⟩
      have hlt := h.room
      omega
    · rw [if_neg (mt hroom.mp hr), if_neg hr, if_neg hr, if_neg hends]
      exact ⟨l, rfl, h, fun _ _ => rfl⟩

/-- A key that ends the line. -/
theorem turn_ends (l : Line) {c : Byte} (hc : ends c = true) :
    turn true l (.ok c) = (.ret (Function.update l.buf l.i 0), [int (ch '\n')]) := by
  have hends : c = ch '\n' ∨ c = ch '\r' := by simpa [ends] using hc
  have herases : ¬ ((c = ch '\x08' ∨ c = 0x7F) ∧ l.i > 0) := by
    rcases hends with rfl | rfl <;> exact fun he => absurd he.1 (by decide)
  have hroom : ¬ (ch ' ' ≤ c ∧ l.i < BUFLEN - 1) := by
    rcases hends with rfl | rfl <;> exact fun hr => absurd hr.1 (by decide)
  rw [turn, if_neg herases, if_neg hroom, if_pos hends]
  rfl

theorem Line.Holds.returned (h : l.Holds line) :
    Returned l.buf (Function.update l.buf l.i 0) line where
  text := by rw [← h.length, map_update_range, h.text]
  nul := by rw [← h.length, Function.update_self]
  no_nul hnul := absurd (h.printable 0 hnul) (by decide)
  room := h.length ▸ h.room
  beyond j hj := Function.update_of_ne (by have := h.room; omega) ..

/-- Any keys that do not end the line, with `more` typed behind them. -/
theorem readlineFrom_edits (h : l.Holds line) {keys : Text} (hkeys : ∀ c ∈ keys, ends c = false)
    (more : List (Except Int Byte)) :
    ∃ l', l'.Holds (keys.foldl edit line) ∧ (∀ j ≥ BUFLEN, l'.buf j = l.buf j) ∧
      readlineFrom true l (keys.map .ok ++ more) =
        { readlineFrom true l' more with out := echoes line keys ++ (readlineFrom true l' more).out } := by
  induction keys generalizing l line with
  | nil => exact ⟨l, h, fun _ _ => rfl, rfl⟩
  | cons c keys ih =>
    obtain ⟨l₁, hturn, hholds, hbeyond⟩ := turn_edit h (hkeys c List.mem_cons_self)
    obtain ⟨l', hholds', hbeyond', hread⟩ := ih hholds fun c hc => hkeys c (List.mem_cons_of_mem _ hc)
    refine ⟨l', hholds', fun j hj => (hbeyond' j hj).trans (hbeyond j hj), ?_⟩
    rw [List.map_cons, List.cons_append, readlineFrom, hturn]
    dsimp only
    rw [hread, echoes, List.append_assoc]

end

/-- The keys of a line that is not ended yet: the buffer is what they type, and what is typed on
is read on from there. -/
theorem readline_edits (buf : Nat → Byte) {keys : Text} (hkeys : ∀ c ∈ keys, ends c = false) :
    ∃ l : Line, l.Holds (edited keys) ∧ (∀ j ≥ BUFLEN, l.buf j = buf j) ∧
      readline true buf (keys.map .ok) = ⟨.next l, echoes [] keys, []⟩ := by
  obtain ⟨l, hholds, hbeyond, hread⟩ := readlineFrom_edits (Line.Holds.nil buf) hkeys []
  refine ⟨l, hholds, hbeyond, ?_⟩
  rw [readline, ← List.append_nil (keys.map Except.ok), hread, readlineFrom, List.append_nil]

/-- The key that ends the line: it is returned, and the rest of the input is left. -/
theorem readline_returns (buf : Nat → Byte) {keys : Text} (hkeys : ∀ c ∈ keys, ends c = false) {c : Byte}
    (hc : ends c = true) (more : List (Except Int Byte)) :
    ∃ buf', Returned buf buf' (edited keys) ∧
      readline true buf (keys.map .ok ++ .ok c :: more) = ⟨.ret buf', echoes [] keys ++ [int (ch '\n')], more⟩ := by
  obtain ⟨l, hholds, hbeyond, hread⟩ := readlineFrom_edits (Line.Holds.nil buf) hkeys (.ok c :: more)
  have hret := hholds.returned
  refine ⟨_, { hret with beyond := fun j hj => (hret.beyond j hj).trans (hbeyond j hj) }, ?_⟩
  rw [readline, hread, readlineFrom, turn_ends l hc]

/-! ## The screen -/

/-- A character that writes, and no control character but the newline. -/
def Writes (c : Word) : Prop :=
  (withAttribute c).setWidth 8 ≠ ch '\x08' ∧ (withAttribute c).setWidth 8 ≠ ch '\r' ∧
    (withAttribute c).setWidth 8 ≠ ch '\t'

/-- A character on a page that does not care which rows are on the screen. -/
def Page.type (p : Page) (c : Word) : Page :=
  if (withAttribute c).setWidth 8 = ch '\n' then { p with pos := p.pos / CRT_COLS * CRT_COLS + CRT_COLS }
  else p.write c

/-- The same page, but for the rows that are on the screen. -/
structure Page.Like (q p : Page) : Prop where
  cells : q.cells = p.cells
  pos : q.pos = p.pos

/-- Nothing is on the page from the cursor on. -/
def Page.Fresh (p : Page) : Prop := ∀ i ≥ p.pos, p.cells i = blank

section

variable {p q : Page} {s : Screen}

theorem Page.Like.advance (h : q.Like p) : q.advance.Like p := by
  unfold Page.advance
  split
  · exact ⟨h.cells, h.pos⟩
  · exact h

theorem Page.Like.write (h : q.Like p) (c : Word) : (q.write c).Like (p.write c) := by
  refine ⟨?_, ?_⟩
  · simp only [Page.write, h.cells, h.pos]
  · simp only [Page.write, h.pos]

/-- A character that writes. -/
theorem putc_type (q : Page) {c : Word} (hc : Writes c) : q.putc c = (q.type c).advance := by
  by_cases hnl : (withAttribute c).setWidth 8 = ch '\n'
  · simp only [Page.putc, Page.type, hnl, if_true]
    rfl
  · simp only [Page.putc, Page.type, if_neg hnl, if_neg hc.1, if_neg hc.2.1, if_neg hc.2.2]

theorem Page.Like.type (h : q.Like p) (c : Word) : (q.type c).Like (p.type c) := by
  unfold Page.type
  split
  · exact ⟨h.cells, by rw [h.pos]⟩
  · exact h.write c

theorem Page.Like.print (h : q.Like p) {text : List Word} (htext : ∀ c ∈ text, Writes c) :
    (text.foldl Page.putc q).Like (text.foldl Page.type p) := by
  induction text generalizing q p with
  | nil => exact h
  | cons c text ih =>
    have hstep : (q.putc c).Like (p.type c) := by
      rw [putc_type q (htext c List.mem_cons_self)]
      exact (h.type c).advance
    exact ih hstep fun c hc => htext c (List.mem_cons_of_mem _ hc)

theorem Page.Fresh.write (h : p.Fresh) (c : Word) : (p.write c).Fresh := by
  intro i hi
  have hne : i ≠ p.pos := (Nat.lt_of_lt_of_le (Nat.lt_succ_self p.pos) hi).ne'
  exact (Function.update_of_ne hne ..).trans (h i ((Nat.le_succ _).trans hi))

theorem Page.Fresh.type (h : p.Fresh) (c : Word) : (p.type c).Fresh := by
  unfold Page.type
  split
  · intro i hi
    have hdiv := Nat.div_add_mod p.pos CRT_COLS
    refine h i ?_
    simp only [CRT_COLS] at *
    omega
  · exact h.write c

theorem Page.Fresh.print (h : p.Fresh) (text : List Word) : (text.foldl Page.type p).Fresh := by
  induction text generalizing p with
  | nil => exact h
  | cons c text ih => exact ih (h.type c)

theorem Page.Fresh.like (h : p.Fresh) (hq : q.Like p) : q.Fresh := fun i hi => by
  rw [hq.cells]
  exact h i (hq.pos ▸ hi)

/-! ### The line -/

theorem low_int : ∀ c : Byte, (withAttribute (int c)).setWidth 8 = c := by decide +kernel

theorem printable_writes : ∀ c : Byte, ch ' ' ≤ c →
    c ≠ ch '\x08' ∧ c ≠ ch '\r' ∧ c ≠ ch '\t' ∧ c ≠ ch '\n' := by
  decide +kernel

theorem writes_int {c : Byte} (h : ch ' ' ≤ c) : Writes (int c) := by
  obtain ⟨hb, hr, ht, -⟩ := printable_writes c h
  rw [Writes, low_int]
  exact ⟨hb, hr, ht⟩

theorem type_int {c : Byte} (h : ch ' ' ≤ c) (p : Page) : p.type (int c) = p.write (int c) :=
  if_neg (by rw [low_int]; exact (printable_writes c h).2.2.2)

/-- The line has been typed on `p`, and its first character is still on the screen. -/
structure Typed (p : Page) (line : Text) (q : Page) : Prop where
  like : q.Like ((line.map int).foldl Page.type p)
  top : CRT_COLS * q.top ≤ p.pos

theorem foldl_type_pos {line : Text} (h : ∀ c ∈ line, ch ' ' ≤ c) (p : Page) :
    ((line.map int).foldl Page.type p).pos = p.pos + line.length := by
  induction line generalizing p with
  | nil => rfl
  | cons c line ih =>
    rw [List.map_cons, List.foldl_cons, ih fun c hc => h c (List.mem_cons_of_mem _ hc),
      type_int (h c List.mem_cons_self), List.length_cons]
    exact Nat.succ_add_eq_add_succ ..

theorem Typed.nil (h : Shows s p) : Typed p [] p := ⟨⟨rfl, rfl⟩, h.above⟩

/-- A line is too short for its start to leave the screen. -/
theorem advance_top {pos : Nat} (hpos : q.pos ≤ pos + BUFLEN) (htop : CRT_COLS * q.top ≤ pos) :
    CRT_COLS * q.advance.top ≤ pos := by
  unfold Page.advance
  split
  case isTrue hfull =>
    simp only [CRT_COLS, CRT_ROWS, BUFLEN] at *
    omega
  case isFalse => exact htop

/-- A character more. -/
theorem Typed.insert {line : Text} (h : Typed p line q) (hline : ∀ c ∈ line, ch ' ' ≤ c)
    (hroom : line.length < BUFLEN - 1) {c : Byte} (hc : ch ' ' ≤ c) :
    Typed p (line ++ [c]) (q.putc (int c)) := by
  have hpos := h.like.pos.trans (foldl_type_pos hline p)
  have htop := h.top
  refine ⟨?_, ?_⟩
  · rw [List.map_append, List.foldl_append]
    exact h.like.print fun c' hc' => by
      rw [List.mem_singleton.mp hc']
      exact writes_int hc
  · rw [putc_type q (writes_int hc), type_int hc]
    refine advance_top ?_ htop
    simp only [Page.write]
    omega

/-- The last character is taken back. -/
theorem Typed.erase {line : Text} (h : Typed p line q) (hline : ∀ c ∈ line, ch ' ' ≤ c) (hne : line ≠ [])
    (hroom : line.length < BUFLEN) (hfresh : p.Fresh) : Typed p line.dropLast (q.putc (int (ch '\x08'))) := by
  have hpos := h.like.pos.trans (foldl_type_pos hline p)
  have htop := h.top
  have hlen := List.length_pos_iff.mpr hne
  have hback : q.pos > CRT_COLS * q.top := by omega
  have hlow : (withAttribute (int (ch '\x08'))).setWidth 8 = ch '\x08' := low_int _
  have hputc : q.putc (int (ch '\x08')) = Page.advance
      { q with cells := Function.update q.cells (q.pos - 1) blank, pos := q.pos - 1 } := by
    simp only [Page.putc, hlow, if_true, if_pos hback]
    rfl
  -- the page before the last character was blank where it was written
  obtain ⟨init, c, rfl⟩ : ∃ init c, line = init ++ [c] :=
    ⟨line.dropLast, line.getLast hne, (List.dropLast_concat_getLast hne).symm⟩
  have hinit : ∀ c ∈ init, ch ' ' ≤ c := fun c hc => hline c (List.mem_append_left _ hc)
  have hc : ch ' ' ≤ c := hline c (List.mem_append_right _ (List.mem_singleton.mpr rfl))
  have hq : q.Like (((init.map int).foldl Page.type p).write (int c)) := by
    have hlike := h.like
    rwa [List.map_append, List.foldl_append, List.map_singleton, List.foldl_cons, List.foldl_nil, type_int hc]
      at hlike
  have hblank : ((init.map int).foldl Page.type p).cells ((init.map int).foldl Page.type p).pos = blank :=
    hfresh.print _ _ (Nat.le_refl _)
  have hq1 : q.pos - 1 = ((init.map int).foldl Page.type p).pos := by
    rw [hq.pos]
    rfl
  rw [List.dropLast_concat, hputc]
  refine ⟨Page.Like.advance ⟨?_, hq1⟩, ?_⟩
  · dsimp only
    rw [hq1, hq.cells]
    simp only [Page.write]
    rw [Function.update_idem, ← hblank, Function.update_eq_self]
  · refine advance_top ?_ htop
    dsimp only
    omega

/-- What any line that was typed is. -/
structure Fits (line : Text) : Prop where
  printable : ∀ c ∈ line, ch ' ' ≤ c
  room : line.length < BUFLEN

theorem Fits.nil : Fits [] := ⟨fun _ h => absurd h List.not_mem_nil, Nat.zero_lt_of_lt (Nat.lt_succ_self 1023)⟩

theorem Fits.edit {line : Text} (h : Fits line) (c : Byte) : Fits (edit line c) := by
  unfold Console.edit
  split
  case isTrue =>
    refine ⟨fun c hc => h.printable c (List.dropLast_subset line hc), ?_⟩
    rw [List.length_dropLast]
    exact (Nat.sub_le ..).trans_lt h.room
  case isFalse =>
    split
    case isTrue hc =>
      refine ⟨fun c' hc' => ?_, ?_⟩
      · rcases List.mem_append.mp hc' with hold | hnew
        · exact h.printable c' hold
        · rw [List.mem_singleton.mp hnew]
          exact hc.1
      · rw [List.length_append, List.length_singleton]
        omega
    case isFalse => exact h

theorem fits_edited (keys : Text) : Fits (edited keys) := by
  suffices ∀ line, Fits line → Fits (keys.foldl Console.edit line) from this [] Fits.nil
  induction keys with
  | nil => exact fun _ h => h
  | cons c keys ih => exact fun line h => ih _ (h.edit c)

theorem Typed.echo {line : Text} (h : Typed p line q) (hfits : Fits line) (hfresh : p.Fresh) (c : Byte) :
    Typed p (Console.edit line c) ((Console.echo line c).foldl Page.putc q) := by
  unfold Console.edit Console.echo
  by_cases he : erases c = true ∧ line ≠ []
  · rw [if_pos he, if_pos he]
    exact h.erase hfits.printable he.2 hfits.room hfresh
  · rw [if_neg he, if_neg he]
    by_cases hr : ch ' ' ≤ c ∧ line.length < BUFLEN - 1
    · rw [if_pos hr, if_pos hr]
      exact h.insert hfits.printable hr.2 hr.1
    · rw [if_neg hr, if_neg hr]
      exact h

theorem Typed.echoes {line : Text} (h : Typed p line q) (hfits : Fits line) (hfresh : p.Fresh) (keys : Text) :
    Typed p (keys.foldl Console.edit line) ((Console.echoes line keys).foldl Page.putc q) := by
  induction keys generalizing q line with
  | nil => exact h
  | cons c keys ih =>
    rw [Console.echoes, List.foldl_append]
    exact ih (h.echo hfits hfresh c) (hfits.edit c)

/-! ### What the user sees -/

/-- `0x0700 | c`. -/
def glyph (c : Byte) : Cell := 0x0700 ||| c.setWidth 16

theorem attribute_int : ∀ c : Byte, (withAttribute (int c)).setWidth 16 = glyph c := by decide +kernel

/-- What is before the cursor stays. -/
theorem foldl_type_before {line : Text} (h : ∀ c ∈ line, ch ' ' ≤ c) (p : Page) {i : Nat} (hi : i < p.pos) :
    ((line.map int).foldl Page.type p).cells i = p.cells i := by
  induction line generalizing p with
  | nil => rfl
  | cons c line ih =>
    rw [List.map_cons, List.foldl_cons, type_int (h c List.mem_cons_self)]
    refine (ih (fun c hc => h c (List.mem_cons_of_mem _ hc)) _ (hi.trans (Nat.lt_succ_self _))).trans ?_
    exact Function.update_of_ne hi.ne ..

/-- The line is in the cells from the cursor on. -/
theorem foldl_type_cells {cs : Text} (h : ∀ c ∈ cs, ch ' ' ≤ c) (p : Page) {j : Nat} {c : Byte}
    (hj : cs[j]? = some c) : ((cs.map int).foldl Page.type p).cells (p.pos + j) = glyph c := by
  induction cs generalizing p j with
  | nil => simp at hj
  | cons b cs ih =>
    have hline : ∀ c ∈ cs, ch ' ' ≤ c := fun c hc => h c (List.mem_cons_of_mem _ hc)
    rw [List.map_cons, List.foldl_cons, type_int (h b List.mem_cons_self)]
    cases j with
    | zero =>
      rw [List.getElem?_cons_zero, Option.some_inj] at hj
      rw [foldl_type_before hline _ (Nat.lt_succ_self _), ← hj, ← attribute_int]
      exact Function.update_self ..
    | succ j =>
      rw [List.getElem?_cons_succ] at hj
      have hcell := ih hline (p.write (int b)) hj
      rwa [show (p.write (int b)).pos + j = p.pos + (j + 1) from Nat.succ_add_eq_add_succ ..] at hcell

theorem Line.Holds.get {l : Line} {cs : Text} (h : l.Holds cs) {j : Nat} (hj : j < l.i) :
    cs[j]? = some (l.buf j) := by
  rw [← h.text, List.getElem?_map, List.getElem?_range hj]
  rfl

theorem fresh_pageOf (hfresh : ∀ i, s.crt_pos ≤ i → i < CRT_SIZE → s.crt_buf i = blank) : (pageOf s).Fresh := by
  intro i hi
  by_cases hsize : i < CRT_SIZE
  · exact (if_pos hsize).trans (hfresh i hi hsize)
  · exact if_neg hsize

/-- What the user sees is what the buffer holds: after any keys, the cells before the cursor are
those of `buf[0]` to `buf[i - 1]`, the cells from it on are blank, and the memory behind
`crt_buf` and behind `buf` is as it was. -/
theorem readline_on_screen (hpos : s.crt_pos < CRT_SIZE)
    (hfresh : ∀ i, s.crt_pos ≤ i → i < CRT_SIZE → s.crt_buf i = blank) (buf : Nat → Byte) {keys : Text}
    (hkeys : ∀ c ∈ keys, ends c = false) :
    ∃ l out, readline true buf (keys.map .ok) = ⟨.next l, out, []⟩ ∧
      l.Holds (edited keys) ∧ (∀ j ≥ BUFLEN, l.buf j = buf j) ∧
      l.i ≤ (out.foldl cons_putc s).crt_pos ∧ (out.foldl cons_putc s).crt_pos < CRT_SIZE ∧
      (∀ j < l.i, (out.foldl cons_putc s).crt_buf ((out.foldl cons_putc s).crt_pos - l.i + j) = glyph (l.buf j)) ∧
      (∀ j, (out.foldl cons_putc s).crt_pos ≤ j → j < CRT_SIZE → (out.foldl cons_putc s).crt_buf j = blank) ∧
      Frame s (out.foldl cons_putc s) (out.flatMap portBytes) := by
  obtain ⟨l, hholds, hbeyond, hread⟩ := readline_edits buf hkeys
  have hshows := shows_pageOf hpos
  have hfits := fits_edited keys
  have hpage : (pageOf s).Fresh := fresh_pageOf hfresh
  have htyped : Typed (pageOf s) (edited keys) ((echoes [] keys).foldl Page.putc (pageOf s)) :=
    (Typed.nil hshows).echoes Fits.nil hpage keys
  have hs := shows_print hshows (echoes [] keys)
  generalize (echoes [] keys).foldl Page.putc (pageOf s) = q at htyped hs
  have hqpos : q.pos = (pageOf s).pos + l.i :=
    hholds.length ▸ htyped.like.pos.trans (foldl_type_pos hfits.printable _)
  have hcursor := hs.cursor
  have htop := htyped.top
  have hlt := hs.pos_lt
  refine ⟨l, _, hread, hholds, hbeyond, by omega, hlt, fun j hj => ?_, fun j hj hsize => ?_, frame_print hshows _⟩
  · have hcell : CRT_COLS * q.top + (((echoes [] keys).foldl cons_putc s).crt_pos - l.i + j) = (pageOf s).pos + j := by
      omega
    rw [hs.cells _ (by omega), hcell, htyped.like.cells]
    exact foldl_type_cells hfits.printable _ (hholds.get hj)
  · rw [hs.cells j hsize]
    refine (hpage.print _).like htyped.like _ ?_
    omega

end

/-- A cleared screen, a key, and the key that takes it back. -/
theorem readline_on_screen_back :
    ∃ l out, readline true (fun _ => 0) ([ch 'a', ch '\x08'].map .ok) = ⟨.next l, out, []⟩ ∧ l.Holds [] := by
  obtain ⟨l, out, hread, hholds, -⟩ := @readline_on_screen ⟨fun _ => blank, 0, [], []⟩ (by decide)
    (fun _ _ _ => rfl) (fun _ => 0) [ch 'a', ch '\x08'] (by decide)
  exact ⟨l, out, hread, hholds⟩

end SisOp.Console
