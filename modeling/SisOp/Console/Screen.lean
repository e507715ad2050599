/-
# `SisOp.Console.Screen` — the text screen as a window on an endless page

`cga_putc` and `cons_putc` (`kern/console.c`).  The driver keeps 25 rows of 80 cells and
copies them up by a row when the cursor leaves the last one.  `Page` is what that is for:
a page without end, written once, of which the screen shows the rows from `top` on.
`shows_putc` is one character and `shows_print` any text: the screen always shows the
page's window, the cursor stays in it, and no other memory is written.
-/
import SisOp.Printf.Format
import Mathlib.Logic.Function.Basic
import Mathlib.Tactic.Ring

namespace SisOp.Console

open SisOp.Jos (Word Byte)
open SisOp.Printf (ch)

/-- A character cell: attribute and character. -/
abbrev Cell := BitVec 16

def CRT_ROWS : Nat := 25
def CRT_COLS : Nat := 80
def CRT_SIZE : Nat := CRT_ROWS * CRT_COLS

/-- `0x0700 | ' '`. -/
def blank : Cell := 0x0720

/-! ## The driver -/

/-- `crt_buf` and the memory behind it, `crt_pos`, and the bytes sent to the two ports. -/
structure Screen where
  crt_buf : Nat → Cell
  crt_pos : Nat
  serial : List Byte
  lpt : List Byte

/-- If no withAttribute given, then black on white. -/
def withAttribute (c : Word) : Word := if c &&& ~~~0xFF#32 = 0 then c ||| 0x0700 else c

/-- `(c & ~0xff) | ' '`, in a cell. -/
def erased (c : Word) : Cell := ((c &&& ~~~0xFF#32) ||| 0x20).setWidth 16

/-- A store to `crt_buf[i]`. -/
def Screen.set (s : Screen) (i : Nat) (cell : Cell) : Screen :=
  { s with crt_buf := Function.update s.crt_buf i cell }

/-- The rows move up by one, and the last one is blank; `crt_pos` is 16 bits wide. -/
def scroll (s : Screen) : Screen :=
  if s.crt_pos ≥ CRT_SIZE then
    { s with
      crt_buf := fun i =>
        if i < CRT_SIZE - CRT_COLS then s.crt_buf (i + CRT_COLS)
        else if i < CRT_SIZE then blank else s.crt_buf i
      crt_pos := (s.crt_pos + 2 ^ 16 - CRT_COLS) % 2 ^ 16 }
  else s

/-- `cga_putc(c)`; `space` is the call `cons_putc(' ')` of the case `'\t'`. -/
def cga_putc (space : Screen → Screen) (s : Screen) (c : Word) : Screen :=
  let c := withAttribute c
  let low : Byte := c.setWidth 8
  scroll <|
    if low = ch '\x08' then
      if s.crt_pos > 0 then { s.set (s.crt_pos - 1) (erased c) with crt_pos := s.crt_pos - 1 } else s
    else if low = ch '\n' then
      let pos := (s.crt_pos + CRT_COLS) % 2 ^ 16
      { s with crt_pos := pos - pos % CRT_COLS }
    else if low = ch '\r' then { s with crt_pos := s.crt_pos - s.crt_pos % CRT_COLS }
    else if low = ch '\t' then space (space (space (space (space s))))
    else { s.set s.crt_pos (c.setWidth 16) with crt_pos := (s.crt_pos + 1) % 2 ^ 16 }

/-- `serial_putc(c)` and `lpt_putc(c)`. -/
def Screen.send (s : Screen) (c : Word) : Screen :=
  { s with serial := s.serial ++ [c.setWidth 8], lpt := s.lpt ++ [c.setWidth 8] }

/-- `cons_putc(' ')`, which is no tab. -/
def putSpace (s : Screen) : Screen := cga_putc id (s.send 0x20) 0x20

/-- `cons_putc(c)`, which is `cputchar(c)`. -/
def cons_putc (s : Screen) (c : Word) : Screen := cga_putc putSpace (s.send c) c

/-! ## The page -/

/-- Cells without end, the cursor, and how many rows are above the screen. -/
structure Page where
  cells : Nat → Cell
  pos : Nat
  top : Nat

/-- The cursor has left the last row: one more row is above the screen. -/
def Page.advance (p : Page) : Page :=
  if p.pos ≥ CRT_COLS * (p.top + CRT_ROWS) then { p with top := p.top + 1 } else p

/-- A character, in black on white unless it says otherwise, where the cursor is. -/
def Page.write (p : Page) (c : Word) : Page :=
  { p with cells := Function.update p.cells p.pos ((withAttribute c).setWidth 16), pos := p.pos + 1 }

/-- One character on the page. -/
def Page.putc (p : Page) (c : Word) : Page :=
  let low : Byte := (withAttribute c).setWidth 8
  Page.advance <|
    if low = ch '\x08' then
      if p.pos > CRT_COLS * p.top then
        { p with cells := Function.update p.cells (p.pos - 1) (erased (withAttribute c)), pos := p.pos - 1 }
      else p
    else if low = ch '\n' then { p with pos := p.pos / CRT_COLS * CRT_COLS + CRT_COLS }
    else if low = ch '\r' then { p with pos := p.pos / CRT_COLS * CRT_COLS }
    else if low = ch '\t' then
      let space := fun p : Page => (p.write 0x20).advance
      space (space (space (space (space p))))
    else p.write c

/-- The screen `s` shows the rows of `p` from `top` on; below the cursor's window the page is
blank. -/
structure Shows (s : Screen) (p : Page) : Prop where
  above : CRT_COLS * p.top ≤ p.pos
  below : p.pos < CRT_COLS * (p.top + CRT_ROWS)
  cursor : s.crt_pos + CRT_COLS * p.top = p.pos
  cells : ∀ i < CRT_SIZE, s.crt_buf i = p.cells (CRT_COLS * p.top + i)
  blank : ∀ i, CRT_COLS * (p.top + CRT_ROWS) ≤ i → p.cells i = blank

/-- The same, before the test whether the cursor has left the last row. -/
structure Before (s : Screen) (p : Page) : Prop where
  above : CRT_COLS * p.top ≤ p.pos
  below : p.pos < CRT_COLS * (p.top + CRT_ROWS) + CRT_COLS
  cursor : s.crt_pos + CRT_COLS * p.top = p.pos
  cells : ∀ i < CRT_SIZE, s.crt_buf i = p.cells (CRT_COLS * p.top + i)
  blank : ∀ i, CRT_COLS * (p.top + CRT_ROWS) ≤ i → p.cells i = blank

section

variable {s : Screen} {p : Page}

theorem Shows.before (h : Shows s p) : Before s p :=
  ⟨h.above, h.below.trans (Nat.lt_add_of_pos_right (by decide)), h.cursor, h.cells, h.blank⟩

theorem Shows.pos_lt (h : Shows s p) : s.crt_pos < CRT_SIZE := by
  have hb := h.below
  have hc := h.cursor
  simp only [CRT_SIZE, CRT_COLS, CRT_ROWS] at *
  omega

/-- Copying the rows up is moving the window down. -/
theorem Before.scroll (h : Before s p) : Shows (scroll s) p.advance := by
  have ha := h.above
  have hb := h.below
  have hc := h.cursor
  by_cases hfull : s.crt_pos ≥ CRT_SIZE
  · have hpage : p.pos ≥ CRT_COLS * (p.top + CRT_ROWS) := by
      simp only [CRT_SIZE, CRT_COLS, CRT_ROWS] at *
      omega
    rw [Console.scroll, if_pos hfull, Page.advance, if_pos hpage]
    refine ⟨?_, ?_, ?_, fun i hi => ?_, fun i hi => h.blank i ?_⟩
    · simp only [CRT_COLS, CRT_ROWS] at *
      omega
    · simp only [CRT_COLS, CRT_ROWS] at *
      omega
    · simp only [CRT_SIZE, CRT_COLS, CRT_ROWS] at *
      omega
    · dsimp only
      split
      case isTrue hlt =>
        rw [h.cells (i + CRT_COLS) (by simp only [CRT_SIZE, CRT_COLS, CRT_ROWS] at *; omega)]
        congr 1
        ring
      case isFalse hge =>
        rw [h.blank]
        simp only [CRT_SIZE, CRT_COLS, CRT_ROWS] at *
        omega
    · simp only [CRT_COLS, CRT_ROWS] at *
      omega
  · have hpage : ¬ p.pos ≥ CRT_COLS * (p.top + CRT_ROWS) := by
      simp only [CRT_SIZE, CRT_COLS, CRT_ROWS] at *
      omega
    rw [Console.scroll, if_neg hfull, Page.advance, if_neg hpage]
    exact ⟨ha, by omega, hc, h.cells, h.blank⟩

theorem Shows.send (h : Shows s p) (c : Word) : Shows (s.send c) p :=
  ⟨h.above, h.below, h.cursor, h.cells, h.blank⟩

/-! ## One character -/

/-- A character in the cell of the cursor. -/
theorem Shows.write (h : Shows s p) (c : Word) :
    Before { s.set s.crt_pos ((withAttribute c).setWidth 16) with crt_pos := (s.crt_pos + 1) % 2 ^ 16 }
      (p.write c) := by
  have ha := h.above
  have hb := h.below
  have hc := h.cursor
  have hlt := h.pos_lt
  refine ⟨?_, ?_, ?_, fun i hi => ?_, fun i hi => ?_⟩
  · exact ha.trans (Nat.le_succ _)
  · simp only [Page.write, CRT_COLS, CRT_ROWS] at *
    omega
  · simp only [Page.write, CRT_SIZE, CRT_COLS, CRT_ROWS] at *
    omega
  · by_cases hhere : i = s.crt_pos
    · have hpage : CRT_COLS * p.top + i = p.pos := by omega
      simp only [Page.write, Screen.set]
      rw [hpage, hhere, Function.update_self, Function.update_self]
    · have hpage : CRT_COLS * p.top + i ≠ p.pos := by omega
      simp only [Page.write, Screen.set]
      rw [Function.update_of_ne hhere, Function.update_of_ne hpage]
      exact h.cells i hi
  · have hne : i ≠ p.pos := by
      simp only [Page.write] at hi
      omega
    simp only [Page.write]
    rw [Function.update_of_ne hne]
    exact h.blank i hi

/-- The cursor goes back and erases. -/
theorem Shows.erase (h : Shows s p) (hpos : s.crt_pos > 0) (cell : Cell) :
    Before { s.set (s.crt_pos - 1) cell with crt_pos := s.crt_pos - 1 }
      { p with cells := Function.update p.cells (p.pos - 1) cell, pos := p.pos - 1 } := by
  have ha := h.above
  have hb := h.below
  have hc := h.cursor
  have hlt := h.pos_lt
  refine ⟨?_, ?_, ?_, fun i hi => ?_, fun i hi => ?_⟩
  · dsimp only
    omega
  · dsimp only
    omega
  · dsimp only
    omega
  · by_cases hhere : i = s.crt_pos - 1
    · have hpage : CRT_COLS * p.top + i = p.pos - 1 := by omega
      simp only [Screen.set]
      rw [hpage, hhere, Function.update_self, Function.update_self]
    · have hpage : CRT_COLS * p.top + i ≠ p.pos - 1 := by omega
      simp only [Screen.set]
      rw [Function.update_of_ne hhere, Function.update_of_ne hpage]
      exact h.cells i hi
  · have hne : i ≠ p.pos - 1 := by
      dsimp only at hi
      omega
    dsimp only
    rw [Function.update_of_ne hne]
    exact h.blank i hi

/-- The cursor moves within the window, or to the row below it. -/
theorem Shows.move (h : Shows s p) {pos pos' : Nat} (ha : CRT_COLS * p.top ≤ pos')
    (hb : pos' < CRT_COLS * (p.top + CRT_ROWS) + CRT_COLS) (hc : pos + CRT_COLS * p.top = pos') :
    Before { s with crt_pos := pos } { p with pos := pos' } :=
  ⟨ha, hb, hc, h.cells, h.blank⟩

/-- `cons_putc` of a character that is none of the four control characters. -/
theorem shows_plain (h : Shows s p) {c : Word} (space : Screen → Screen)
    (h1 : (withAttribute c).setWidth 8 ≠ ch '\x08') (h2 : (withAttribute c).setWidth 8 ≠ ch '\n')
    (h3 : (withAttribute c).setWidth 8 ≠ ch '\r') (h4 : (withAttribute c).setWidth 8 ≠ ch '\t') :
    Shows (cga_putc space s c) (p.write c).advance := by
  simp only [cga_putc, if_neg h1, if_neg h2, if_neg h3, if_neg h4]
  exact (h.write c).scroll

theorem shows_space (h : Shows s p) : Shows (putSpace s) (p.write 0x20).advance :=
  shows_plain (h.send 0x20) id (by decide) (by decide) (by decide) (by decide)

/-- One character on the screen is one character on the page. -/
theorem shows_putc (h : Shows s p) (c : Word) : Shows (cons_putc s c) (p.putc c) := by
  have hsend := h.send c
  have ha := h.above
  have hb := h.below
  have hc := h.cursor
  have hlt := h.pos_lt
  have hdiv := Nat.div_add_mod p.pos CRT_COLS
  rw [cons_putc, cga_putc, Page.putc]
  by_cases h1 : (withAttribute c).setWidth 8 = ch '\x08'
  · simp only [if_pos h1]
    refine Before.scroll ?_
    by_cases hpos : s.crt_pos > 0
    · rw [if_pos (by exact hpos), if_pos (by omega)]
      exact hsend.erase hpos _
    · rw [if_neg (by exact hpos), if_neg (by omega)]
      exact hsend.before
  by_cases h2 : (withAttribute c).setWidth 8 = ch '\n'
  · simp only [if_neg h1, if_pos h2]
    refine (hsend.move ?_ ?_ ?_).scroll
    all_goals
      simp only [Screen.send, CRT_SIZE, CRT_COLS, CRT_ROWS] at *
      omega
  by_cases h3 : (withAttribute c).setWidth 8 = ch '\r'
  · simp only [if_neg h1, if_neg h2, if_pos h3]
    refine (hsend.move ?_ ?_ ?_).scroll
    all_goals
      simp only [Screen.send, CRT_SIZE, CRT_COLS, CRT_ROWS] at *
      omega
  by_cases h4 : (withAttribute c).setWidth 8 = ch '\t'
  · simp only [if_neg h1, if_neg h2, if_neg h3, if_pos h4]
    exact (shows_space (shows_space (shows_space (shows_space (shows_space hsend))))).before.scroll
  · simp only [if_neg h1, if_neg h2, if_neg h3, if_neg h4]
    exact (hsend.write c).scroll

/-- Any text: the screen shows the page's window, and its cursor. -/
theorem shows_print (h : Shows s p) (text : List Word) :
    Shows (text.foldl cons_putc s) (text.foldl Page.putc p) := by
  induction text generalizing s p with
  | nil => exact h
  | cons c text ih => exact ih (shows_putc h c)

/-! ## What else is written -/

/-- `s'` differs from `s` in the cells of the screen, and in what `bytes` the ports were sent. -/
structure Frame (s s' : Screen) (bytes : List Byte) : Prop where
  cells : ∀ i ≥ CRT_SIZE, s'.crt_buf i = s.crt_buf i
  serial : s'.serial = s.serial ++ bytes
  lpt : s'.lpt = s.lpt ++ bytes

theorem Frame.refl (s : Screen) : Frame s s [] :=
  ⟨fun _ _ => rfl, (List.append_nil _).symm, (List.append_nil _).symm⟩

theorem Frame.trans {s s' s'' : Screen} {b b' : List Byte} (h : Frame s s' b) (h' : Frame s' s'' b') :
    Frame s s'' (b ++ b') where
  cells i hi := (h'.cells i hi).trans (h.cells i hi)
  serial := by rw [h'.serial, h.serial, List.append_assoc]
  lpt := by rw [h'.lpt, h.lpt, List.append_assoc]

theorem frame_send (s : Screen) (c : Word) : Frame s (s.send c) [c.setWidth 8] :=
  ⟨fun _ _ => rfl, rfl, rfl⟩

theorem frame_scroll (s : Screen) : Frame s (scroll s) [] := by
  unfold scroll
  split
  case isTrue =>
    refine ⟨fun i hi => ?_, (List.append_nil _).symm, (List.append_nil _).symm⟩
    dsimp only
    rw [if_neg (by simp only [CRT_SIZE, CRT_COLS, CRT_ROWS] at *; omega), if_neg (by omega)]
  case isFalse => exact Frame.refl s

/-- A store inside the screen. -/
theorem frame_set {i : Nat} (hi : i < CRT_SIZE) (cell : Cell) (pos : Nat) :
    Frame s { s.set i cell with crt_pos := pos } [] :=
  ⟨fun j hj => Function.update_of_ne (by omega) .., (List.append_nil _).symm, (List.append_nil _).symm⟩

theorem frame_move (s : Screen) (pos : Nat) : Frame s { s with crt_pos := pos } [] :=
  ⟨fun _ _ => rfl, (List.append_nil _).symm, (List.append_nil _).symm⟩

theorem frame_space (h : Shows s p) : Frame s (putSpace s) [0x20] :=
  ((frame_send s 0x20).trans (frame_set (h.send 0x20).pos_lt _ _)).trans (frame_scroll _)

/-- The bytes `cons_putc(c)` sends to each port. -/
def portBytes (c : Word) : List Byte :=
  c.setWidth 8 :: if (withAttribute c).setWidth 8 = ch '\t' then List.replicate 5 0x20 else []

theorem frame_putc (h : Shows s p) (c : Word) : Frame s (cons_putc s c) (portBytes c) := by
  have hsend := h.send c
  have hlt : (s.send c).crt_pos < CRT_SIZE := hsend.pos_lt
  rw [cons_putc, cga_putc, portBytes]
  by_cases h4 : (withAttribute c).setWidth 8 = ch '\t'
  · have hne : ch '\t' ≠ ch '\x08' ∧ ch '\t' ≠ ch '\n' ∧ ch '\t' ≠ ch '\r' := by decide
    simp only [h4, if_neg hne.1, if_neg hne.2.1, if_neg hne.2.2, if_true]
    have s1 := shows_space hsend
    have s2 := shows_space s1
    have s3 := shows_space s2
    have s4 := shows_space s3
    exact ((frame_send s c).trans ((frame_space hsend).trans ((frame_space s1).trans ((frame_space s2).trans
      ((frame_space s3).trans (frame_space s4)))))).trans (frame_scroll _)
  · simp only [if_neg h4]
    refine ((frame_send s c).trans (?_ : Frame _ _ [])).trans (frame_scroll _)
    by_cases h1 : (withAttribute c).setWidth 8 = ch '\x08'
    · simp only [if_pos h1]
      by_cases hpos : (s.send c).crt_pos > 0
      · rw [if_pos hpos]
        exact frame_set (by omega) _ _
      · rw [if_neg hpos]
        exact Frame.refl _
    by_cases h2 : (withAttribute c).setWidth 8 = ch '\n'
    · simp only [if_neg h1, if_pos h2]
      exact frame_move _ _
    by_cases h3 : (withAttribute c).setWidth 8 = ch '\r'
    · simp only [if_neg h1, if_neg h2, if_pos h3]
      exact frame_move _ _
    · simp only [if_neg h1, if_neg h2, if_neg h3]
      exact frame_set hlt _ _

theorem frame_print (h : Shows s p) (text : List Word) :
    Frame s (text.foldl cons_putc s) (text.flatMap portBytes) := by
  induction text generalizing s p with
  | nil => exact Frame.refl s
  | cons c text ih => exact (frame_putc h c).trans (ih (shows_putc h c))

end

/-- The page whose first rows are on the screen. -/
def pageOf (s : Screen) : Page where
  cells i := if i < CRT_SIZE then s.crt_buf i else blank
  pos := s.crt_pos
  top := 0

theorem shows_pageOf {s : Screen} (hpos : s.crt_pos < CRT_SIZE) : Shows s (pageOf s) where
  above := by simp [pageOf]
  below := by
    simp only [pageOf, CRT_SIZE, CRT_COLS, CRT_ROWS] at *
    omega
  cursor := by simp [pageOf]
  cells i hi := by simp only [pageOf, Nat.mul_zero, Nat.zero_add, if_pos hi]
  blank i hi := if_neg (by simp only [pageOf, CRT_SIZE, CRT_COLS, CRT_ROWS] at *; omega)

/-- Whatever is printed, from any position on the screen: the screen is the window of the page
the text was printed on, the cursor is on it, no memory beyond it is written, and both ports
are sent the same bytes. -/
theorem screen_is_window {s : Screen} (hpos : s.crt_pos < CRT_SIZE) (text : List Word) :
    Shows (text.foldl cons_putc s) (text.foldl Page.putc (pageOf s)) ∧
      (text.foldl cons_putc s).crt_pos < CRT_SIZE ∧
      Frame s (text.foldl cons_putc s) (text.flatMap portBytes) :=
  ⟨shows_print (shows_pageOf hpos) text, (shows_print (shows_pageOf hpos) text).pos_lt,
    frame_print (shows_pageOf hpos) text⟩

/-- A cursor in the last cell. -/
theorem screen_is_window_last : (cons_putc ⟨fun _ => blank, 1999, [], []⟩ 0x41).crt_pos < CRT_SIZE :=
  (screen_is_window (s := ⟨fun _ => blank, 1999, [], []⟩) (by decide) [0x41]).2.1

end SisOp.Console
