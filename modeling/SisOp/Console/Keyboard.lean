/-
# `SisOp.Console.Keyboard` — from scan codes to characters

`kbd_proc_data` (`kern/console.c`) takes the keyboard's bytes one by one and keeps the
shift, control, alt and lock keys in the bits of a static word, with one more bit for the
prefix 0xE0.  `strokes` is the stream of bytes as keys pressed and released; the word
is then known from the strokes alone, after any stream (`kbd_state`): a modifier is on if a
key of its was pressed and none released since, and a lock if it was pressed an odd number
of times.  Typing a text gives back that text (`kbd_types`).
-/
import SisOp.Printf.Format
import Mathlib.Algebra.Ring.Parity
import Mathlib.Data.List.Induction

namespace SisOp.Console

open SisOp.Jos (Word Byte)
open SisOp.Printf (ch bytes)

/-! ## Tables -/

def NO : Byte := 0
def SHIFT : Word := 1
def CTL : Word := 2
def ALT : Word := 4
def CAPSLOCK : Word := 8
def NUMLOCK : Word := 16
def SCROLLLOCK : Word := 32
def E0ESC : Word := 64

/-- `shiftcode[data]`. -/
def shiftcode (data : Byte) : Word :=
  if data = 0x1D then CTL else if data = 0x2A then SHIFT else if data = 0x36 then SHIFT
  else if data = 0x38 then ALT else if data = 0x9D then CTL else if data = 0xB8 then ALT else 0

/-- `togglecode[data]`. -/
def togglecode (data : Byte) : Word :=
  if data = 0x3A then CAPSLOCK else if data = 0x45 then NUMLOCK else if data = 0x46 then SCROLLLOCK else 0

/-- The entries of the three maps that are set by their index, but for two. -/
def keypad (data : Byte) : Byte :=
  if data = 0xC8 then 0xE2 else if data = 0xC9 then 0xE6 else if data = 0xCB then 0xE4
  else if data = 0xCD then 0xE5 else if data = 0xCF then 0xE1 else if data = 0xD0 then 0xE3
  else if data = 0xD1 then 0xE7 else if data = 0xD2 then 0xE8 else if data = 0xD3 then 0xE9 else 0

/-- The keys 0x37 to 0x53, alike in `normalmap` and `shiftmap`. -/
def lastRows : List Byte :=
  [ch '*', NO, ch ' '] ++ List.replicate 13 NO ++ bytes "789-456+1230."

/-- `normalmap[data]`. -/
def normalmap (data : Byte) : Byte :=
  if data < 0x54 then
    ([NO, 0x1B] ++ bytes "1234567890-=" ++ [0x08, 0x09] ++ bytes "qwertyuiop[]" ++ [0x0A, NO] ++
      bytes "asdfghjkl;'" ++ [ch '\x60', NO] ++ bytes "\\zxcvbnm,./" ++ [NO] ++ lastRows).getD data.toNat 0
  else if data = 0xC7 then 0xE0 else if data = 0x9C then 0x0A else if data = 0xB5 then ch '/'
  else keypad data

/-- `shiftmap[data]`. -/
def shiftmap (data : Byte) : Byte :=
  if data < 0x54 then
    ([NO, 0x1B] ++ bytes "!@#$%^&*()_+" ++ [0x08, 0x09] ++ bytes "QWERTYUIOP" ++ [ch '\x7b', ch '\x7d'] ++
      [0x0A, NO] ++ bytes "ASDFGHJKL:" ++ [ch '\x22', ch '~', NO] ++ bytes "|ZXCVBNM<>?" ++ [NO] ++
      lastRows).getD data.toNat 0
  else if data = 0xC7 then 0xE0 else if data = 0x9C then 0x0A else if data = 0xB5 then ch '/'
  else keypad data

/-- `C(x)`. -/
def ctl (c : Char) : Byte := ch c - ch '@'

/-- `ctlmap[data]`. -/
def ctlmap (data : Byte) : Byte :=
  if data < 0x38 then
    (List.replicate 16 NO ++ "QWERTYUIOP".toList.map ctl ++ [NO, NO, 0x0D, NO] ++ "ASDFGHJKL".toList.map ctl ++
      [NO, NO, NO, NO] ++ "\\ZXCVBNM".toList.map ctl ++ [NO, NO, ctl '/', NO, NO]).getD data.toNat 0
  else if data = 0x97 then 0xE0 else if data = 0xB5 then ctl '/' else keypad data

/-- `charcode[shift & (CTL | SHIFT)][data]`. -/
def charcode (shift : Word) (data : Byte) : Byte :=
  if shift &&& CTL ≠ 0 then ctlmap data
  else if shift &&& SHIFT ≠ 0 then shiftmap data
  else normalmap data

/-! ## The driver -/

/-- The letters change case while the lock is on. -/
def caps (shift : Word) (c : Byte) : Byte :=
  if shift &&& CAPSLOCK ≠ 0 then
    if ch 'a' ≤ c ∧ c ≤ ch 'z' then c + (ch 'A' - ch 'a')
    else if ch 'A' ≤ c ∧ c ≤ ch 'Z' then c + (ch 'a' - ch 'A')
    else c
  else c

/-- `kbd_proc_data()` with the byte `data` in the keyboard: what it returns, and `shift`. -/
def kbd_proc_data (shift : Word) (data : Byte) : Byte × Word :=
  if data = 0xE0 then (0, shift ||| E0ESC)
  else if data &&& 0x80 ≠ 0 then
    let data := if shift &&& E0ESC ≠ 0 then data else data &&& 0x7F
    (0, shift &&& ~~~(shiftcode data ||| E0ESC))
  else
    let data' := if shift &&& E0ESC ≠ 0 then data ||| 0x80 else data
    let shift := if shift &&& E0ESC ≠ 0 then shift &&& ~~~E0ESC else shift
    let shift := (shift ||| shiftcode data') ^^^ togglecode data'
    (caps shift (charcode shift data'), shift)

/-- What it returns for a stream of bytes, one call for each. -/
def kbd (shift : Word) : List Byte → List Byte × Word
  | [] => ([], shift)
  | data :: stream =>
    let r := kbd_proc_data shift data
    ((kbd r.2 stream).1.cons r.1, (kbd r.2 stream).2)

/-! ## Strokes -/

/-- A key goes down or up; the bit 0x80 of a key is the prefix of its bytes. -/
inductive Stroke
  | press (key : Byte)
  | release (key : Byte)
  deriving DecidableEq

/-- The strokes of a stream, and whether it ends in a prefix; `esc` says if one came before. -/
def strokes (esc : Bool) : List Byte → List Stroke × Bool
  | [] => ([], esc)
  | data :: stream =>
    if data = 0xE0 then strokes true stream
    else if data &&& 0x80 ≠ 0 then
      ((strokes false stream).1.cons (.release (if esc then data else data &&& 0x7F)), (strokes false stream).2)
    else ((strokes false stream).1.cons (.press (if esc then data ||| 0x80 else data)), (strokes false stream).2)

/-- One stroke, on the bit `i` of the modifiers. -/
def Stroke.bit (i : Nat) (b : Bool) : Stroke → Bool
  | .press key => (b || (shiftcode key).getLsbD i) ^^ (togglecode key).getLsbD i
  | .release key => b && !(shiftcode key).getLsbD i

/-! ## The modifiers -/

theorem getLsbD_E0ESC (i : Nat) : E0ESC.getLsbD i = decide (i = 6) := by
  by_cases hi : i < 32
  · revert i
    decide
  · rw [BitVec.getLsbD_of_ge _ _ (by omega)]
    exact (decide_eq_false (by omega)).symm

theorem and_E0ESC_ne_zero (shift : Word) : shift &&& E0ESC ≠ 0 ↔ shift.getLsbD 6 = true := by
  constructor
  · intro h
    by_contra hbit
    refine h (BitVec.eq_of_getLsbD_eq fun i _ => ?_)
    rw [BitVec.getLsbD_and, getLsbD_E0ESC]
    by_cases hi : i = 6
    · rw [hi, Bool.not_eq_true _ |>.mp hbit]
      rfl
    · simp [hi]
  · intro hbit h
    have h6 := congrArg (BitVec.getLsbD · 6) h
    simp only [BitVec.getLsbD_and, getLsbD_E0ESC, hbit] at h6
    exact absurd h6 (by decide)

theorem shiftcode_six (key : Byte) : (shiftcode key).getLsbD 6 = false := by
  unfold shiftcode
  split_ifs <;> rfl

theorem togglecode_six (key : Byte) : (togglecode key).getLsbD 6 = false := by
  unfold togglecode
  split_ifs <;> rfl

/-- The key of a byte, after a prefix or not. -/
theorem proc_release {shift : Word} {data : Byte} (hE0 : data ≠ 0xE0) (hrel : data &&& 0x80 ≠ 0) :
    kbd_proc_data shift data = (0, shift &&&
      ~~~(shiftcode (if shift.getLsbD 6 then data else data &&& 0x7F) ||| E0ESC)) := by
  simp only [kbd_proc_data, if_neg hE0, if_pos hrel, and_E0ESC_ne_zero]

theorem proc_press {shift : Word} {data : Byte} (hE0 : data ≠ 0xE0) (hrel : ¬ data &&& 0x80 ≠ 0) :
    (kbd_proc_data shift data).2 =
      ((if shift.getLsbD 6 then shift &&& ~~~E0ESC else shift) |||
          shiftcode (if shift.getLsbD 6 then data ||| 0x80 else data)) ^^^
        togglecode (if shift.getLsbD 6 then data ||| 0x80 else data) := by
  simp only [kbd_proc_data, if_neg hE0, if_neg hrel, and_E0ESC_ne_zero]

/-- The bit of the prefix is what `strokes` keeps. -/
theorem kbd_esc (shift : Word) (stream : List Byte) :
    (kbd shift stream).2.getLsbD 6 = (strokes (shift.getLsbD 6) stream).2 := by
  induction stream generalizing shift with
  | nil => rfl
  | cons data stream ih =>
    rw [kbd, strokes]
    dsimp only
    rw [ih]
    by_cases hE0 : data = 0xE0
    · rw [kbd_proc_data, if_pos hE0, if_pos hE0, BitVec.getLsbD_or, getLsbD_E0ESC]
      simp only [decide_true, Bool.or_true]
    rw [if_neg hE0]
    by_cases hrel : data &&& 0x80 ≠ 0
    · rw [proc_release hE0 hrel, if_pos hrel]
      simp only [BitVec.getLsbD_and, BitVec.getLsbD_not, BitVec.getLsbD_or, getLsbD_E0ESC, decide_true,
        Bool.or_true, Bool.not_true, Bool.and_false]
    · rw [proc_press hE0 hrel, if_neg hrel]
      simp only [BitVec.getLsbD_xor, BitVec.getLsbD_or, shiftcode_six, togglecode_six, Bool.or_false, Bool.xor_false]
      cases hesc : shift.getLsbD 6 with
      | true =>
        simp only [if_true, BitVec.getLsbD_and, BitVec.getLsbD_not, getLsbD_E0ESC, decide_true, Bool.not_true,
          Bool.and_false]
      | false => simp only [Bool.false_eq_true, if_false, hesc]

theorem strokes_prefix {data : Byte} (esc : Bool) (hE0 : data = 0xE0) (stream : List Byte) :
    strokes esc (data :: stream) = strokes true stream := by
  rw [strokes, if_pos hE0]

theorem strokes_release {data : Byte} (esc : Bool) (hE0 : data ≠ 0xE0) (hrel : data &&& 0x80 ≠ 0)
    (stream : List Byte) : strokes esc (data :: stream) =
      (.release (if esc then data else data &&& 0x7F) :: (strokes false stream).1, (strokes false stream).2) := by
  rw [strokes, if_neg hE0, if_pos hrel]

theorem strokes_press {data : Byte} (esc : Bool) (hE0 : data ≠ 0xE0) (hrel : ¬ data &&& 0x80 ≠ 0)
    (stream : List Byte) : strokes esc (data :: stream) =
      (.press (if esc then data ||| 0x80 else data) :: (strokes false stream).1, (strokes false stream).2) := by
  rw [strokes, if_neg hE0, if_neg hrel]

/-- Every other bit is moved by the strokes. -/
theorem kbd_bit {i : Nat} (hi : i < 32) (h6 : i ≠ 6) (shift : Word) (stream : List Byte) :
    (kbd shift stream).2.getLsbD i =
      (strokes (shift.getLsbD 6) stream).1.foldl (Stroke.bit i) (shift.getLsbD i) := by
  have hE6 : E0ESC.getLsbD i = false := (getLsbD_E0ESC i).trans (decide_eq_false h6)
  induction stream generalizing shift with
  | nil => rfl
  | cons data stream ih =>
    have hesc : (kbd_proc_data shift data).2.getLsbD 6 = (strokes (shift.getLsbD 6) [data]).2 :=
      kbd_esc shift [data]
    rw [kbd]
    dsimp only
    rw [ih, hesc]
    by_cases hE0 : data = 0xE0
    · have hbit : (kbd_proc_data shift data).2.getLsbD i = shift.getLsbD i := by
        rw [kbd_proc_data, if_pos hE0, BitVec.getLsbD_or, hE6, Bool.or_false]
      rw [hbit, strokes_prefix _ hE0, strokes_prefix _ hE0, strokes]
    by_cases hrel : data &&& 0x80 ≠ 0
    · have hbit : (kbd_proc_data shift data).2.getLsbD i =
          Stroke.bit i (shift.getLsbD i) (.release (if shift.getLsbD 6 then data else data &&& 0x7F)) := by
        rw [proc_release hE0 hrel]
        simp only [BitVec.getLsbD_and, BitVec.getLsbD_not, BitVec.getLsbD_or, hE6, Bool.or_false, hi, decide_true,
          Bool.true_and, Stroke.bit]
      rw [hbit, strokes_release _ hE0 hrel, strokes_release _ hE0 hrel, List.foldl_cons, strokes]
    · have hbit : (kbd_proc_data shift data).2.getLsbD i =
          Stroke.bit i (shift.getLsbD i) (.press (if shift.getLsbD 6 then data ||| 0x80 else data)) := by
        rw [proc_press hE0 hrel]
        simp only [BitVec.getLsbD_xor, BitVec.getLsbD_or, Stroke.bit]
        cases shift.getLsbD 6 with
        | true =>
          simp only [if_true, BitVec.getLsbD_and, BitVec.getLsbD_not, hE6, Bool.not_false, hi, decide_true,
            Bool.and_true]
        | false => simp only [Bool.false_eq_true, if_false]
      rw [hbit, strokes_press _ hE0 hrel, strokes_press _ hE0 hrel, List.foldl_cons, strokes]

/-! ## After any stream -/

/-- A key of the modifier that is bit `i`. -/
def Modifier (i : Nat) (key : Byte) : Prop := (shiftcode key).getLsbD i = true

/-- A key of the lock that is bit `i`. -/
def isLock (i : Nat) (key : Byte) : Bool := (togglecode key).getLsbD i

/-- The presses of a lock. -/
def presses (i : Nat) (es : List Stroke) : Nat :=
  es.countP fun e => match e with
    | .press key => isLock i key
    | .release _ => false

theorem shiftcode_bit {i : Nat} (hi : 3 ≤ i) (key : Byte) : (shiftcode key).getLsbD i = false := by
  by_cases h : i < 32
  · have hbits : ∀ i < 32, 3 ≤ i →
        CTL.getLsbD i = false ∧ SHIFT.getLsbD i = false ∧ ALT.getLsbD i = false := by decide
    obtain ⟨hctl, hshift, halt⟩ := hbits i h hi
    unfold shiftcode
    split_ifs <;> first | assumption | exact BitVec.getLsbD_zero
  · exact BitVec.getLsbD_of_ge _ _ (by omega)

theorem togglecode_bit {i : Nat} (hi : i < 3 ∨ 6 < i) (key : Byte) : (togglecode key).getLsbD i = false := by
  by_cases h : i < 32
  · have hbits : ∀ i < 32, i < 3 ∨ 6 < i →
        CAPSLOCK.getLsbD i = false ∧ NUMLOCK.getLsbD i = false ∧ SCROLLLOCK.getLsbD i = false := by decide
    obtain ⟨hcaps, hnum, hscroll⟩ := hbits i h hi
    unfold togglecode
    split_ifs <;> first | assumption | exact BitVec.getLsbD_zero
  · exact BitVec.getLsbD_of_ge _ _ (by omega)

theorem presses_press (i : Nat) (key : Byte) (es : List Stroke) :
    presses i (.press key :: es) = presses i es + if isLock i key then 1 else 0 :=
  List.countP_cons

theorem presses_release (i : Nat) (key : Byte) (es : List Stroke) :
    presses i (.release key :: es) = presses i es :=
  List.countP_cons_of_neg (by simp)

/-- A modifier is on if a key of its is down since, with none released. -/
theorem held_iff {i : Nat} (hi : i < 3) (es : List Stroke) :
    es.foldl (Stroke.bit i) false = true ↔
      ∃ pre key post, es = pre ++ .press key :: post ∧ Modifier i key ∧ ∀ k, .release k ∈ post → ¬ Modifier i k := by
  induction es using List.reverseRecOn with
  | nil =>
    refine iff_of_false Bool.false_ne_true ?_
    rintro ⟨pre, key, post, heq, -⟩
    simp at heq
  | append_singleton es e ih =>
    rw [List.foldl_append, List.foldl_cons, List.foldl_nil]
    cases e with
    | press key =>
      have htoggle := togglecode_bit (.inl hi) key
      rw [Stroke.bit, htoggle, Bool.xor_false, Bool.or_eq_true, ih]
      constructor
      · rintro (⟨pre, k, post, rfl, hk, hpost⟩ | hkey)
        · refine ⟨pre, k, post ++ [.press key], by simp, hk, fun k' hk' => hpost k' ?_⟩
          simpa using hk'
        · exact ⟨es, key, [], rfl, hkey, by simp⟩
      · rintro ⟨pre, k, post, heq, hk, hpost⟩
        rcases List.eq_nil_or_concat post with rfl | ⟨post', last, rfl⟩
        · obtain ⟨rfl, hlast⟩ := List.append_inj' heq rfl
          obtain rfl : key = k := by simpa using hlast
          exact .inr hk
        · rw [List.concat_eq_append, ← List.cons_append, ← List.append_assoc] at heq
          obtain ⟨rfl, hlast⟩ := List.append_inj' heq rfl
          refine .inl ⟨pre, k, post', rfl, hk, fun k' hk' => hpost k' ?_⟩
          rw [List.concat_eq_append]
          exact List.mem_append_left _ hk'
    | release key =>
      rw [Stroke.bit, Bool.and_eq_true, ih, Bool.not_eq_true']
      constructor
      · rintro ⟨⟨pre, k, post, rfl, hk, hpost⟩, hkey⟩
        refine ⟨pre, k, post ++ [.release key], by simp, hk, fun k' hk' => ?_⟩
        rcases List.mem_append.mp hk' with hk' | hk'
        · exact hpost k' hk'
        · obtain rfl : k' = key := by simpa using hk'
          rw [Modifier, hkey]
          exact Bool.false_ne_true
      · rintro ⟨pre, k, post, heq, hk, hpost⟩
        rcases List.eq_nil_or_concat post with rfl | ⟨post', last, rfl⟩
        · obtain ⟨-, hlast⟩ := List.append_inj' heq rfl
          simp at hlast
        · rw [List.concat_eq_append, ← List.cons_append, ← List.append_assoc] at heq
          obtain ⟨rfl, hlast⟩ := List.append_inj' heq rfl
          obtain rfl : .release key = last := by simpa using hlast
          rw [List.concat_eq_append] at hpost
          refine ⟨⟨pre, k, post', rfl, hk, fun k' hk' => hpost k' (List.mem_append_left _ hk')⟩, ?_⟩
          exact Bool.eq_false_of_not_eq_true (hpost key (by simp))

/-- A lock is on if it was pressed an odd number of times. -/
theorem locked_iff {i : Nat} (hi : 3 ≤ i) (b : Bool) (es : List Stroke) :
    es.foldl (Stroke.bit i) b = (b ^^ decide (Odd (presses i es))) := by
  induction es generalizing b with
  | nil => simp [presses]
  | cons e es ih =>
    rw [List.foldl_cons, ih]
    cases e with
    | press key =>
      rw [Stroke.bit, shiftcode_bit hi, Bool.or_false, presses_press, Bool.xor_assoc]
      congr 1
      rw [isLock]
      cases (togglecode key).getLsbD i with
      | true =>
        rw [if_pos rfl, Bool.true_xor, ← decide_not]
        exact decide_eq_decide.mpr Nat.odd_add_one.symm
      | false => rw [if_neg Bool.false_ne_true, Bool.false_xor, Nat.add_zero]
    | release key => rw [Stroke.bit, shiftcode_bit hi, Bool.not_false, Bool.and_true, presses_release]

/-- After any stream of bytes, from when the kernel starts: each modifier, each lock, the prefix
and the unused bits. -/
theorem kbd_state (stream : List Byte) :
    let shift := (kbd 0 stream).2
    let es := (strokes false stream).1
    (∀ i < 3, shift.getLsbD i = true ↔ ∃ pre key post, es = pre ++ .press key :: post ∧ Modifier i key ∧
        ∀ k, .release k ∈ post → ¬ Modifier i k) ∧
      (∀ i, 3 ≤ i → i < 6 → (shift.getLsbD i = true ↔ Odd (presses i es))) ∧
      shift.getLsbD 6 = (strokes false stream).2 ∧ ∀ i, 7 ≤ i → shift.getLsbD i = false := by
  intro shift es
  have hzero : ∀ i, (0 : Word).getLsbD i = false := fun i => BitVec.getLsbD_zero
  refine ⟨fun i hi => ?_, fun i h3 hi => ?_, ?_, fun i h7 => ?_⟩
  · have hbit := kbd_bit (show i < 32 by omega) (by omega) 0 stream
    rw [hzero, hzero] at hbit
    rw [show shift.getLsbD i = _ from hbit]
    exact held_iff hi es
  · have hbit := kbd_bit (show i < 32 by omega) (by omega) 0 stream
    rw [hzero, hzero, locked_iff h3, Bool.false_xor] at hbit
    rw [show shift.getLsbD i = _ from hbit, decide_eq_true_iff]
  · have hesc := kbd_esc 0 stream
    rwa [hzero] at hesc
  · by_cases h : i < 32
    · have hbit := kbd_bit h (by omega) 0 stream
      rw [hzero, hzero, locked_iff (by omega), Bool.false_xor] at hbit
      have hnone : presses i (strokes false stream).1 = 0 := by
        refine List.countP_eq_zero.mpr fun e _ => ?_
        cases e with
        | press key => exact fun h => Bool.false_ne_true ((togglecode_bit (.inr (by omega)) key).symm.trans h)
        | release key => exact Bool.false_ne_true
      rw [hnone] at hbit
      exact hbit
    · exact BitVec.getLsbD_of_ge _ _ (by omega)

/-! ## Typing -/

/-- The keys of characters, 0x00 to 0x53. -/
def keys : List Byte := (List.range 0x54).map (BitVec.ofNat 8)

/-- The bytes that the keyboard sends when a character is typed: its key pressed and released,
with the left shift key held where the character needs it. -/
def typed (c : Byte) : List Byte :=
  match keys.find? (normalmap · = c), keys.find? (shiftmap · = c) with
  | some key, _ => [key, key ||| 0x80]
  | none, some key => [0x2A, key, key ||| 0x80, 0xAA]
  | none, none => []

/-- The keyboard has the character. -/
def OnKeyboard (c : Byte) : Prop := c ≠ 0 ∧ typed c ≠ []

instance : DecidablePred OnKeyboard := fun c => inferInstanceAs (Decidable (c ≠ 0 ∧ typed c ≠ []))

/-- No modifier but perhaps alt, no caps lock and no prefix. -/
def Plain (shift : Word) : Prop := shift &&& (SHIFT ||| CTL ||| CAPSLOCK ||| E0ESC) = 0

instance : DecidablePred Plain := fun shift =>
  inferInstanceAs (Decidable (shift &&& (SHIFT ||| CTL ||| CAPSLOCK ||| E0ESC) = 0))

section

variable {shift : Word}

theorem and_bit {a b : Word} (h : a &&& b = 0) (i : Nat) : (a.getLsbD i && b.getLsbD i) = false := by
  have hbit := congrArg (BitVec.getLsbD · i) h
  exact (BitVec.getLsbD_and ..).symm.trans (hbit.trans BitVec.getLsbD_zero)

theorem and_not_of_and_eq_zero {a b : Word} (h : a &&& b = 0) : a &&& ~~~b = a := by
  refine BitVec.eq_of_getLsbD_eq fun i hi => ?_
  have hbit := and_bit h i
  rw [BitVec.getLsbD_and, BitVec.getLsbD_not, decide_eq_true hi, Bool.true_and]
  cases ha : a.getLsbD i with
  | false => rfl
  | true =>
    rw [ha, Bool.true_and] at hbit
    rw [hbit]
    rfl

theorem or_and_not {a b : Word} (h : a &&& b = 0) : (a ||| b) &&& ~~~b = a := by
  rw [BitVec.and_or_distrib_right, BitVec.and_not_self, and_not_of_and_eq_zero h]
  exact BitVec.or_zero

theorem or_and_eq_zero {a b c : Word} (ha : a &&& c = 0) (hb : b &&& c = 0) : (a ||| b) &&& c = 0 := by
  rw [BitVec.and_or_distrib_right, ha, hb]
  rfl

/-- Part of a mask that is clear is clear. -/
theorem and_of_mask {a b c : Word} (h : a &&& b = 0) (hc : b &&& c = c) : a &&& c = 0 := by
  rw [← hc, ← BitVec.and_assoc, h]
  exact BitVec.zero_and

/-- A key that is no modifier and no lock goes down. -/
theorem press_plain {key : Byte} (hkey : key ≠ 0xE0) (hbit : key &&& 0x80 = 0) (hs : shiftcode key = 0)
    (ht : togglecode key = 0) (hesc : shift &&& E0ESC = 0) :
    kbd_proc_data shift key = (caps shift (charcode shift key), shift) := by
  have hkeep : (shift ||| (0 : Word)) ^^^ (0 : Word) = shift := (BitVec.xor_zero).trans BitVec.or_zero
  simp only [kbd_proc_data, if_neg hkey, hbit, hesc, ne_eq, not_true_eq_false, if_false, hs, ht, hkeep]

/-- It goes up. -/
theorem release_plain {key : Byte} (hkey : key ||| 0x80 ≠ 0xE0) (hbit : (key ||| 0x80) &&& 0x80 ≠ 0)
    (hback : (key ||| 0x80) &&& 0x7F = key) (hs : shiftcode key = 0) (hesc : shift &&& E0ESC = 0) :
    kbd_proc_data shift (key ||| 0x80) = (0, shift) := by
  have hkeep : shift &&& ~~~((0 : Word) ||| E0ESC) = shift := and_not_of_and_eq_zero hesc
  simp only [kbd_proc_data, if_neg hkey, if_pos hbit, hesc, ne_eq, not_true_eq_false, if_false, hback, hs, hkeep]

/-- The left shift key goes down. -/
theorem press_shift (hcaps : shift &&& CAPSLOCK = 0) (hesc : shift &&& E0ESC = 0) :
    kbd_proc_data shift 0x2A = (0, shift ||| SHIFT) := by
  have hkeep : (shift ||| SHIFT) ^^^ (0 : Word) = shift ||| SHIFT := BitVec.xor_zero
  have hcode : shiftcode 0x2A = SHIFT := rfl
  have htoggle : togglecode 0x2A = 0 := rfl
  have hno : ∀ s, charcode s 0x2A = 0 := fun s => by
    unfold charcode
    split_ifs <;> rfl
  have hcaps' : ¬ (shift ||| SHIFT) &&& CAPSLOCK ≠ 0 := not_not.mpr (or_and_eq_zero hcaps (by decide))
  simp only [kbd_proc_data, show ((0x2A : Byte) = 0xE0) = False from eq_false (by decide),
    show ((0x2A : Byte) &&& 0x80 ≠ 0) = False from eq_false (by decide), hesc, ne_eq, not_true_eq_false, if_false,
    hcode, htoggle, hkeep, hno, caps]
  rw [if_neg hcaps']

/-- It goes up. -/
theorem release_shift (hshift : shift &&& SHIFT = 0) (hesc : shift &&& E0ESC = 0) :
    kbd_proc_data (shift ||| SHIFT) 0xAA = (0, shift) := by
  have hesc' : (shift ||| SHIFT) &&& E0ESC = 0 := or_and_eq_zero hesc (by decide)
  have hcode : shiftcode (0xAA &&& 0x7F) = SHIFT := rfl
  have hkeep : (shift ||| SHIFT) &&& ~~~(SHIFT ||| E0ESC) = shift := by
    rw [BitVec.not_or, ← BitVec.and_assoc, or_and_not hshift, and_not_of_and_eq_zero hesc]
  simp only [kbd_proc_data, show ((0xAA : Byte) = 0xE0) = False from eq_false (by decide),
    show ((0xAA : Byte) &&& 0x80 ≠ 0) = True from eq_true (by decide), hesc', ne_eq, not_true_eq_false, if_false,
    if_true, hcode, hkeep]

/-- The bytes of the keys of characters. -/
theorem keys_plain : ∀ key ∈ keys, key ≠ 0xE0 ∧ key &&& 0x80 = 0 ∧ key ||| 0x80 ≠ 0xE0 ∧
    (key ||| 0x80) &&& 0x80 ≠ 0 ∧ (key ||| 0x80) &&& 0x7F = key := by
  decide +kernel

theorem keys_no_modifier : ∀ key ∈ keys, normalmap key ≠ 0 ∨ shiftmap key ≠ 0 →
    shiftcode key = 0 ∧ togglecode key = 0 := by
  decide +kernel

/-- A key goes down and up, in the map that is on. -/
theorem stroke_plain {key : Byte} (hmem : key ∈ keys) (hmap : normalmap key ≠ 0 ∨ shiftmap key ≠ 0)
    (hcaps : shift &&& CAPSLOCK = 0) (hesc : shift &&& E0ESC = 0) :
    kbd shift [key, key ||| 0x80] = ([charcode shift key, 0], shift) := by
  obtain ⟨h1, h2, h3, h4, h5⟩ := keys_plain key hmem
  obtain ⟨hs, ht⟩ := keys_no_modifier key hmem hmap
  rw [kbd, press_plain h1 h2 hs ht hesc]
  dsimp only
  rw [kbd, release_plain h3 h4 h5 hs hesc, kbd, caps, if_neg (not_not.mpr hcaps)]

theorem kbd_append (shift : Word) (s t : List Byte) :
    kbd shift (s ++ t) = ((kbd shift s).1 ++ (kbd (kbd shift s).2 t).1, (kbd (kbd shift s).2 t).2) := by
  induction s generalizing shift with
  | nil => rfl
  | cons data s ih =>
    rw [List.cons_append, kbd, ih]
    rfl

/-- One character, typed. -/
theorem kbd_typed (h : Plain shift) {c : Byte} (hc : OnKeyboard c) :
    (kbd shift (typed c)).1.filter (· ≠ 0) = [c] ∧ (kbd shift (typed c)).2 = shift := by
  obtain ⟨hne, hkey⟩ := hc
  have hctl : shift &&& CTL = 0 := and_of_mask h (by decide)
  have hshift : shift &&& SHIFT = 0 := and_of_mask h (by decide)
  have hcaps : shift &&& CAPSLOCK = 0 := and_of_mask h (by decide)
  have hesc : shift &&& E0ESC = 0 := and_of_mask h (by decide)
  cases hn : keys.find? (normalmap · = c) with
  | some key =>
    have hmap : normalmap key = c := by simpa using List.find?_some hn
    have htyped : typed c = [key, key ||| 0x80] := by rw [typed, hn]
    have hchar : charcode shift key = c := by
      rw [charcode, if_neg (not_not.mpr hctl), if_neg (not_not.mpr hshift), hmap]
    rw [htyped, stroke_plain (List.mem_of_find?_eq_some hn) (.inl (hmap ▸ hne)) hcaps hesc, hchar]
    exact ⟨List.filter_cons_of_pos (decide_eq_true hne), rfl⟩
  | none =>
    cases hsft : keys.find? (shiftmap · = c) with
    | none => exact absurd (by rw [typed, hn, hsft]) hkey
    | some key =>
      have hmap : shiftmap key = c := by simpa using List.find?_some hsft
      have htyped : typed c = 0x2A :: ([key, key ||| 0x80] ++ [0xAA]) := by rw [typed, hn, hsft]; rfl
      have hon : (shift ||| SHIFT) &&& SHIFT ≠ 0 := by
        rw [BitVec.and_or_distrib_right, hshift]
        decide
      have hchar : charcode (shift ||| SHIFT) key = c := by
        rw [charcode, if_neg (not_not.mpr (or_and_eq_zero hctl (by decide))), if_pos hon, hmap]
      have hmiddle := @stroke_plain (shift ||| SHIFT) key (List.mem_of_find?_eq_some hsft) (.inr (hmap ▸ hne))
        (or_and_eq_zero hcaps (by decide)) (or_and_eq_zero hesc (by decide))
      rw [htyped, kbd, press_shift hcaps hesc]
      dsimp only
      rw [kbd_append, hmiddle, hchar]
      dsimp only
      rw [kbd, release_shift hshift hesc]
      refine ⟨?_, rfl⟩
      exact (List.filter_cons_of_neg (by decide)).trans (List.filter_cons_of_pos (decide_eq_true hne))

/-- Typing a text on the keyboard gives the text back, and leaves the modifiers as they were. -/
theorem kbd_types (h : Plain shift) {text : List Byte} (htext : ∀ c ∈ text, OnKeyboard c) :
    (kbd shift (text.flatMap typed)).1.filter (· ≠ 0) = text ∧ (kbd shift (text.flatMap typed)).2 = shift := by
  induction text with
  | nil => exact ⟨rfl, rfl⟩
  | cons c text ih =>
    obtain ⟨hchars, hstate⟩ := kbd_typed h (htext c (List.mem_cons_self ..))
    obtain ⟨ihchars, ihstate⟩ := ih fun c hc => htext c (List.mem_cons_of_mem _ hc)
    rw [List.flatMap_cons, kbd_append, hstate]
    refine ⟨?_, ihstate⟩
    rw [List.filter_append, hchars, ihchars]
    rfl

end

/-- `Hi!` with the alt key down. -/
theorem kbd_types_hi : (kbd ALT ((bytes "Hi!").flatMap typed)).1.filter (· ≠ 0) = bytes "Hi!" ∧
    (kbd ALT ((bytes "Hi!").flatMap typed)).2 = ALT :=
  kbd_types (by decide) (by decide +kernel)

end SisOp.Console
