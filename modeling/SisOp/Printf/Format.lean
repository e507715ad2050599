/-
# `SisOp.Printf.Format` — the formatting routine of kernel and user programs

`printnum` and `vprintfmt` (`lib/printfmt.c`).  What the routine does with a character is
its caller's (`putch`); here it is the list of the values `putch` is called with.  The
variable arguments are the words from `ap` on, and a string argument is what `mem` holds
at its address up to the NUL.  `%e` calls the routine again with a format of its own,
which has no `%e` in it: `vprintfmt` ties that knot twice.
-/
import SisOp.Jos.Mmu

namespace SisOp.Printf

open SisOp.Jos (Word Byte)

abbrev Text := List Byte

/-- The byte of a character. -/
def ch (c : Char) : Byte := BitVec.ofNat 8 c.toNat

/-- The bytes of a string literal. -/
def bytes (s : String) : Text := s.toList.map ch

/-- What `putch` is called with for an `unsigned char`. -/
def int (b : Byte) : Word := b.zeroExtend 32

/-! ## Numbers -/

/-- `"0123456789abcdef"[d]`. -/
def digit (d : Nat) : Byte := (bytes "0123456789abcdef").getD d 0

/-- `printnum(putch, putdat, num, base, width, padc)`; the bases of the callers are 8, 10 and 16. -/
def printnum (num base : Nat) (width : Int) (padc : Byte) : List Word :=
  if base ≤ num ∧ 2 ≤ base then
    printnum (num / base) base (width - 1) padc ++ [int (digit (num % base))]
  else List.replicate (width - 1).toNat (int padc) ++ [int (digit (num % base))]
termination_by num
decreasing_by exact Nat.div_lt_self (by omega) (by omega)

/-- The words of the variable arguments that are left. -/
abbrev Va := Nat → Word

/-- `ap` after `n` words. -/
def Va.skip (ap : Va) (n : Nat) : Va := fun i => ap (i + n)

/-- `getuint(&ap, lflag)`. -/
def getuint (ap : Va) (lflag : Nat) : BitVec 64 × Va :=
  if lflag ≥ 2 then (ap 1 ++ ap 0, ap.skip 2) else ((ap 0).zeroExtend 64, ap.skip 1)

/-- `getint(&ap, lflag)`. -/
def getint (ap : Va) (lflag : Nat) : BitVec 64 × Va :=
  if lflag ≥ 2 then (ap 1 ++ ap 0, ap.skip 2) else ((ap 0).signExtend 64, ap.skip 1)

/-! ## Directives -/

/-- The variables of one %-escape. -/
structure Spec where
  padc : Byte
  width : Int
  precision : Int
  lflag : Nat
  altflag : Bool

/-- Their values after the `%`. -/
def Spec.start : Spec := ⟨ch ' ', -1, -1, 0, false⟩

/-- The label `process_precision`. -/
def Spec.process (s : Spec) (precision : Int) : Spec :=
  if s.width < 0 then { s with width := precision, precision := -1 }
  else { s with precision := precision }

/-- `for (precision = 0; ; ++fmt)`, with the digit `c` read. -/
def scanDigits (precision : Int) (c : Byte) : Text → Int × Text
  | [] => (precision * 10 + c.toNat - 48, [])
  | c' :: fmt =>
    if c' < ch '0' ∨ ch '9' < c' then (precision * 10 + c.toNat - 48, c' :: fmt)
    else scanDigits (precision * 10 + c.toNat - 48) c' fmt

/-- `strnlen(s, size)`. -/
def strnlen : Text → Nat → Nat
  | [], _ | _, 0 => 0
  | _ :: s, size + 1 => strnlen s size + 1

/-- The loop of `%s` over the string; `char` is signed. -/
def strChars (altflag : Bool) : Text → Int → List Word
  | [], _ => []
  | c :: p, precision =>
    let out := if altflag ∧ (c.toInt < 32 ∨ 126 < c.toInt) then int (ch '?') else c.signExtend 32
    if precision < 0 then out :: strChars altflag p precision
    else if precision - 1 ≥ 0 then out :: strChars altflag p (precision - 1)
    else []

/-- The case `'s'`, for the string `p`. -/
def printStr (s : Spec) (p : Text) : List Word :=
  let out := strChars s.altflag p s.precision
  if s.width > 0 ∧ s.padc ≠ ch '-' then
    let width := s.width - strnlen p (BitVec.ofInt 32 s.precision).toNat
    -- the loop leaves a width that is not positive, and the last one does nothing
    List.replicate width.toNat (int s.padc) ++ out
  else out ++ List.replicate (s.width - out.length).toNat (int (ch ' '))

/-- The case `'d'`, for the number `num`. -/
def printSigned (s : Spec) (num : BitVec 64) : List Word :=
  if num.toInt < 0 then int (ch '-') :: printnum (-num).toNat 10 s.width s.padc
  else printnum num.toNat 10 s.width s.padc

/-- `error_string[]`. -/
def error_string : List (Option Text) :=
  [none, some (bytes "unspecified error"), some (bytes "bad environment"),
    some (bytes "invalid parameter"), some (bytes "out of memory"),
    some (bytes "out of environments"), some (bytes "segmentation fault"),
    some (bytes "env is not recving"), some (bytes "unexpected end of file"),
    some (bytes "no free space on disk"), some (bytes "too many files are open"),
    some (bytes "file or block not found"), some (bytes "invalid path"),
    some (bytes "file already exists"), some (bytes "file is not a valid executable"),
    some (bytes "operation not supported")]

/-- A memory in which the string `p` is wherever one looks. -/
def only (p : Text) : Word → Text := fun _ => p

/-- What a directive has printed, and the format and arguments it goes on with. -/
structure Printed where
  out : List Word
  fmt : Text
  ap : Va

variable (mem : Word → Text) (nested : (Word → Text) → Text → Va → List Word)

/-- The end of a %-escape: its conversion `c`, with `fmt` behind it.  The format from the first
`%` on is `start`, to which an unknown one goes back. -/
def convert (start : Text) (s : Spec) (c : Byte) (fmt : Text) (ap : Va) : Printed :=
  if c = ch 'c' then ⟨[ap 0], fmt, ap.skip 1⟩
  else if c = ch 'e' then
    let err := if (ap 0).toInt < 0 then -ap 0 else ap 0
    match error_string[err.toNat]?.join with
    | none => ⟨nested mem (bytes "error %d") fun _ => err, fmt, ap.skip 1⟩
    | some p => ⟨nested (only p) (bytes "%s") fun _ => 1, fmt, ap.skip 1⟩
  else if c = ch 's' then
    ⟨printStr s (if ap 0 = 0 then bytes "(null)" else mem (ap 0)), fmt, ap.skip 1⟩
  else if c = ch 'd' then
    ⟨printSigned s (getint ap s.lflag).1, fmt, (getint ap s.lflag).2⟩
  else if c = ch 'u' then
    ⟨printnum (getuint ap s.lflag).1.toNat 10 s.width s.padc, fmt, (getuint ap s.lflag).2⟩
  else if c = ch 'o' then
    ⟨printnum (getuint ap s.lflag).1.toNat 8 s.width s.padc, fmt, (getuint ap s.lflag).2⟩
  else if c = ch 'p' then
    ⟨int (ch '0') :: int (ch 'x') :: printnum (ap 0).toNat 16 s.width s.padc, fmt, ap.skip 1⟩
  else if c = ch 'x' then
    ⟨printnum (getuint ap s.lflag).1.toNat 16 s.width s.padc, fmt, (getuint ap s.lflag).2⟩
  else if c = ch '%' then ⟨[int c], fmt, ap⟩
  else ⟨[int (ch '%')], start, ap⟩

theorem scanDigits_length (precision : Int) (c : Byte) (fmt : Text) :
    (scanDigits precision c fmt).2.length ≤ fmt.length := by
  induction fmt generalizing precision c with
  | nil => exact Nat.le_refl _
  | cons c' fmt ih =>
    rw [scanDigits]
    split
    · exact Nat.le_refl _
    · exact (ih _ _).trans (Nat.le_succ _)

/-- `reswitch`: the flags, the width and the precision, and then the conversion. -/
def directive (start : Text) (s : Spec) (fmt : Text) (ap : Va) : Printed :=
  match fmt with
  | [] => convert mem nested start s 0 [] ap
  | c :: fmt =>
    if c = ch '-' then directive start { s with padc := ch '-' } fmt ap
    else if c = ch '0' then directive start { s with padc := ch '0' } fmt ap
    else if ch '1' ≤ c ∧ c ≤ ch '9' then
      directive start (s.process (scanDigits 0 c fmt).1) (scanDigits 0 c fmt).2 ap
    else if c = ch '*' then directive start (s.process (ap 0).toInt) fmt (ap.skip 1)
    else if c = ch '.' then
      directive start (if s.width < 0 then { s with width := 0 } else s) fmt ap
    else if c = ch '#' then directive start { s with altflag := true } fmt ap
    else if c = ch 'l' then directive start { s with lflag := s.lflag + 1 } fmt ap
    else convert mem nested start s c fmt ap
termination_by fmt.length
decreasing_by
  all_goals simp only [List.length_cons]
  any_goals exact Nat.lt_succ_self _
  exact Nat.lt_succ_of_le (scanDigits_length ..)

variable {mem nested}

theorem convert_length (start : Text) (s : Spec) (c : Byte) (fmt : Text) (ap : Va)
    (h : fmt.length ≤ start.length) : (convert mem nested start s c fmt ap).fmt.length ≤ start.length := by
  unfold convert
  split_ifs <;> first | exact h | exact Nat.le_refl _ | (dsimp only; split <;> exact h)

theorem directive_length (start : Text) (s : Spec) (fmt : Text) (ap : Va)
    (h : fmt.length ≤ start.length) : (directive mem nested start s fmt ap).fmt.length ≤ start.length := by
  fun_induction directive mem nested start s fmt ap with
  | case1 s ap => exact convert_length start s 0 [] ap h
  | case4 s ap c fmt _ _ _ ih =>
    exact ih ((scanDigits_length ..).trans ((Nat.le_succ _).trans h))
  | case9 s ap c fmt => exact convert_length start s c fmt ap ((Nat.le_succ _).trans h)
  | _ => rename_i ih; exact ih ((Nat.le_succ _).trans h)

/-! ## The routine -/

variable (mem nested)

/-- `vprintfmt(putch, putdat, fmt, ap)`, with `nested` for the call `%e` makes. -/
def vprintfmtWith (fmt : Text) (ap : Va) : List Word :=
  match fmt with
  | [] => []
  | c :: fmt =>
    if c = ch '%' then
      (directive mem nested fmt Spec.start fmt ap).out ++
        vprintfmtWith (directive mem nested fmt Spec.start fmt ap).fmt
          (directive mem nested fmt Spec.start fmt ap).ap
    else int c :: vprintfmtWith fmt ap
termination_by fmt.length
decreasing_by
  · exact Nat.lt_succ_of_le (directive_length fmt Spec.start fmt ap (Nat.le_refl _))
  · exact Nat.lt_succ_self _

/-- `vprintfmt(putch, putdat, fmt, ap)`. -/
def vprintfmt (fmt : Text) (ap : Va) : List Word :=
  vprintfmtWith mem (fun mem' => vprintfmtWith mem' fun _ _ _ => []) fmt ap

end SisOp.Printf
