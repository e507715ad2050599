/-
# `SisOp.Printf.RoundTrip` — printed numbers are read back

`strtol` (`lib/string.c`) on what `vprintfmt` prints.  A number is its digits with
padding before them (`printnum_eq`); the sign goes before the padding, so a negative
number padded with spaces is not read back, and every other one is.
-/
import SisOp.Printf.Sinks
import Mathlib.Tactic.Ring

namespace SisOp.Printf

open SisOp.Jos (Word Byte)

/-! ## strtol -/

/-- The value of a digit or letter. -/
def digitValue (c : Byte) : Option Nat :=
  if ch '0' ≤ c ∧ c ≤ ch '9' then some (c.toNat - 48)
  else if ch 'a' ≤ c ∧ c ≤ ch 'z' then some (c.toNat - 97 + 10)
  else if ch 'A' ≤ c ∧ c ≤ ch 'Z' then some (c.toNat - 65 + 10)
  else none

/-- The digit loop; `long` is a word, and an overflow wraps. -/
def strtolDigits (base : Nat) : Word → Text → Word × Text
  | val, [] => (val, [])
  | val, c :: s =>
    match digitValue c with
    | none => (val, c :: s)
    | some dig =>
      if dig ≥ base then (val, c :: s)
      else strtolDigits base (val * BitVec.ofNat 32 base + BitVec.ofNat 32 dig) s

/-- The prefix of a hexadecimal or octal number. -/
def strtolBase (base : Nat) (s : Text) : Nat × Text :=
  if (base = 0 ∨ base = 16) ∧ s.getD 0 0 = ch '0' ∧ s.getD 1 0 = ch 'x' then (16, s.drop 2)
  else if base = 0 ∧ s.getD 0 0 = ch '0' then (8, s.drop 1)
  else if base = 0 then (10, s)
  else (base, s)

/-- `strtol(s, endptr, base)`: the result and `*endptr`. -/
def strtol (s : Text) (base : Nat) : Word × Text :=
  let s := s.dropWhile fun c => c = ch ' ' ∨ c = ch '\t'
  let neg := s.head? = some (ch '-')
  let s := if s.head? = some (ch '+') ∨ s.head? = some (ch '-') then s.drop 1 else s
  let (base, s) := strtolBase base s
  let (val, s) := strtolDigits base 0 s
  (if neg then -val else val, s)

/-! ## Digits -/

/-- The digits of a number. -/
def numeral (base num : Nat) : Text :=
  if base ≤ num ∧ 2 ≤ base then numeral base (num / base) ++ [digit (num % base)]
  else [digit (num % base)]
termination_by num
decreasing_by exact Nat.div_lt_self (by omega) (by omega)

/-- A number is printed as its digits, with padding up to the width before them. -/
theorem printnum_eq (num base : Nat) (width : Int) (padc : Byte) :
    printnum num base width padc =
      (List.replicate (width - (numeral base num).length).toNat padc ++ numeral base num).map int := by
  induction num using Nat.strongRecOn generalizing width with
  | ind num ih =>
    rw [printnum, numeral]
    split
    case isTrue h =>
      rw [ih (num / base) (Nat.div_lt_self (by omega) (by omega)), List.length_append, List.length_singleton]
      have hpad : (width - 1 - ((numeral base (num / base)).length : Int)).toNat =
          (width - ((numeral base (num / base)).length + 1 : Nat)).toNat := by omega
      rw [hpad, List.map_append, List.map_append, List.map_append, List.append_assoc]
      rfl
    case isFalse =>
      rw [List.map_append, List.map_replicate, List.length_singleton]
      rfl

theorem char_int (b : Byte) : char (int b) = b := by
  rw [char, int]
  exact BitVec.setWidth_setWidth_of_le b (by decide) |>.trans (BitVec.setWidth_eq b)

theorem map_char_int (t : Text) : (t.map int).map char = t := by
  rw [List.map_map]
  exact (List.map_congr_left fun b _ => char_int b).trans (List.map_id t)

/-- The digits of a base up to 16 are read for what they are. -/
theorem digitValue_digit {d : Nat} (h : d < 16) : digitValue (digit d) = some d := by
  revert d
  decide

/-- A digit is none of the characters `strtol` looks for before the number, and not an `x`. -/
theorem digit_plain {d : Nat} (h : d < 16) : digit d ≠ ch ' ' ∧ digit d ≠ ch '\t' ∧ digit d ≠ ch '+' ∧
    digit d ≠ ch '-' ∧ digit d ≠ ch 'x' := by
  revert d
  decide

/-- What the digits of a number are. -/
theorem numeral_spec {base : Nat} (hbase : 2 ≤ base) (num : Nat) :
    ∃ ds : List Nat, numeral base num = ds.map digit ∧ (∀ d ∈ ds, d < base) ∧ ds ≠ [] ∧
      (ds.head? = some 0 → num = 0) ∧ ∀ v, ds.foldl (fun v d => v * base + d) v = v * base ^ ds.length + num := by
  induction num using Nat.strongRecOn with
  | ind num ih =>
    by_cases h : base ≤ num
    · obtain ⟨ds, hds, hlt, hne, hhead, hval⟩ := ih (num / base) (Nat.div_lt_self (by omega) (by omega))
      refine ⟨ds ++ [num % base], ?_, ?_, by simp, ?_, fun v => ?_⟩
      · rw [numeral, if_pos ⟨h, hbase⟩, hds, List.map_append, List.map_singleton]
      · intro d hd
        rcases List.mem_append.mp hd with hd | hd
        · exact hlt d hd
        · rw [List.mem_singleton.mp hd]
          exact Nat.mod_lt _ (by omega)
      · intro hzero
        rw [List.head?_append_of_ne_nil _ hne] at hzero
        have hdiv := hhead hzero
        have := Nat.div_pos h (by omega)
        omega
      · have hsplit := Nat.div_add_mod num base
        rw [List.foldl_append, hval, List.length_append, List.length_singleton, pow_succ]
        simp only [List.foldl_cons, List.foldl_nil]
        calc (v * base ^ ds.length + num / base) * base + num % base
            = v * (base ^ ds.length * base) + (base * (num / base) + num % base) := by ring
          _ = v * (base ^ ds.length * base) + num := by rw [hsplit]
    · have hmod : num % base = num := Nat.mod_eq_of_lt (by omega)
      refine ⟨[num], ?_, ?_, by simp, fun h0 => Option.some.inj h0, fun v => by simp⟩
      · rw [numeral, if_neg (fun hh => h hh.1), hmod]
        rfl
      · intro d hd
        rw [List.mem_singleton.mp hd]
        omega

/-! ## Reading them back -/

theorem strtolDigits_digits {base : Nat} (hbase : base ≤ 16) {ds : List Nat} (hds : ∀ d ∈ ds, d < base)
    (v : Nat) (rest : Text) :
    strtolDigits base (BitVec.ofNat 32 v) (ds.map digit ++ rest) =
      strtolDigits base (BitVec.ofNat 32 (ds.foldl (fun v d => v * base + d) v)) rest := by
  induction ds generalizing v with
  | nil => rfl
  | cons d ds ih =>
    have hd := hds d List.mem_cons_self
    have hval : digitValue (digit d) = some d := digitValue_digit (by omega)
    rw [List.map_cons, List.cons_append, strtolDigits, hval]
    simp only [if_neg (show ¬ d ≥ base by omega), List.foldl_cons]
    rw [← BitVec.ofNat_mul, ← BitVec.ofNat_add]
    exact ih (fun e he => hds e (List.mem_cons_of_mem _ he)) (v * base + d)

/-- The characters of a number, with zeros before it. -/
theorem zeros_numeral {base : Nat} (hbase : 2 ≤ base) (k num : Nat) :
    ∃ ds : List Nat, List.replicate k (ch '0') ++ numeral base num = ds.map digit ∧ (∀ d ∈ ds, d < base) ∧
      ds ≠ [] ∧ ds.foldl (fun v d => v * base + d) 0 = num := by
  obtain ⟨ds, hds, hlt, hne, -, hval⟩ := numeral_spec hbase num
  refine ⟨List.replicate k 0 ++ ds, ?_, ?_, by simp [hne], ?_⟩
  · rw [List.map_append, List.map_replicate, hds]
    rfl
  · intro d hd
    rcases List.mem_append.mp hd with hd | hd
    · rw [List.eq_of_mem_replicate hd]
      omega
    · exact hlt d hd
  · have hzeros : ∀ k, (List.replicate k 0).foldl (fun v d => v * base + d) 0 = 0 := fun k => by
      induction k with
      | zero => rfl
      | succ k ih => rw [List.replicate_succ, List.foldl_cons, Nat.zero_mul, ih]
    rw [List.foldl_append, hzeros, hval, Nat.zero_mul, Nat.zero_add]

/-- The number without its sign, for the bases that are printed. -/
theorem strtolDigits_number {base : Nat} (hbase : 2 ≤ base) (hbase' : base ≤ 16) (k num : Nat) :
    (strtolBase base (List.replicate k (ch '0') ++ numeral base num)).1 = base ∧
      strtolDigits base 0 (strtolBase base (List.replicate k (ch '0') ++ numeral base num)).2 =
        (BitVec.ofNat 32 num, []) := by
  obtain ⟨ds, hds, hlt, hne, hval⟩ := zeros_numeral hbase k num
  have hx : (ds.map digit).getD 1 0 ≠ ch 'x' := by
    match ds, hlt with
    | [], _ => decide
    | [_], _ => exact (by decide : (0 : Byte) ≠ ch 'x')
    | _ :: d :: _, hlt =>
      have hd := hlt d (by simp)
      exact (digit_plain (by omega : d < 16)).2.2.2.2
  have hplain : strtolBase base (ds.map digit) = (base, ds.map digit) := by
    rw [strtolBase, if_neg fun h => hx h.2.2, if_neg (by omega), if_neg (by omega)]
  rw [hds, hplain]
  refine ⟨rfl, ?_⟩
  have hrun := strtolDigits_digits hbase' hlt 0 []
  rwa [List.append_nil, hval] at hrun

/-- `strtol` on a number, after white space it skips: `k` zeros, and perhaps a sign. -/
theorem strtol_number {base : Nat} (hbase : 2 ≤ base) (hbase' : base ≤ 16) (spaces k num : Nat) (neg : Bool) :
    strtol (List.replicate spaces (ch ' ') ++ ((if neg then [ch '-'] else []) ++
        (List.replicate k (ch '0') ++ numeral base num))) base =
      (if neg then -BitVec.ofNat 32 num else BitVec.ofNat 32 num, []) := by
  obtain ⟨hb, hd⟩ := strtolDigits_number hbase hbase' k num
  obtain ⟨ds, hds, hlt, hne, -⟩ := zeros_numeral hbase k num
  obtain ⟨d, ds', rfl⟩ := List.exists_cons_of_ne_nil hne
  rw [hds, List.map_cons] at hb hd ⊢
  obtain ⟨hsp, htab, hplus, hminus, -⟩ := digit_plain (by have := hlt d (by simp); omega : d < 16)
  have hskip : ∀ b t, b ≠ ch ' ' → b ≠ ch '\t' →
      (List.replicate spaces (ch ' ') ++ b :: t).dropWhile (fun c => decide (c = ch ' ' ∨ c = ch '\t')) = b :: t := by
    intro b t h1 h2
    rw [List.dropWhile_append_of_pos fun c hc => by simp [List.eq_of_mem_replicate hc],
      List.dropWhile_cons_of_neg (by simp [h1, h2])]
  cases neg with
  | true =>
    rw [if_pos rfl, if_pos rfl, List.singleton_append, strtol]
    simp only [hskip _ _ (by decide : ch '-' ≠ ch ' ') (by decide : ch '-' ≠ ch '\t'), List.head?_cons, or_true,
      if_true, List.drop_one, List.tail_cons, hb, hd]
  | false =>
    rw [if_neg Bool.false_ne_true, if_neg Bool.false_ne_true, List.nil_append, strtol]
    have hno : ¬ (some (digit d) = some (ch '+') ∨ some (digit d) = some (ch '-')) := by
      simp [hplus, hminus]
    have hno' : ¬ some (digit d) = some (ch '-') := fun h => hno (.inr h)
    simp only [hskip _ _ hsp htab, List.head?_cons, if_neg hno, if_neg hno', hb, hd]

/-! ## The formats -/

/-- `%d` and the like, with a width `w` unless that is 0, and perhaps the flag `0`. -/
def numberFormat (zero : Bool) (w : Nat) (conv : Char) : Text :=
  ch '%' :: ((if zero then [ch '0'] else []) ++ ((if w = 0 then [] else numeral 10 w) ++ [ch conv]))

/-- What the flags and the width of such a format set. -/
def numberSpec (zero : Bool) (w : Nat) : Spec :=
  { Spec.start with padc := if zero then ch '0' else ch ' ', width := if w = 0 then -1 else w }

/-- The conversions of numbers. -/
def IsNumber (conv : Char) : Prop := conv = 'd' ∨ conv = 'u' ∨ conv = 'o' ∨ conv = 'x'

theorem scanDigits_digits {ds : List Nat} (hds : ∀ d ∈ ds, d < 10) (p d : Nat) (hd : d < 10) {c : Byte}
    (hc : c < ch '0' ∨ ch '9' < c) (rest : Text) :
    scanDigits p (digit d) (ds.map digit ++ c :: rest) =
      ((((d :: ds).foldl (fun v d => v * 10 + d) p : Nat) : Int), c :: rest) := by
  have hval : ∀ d < 10, (digit d).toNat = d + 48 := by decide
  have hin : ∀ d < 10, ¬ (digit d < ch '0' ∨ ch '9' < digit d) := by decide
  have hnext : ((p : Int) * 10 + (digit d).toNat - 48) = (p * 10 + d : Nat) := by
    rw [hval d hd]
    omega
  induction ds generalizing p d with
  | nil => rw [List.map_nil, List.nil_append, scanDigits, if_pos hc, hnext]; rfl
  | cons e ds ih =>
    have he := hds e List.mem_cons_self
    rw [List.map_cons, List.cons_append, scanDigits, if_neg (hin e he), hnext,
      ih (fun x hx => hds x (List.mem_cons_of_mem _ hx)) _ e he (by rw [hval e he]; omega)]
    rfl

section

variable {mem : Word → Text} {nested : (Word → Text) → Text → Va → List Word}

/-- The conversion of a number is reached with the flags and the width set. -/
theorem directive_number {conv : Char} (hconv : IsNumber conv) (zero : Bool) (w : Nat) (start : Text) (ap : Va) :
    directive mem nested start Spec.start ((if zero then [ch '0'] else []) ++
        ((if w = 0 then [] else numeral 10 w) ++ [ch conv])) ap =
      convert mem nested start (numberSpec zero w) (ch conv) [] ap := by
  have hend : ∀ s : Spec, directive mem nested start s [ch conv] ap = convert mem nested start s (ch conv) [] ap := by
    intro s
    rw [directive]
    rcases hconv with rfl | rfl | rfl | rfl <;> rfl
  have hwidth : ∀ s : Spec, s.width = -1 → s.precision = -1 →
      directive mem nested start s ((if w = 0 then [] else numeral 10 w) ++ [ch conv]) ap =
        convert mem nested start { s with width := if w = 0 then -1 else w } (ch conv) [] ap := by
    intro s hs hp
    by_cases hw : w = 0
    · rw [if_pos hw, if_pos hw, List.nil_append, hend]
      rw [← hs]
    · obtain ⟨ds, hds, hlt, hne, hhead, hval⟩ := numeral_spec (by decide : 2 ≤ 10) w
      obtain ⟨d, ds', rfl⟩ := List.exists_cons_of_ne_nil hne
      have hd : d < 10 := hlt d List.mem_cons_self
      have hd0 : d ≠ 0 := fun h0 => hw (hhead (by rw [h0]; rfl))
      have hfirst : ∀ d < 10, d ≠ 0 → digit d ≠ ch '-' ∧ digit d ≠ ch '0' ∧ (ch '1' ≤ digit d ∧ digit d ≤ ch '9') := by
        decide
      obtain ⟨h1, h2, h3⟩ := hfirst d hd hd0
      have hnon : ch conv < ch '0' ∨ ch '9' < ch conv := by
        rcases hconv with rfl | rfl | rfl | rfl <;> decide
      have hscan : scanDigits 0 (digit d) (ds'.map digit ++ [ch conv]) = ((w : Int), [ch conv]) := by
        have hrun := scanDigits_digits (fun x hx => hlt x (List.mem_cons_of_mem _ hx)) 0 d hd hnon []
        rwa [hval, Nat.zero_mul, Nat.zero_add] at hrun
      rw [if_neg hw, hds, List.map_cons, List.cons_append, directive, if_neg h1, if_neg h2, if_pos h3, hscan,
        hend, Spec.process, if_pos (by rw [hs]; decide), if_neg hw]
      rw [← hp]
  cases zero with
  | false => exact hwidth Spec.start rfl rfl
  | true =>
    rw [if_pos rfl, List.singleton_append, directive, if_neg (by decide), if_pos rfl]
    exact hwidth { Spec.start with padc := ch '0' } rfl rfl

theorem vprintfmt_number {conv : Char} (hconv : IsNumber conv) (zero : Bool) (w : Nat) (ap : Va) :
    vprintfmt mem (numberFormat zero w conv) ap =
      (convert mem (fun mem' => vprintfmtWith mem' fun _ _ _ => []) (numberFormat zero w conv).tail
        (numberSpec zero w) (ch conv) [] ap).out := by
  rw [vprintfmt, numberFormat, vprintfmtWith, if_pos rfl, directive_number hconv]
  have hrest : ∀ nested : (Word → Text) → Text → Va → List Word, ∀ start : Text,
      (convert mem nested start (numberSpec zero w) (ch conv) [] ap).fmt = [] := by
    intro nested start
    rcases hconv with rfl | rfl | rfl | rfl <;> rfl
  rw [hrest, vprintfmtWith, List.append_nil]
  rfl

/-- The padding of a number, as `strtol` sees it: spaces, or zeros that are digits. -/
theorem strtol_padded {base : Nat} (hbase : 2 ≤ base) (hbase' : base ≤ 16) (zero : Bool) (k num : Nat) :
    strtol (List.replicate k (if zero then ch '0' else ch ' ') ++ numeral base num) base =
      (BitVec.ofNat 32 num, []) := by
  cases zero with
  | true => exact strtol_number hbase hbase' 0 k num false
  | false => exact strtol_number hbase hbase' k 0 num false

/-- The base of an unsigned conversion. -/
def convBase (conv : Char) : Nat := if conv = 'o' then 8 else if conv = 'x' then 16 else 10

/-- Every unsigned number is read back, in any of the bases, with any width and padding. -/
theorem strtol_unsigned (mem : Word → Text) {conv : Char} (hconv : conv = 'u' ∨ conv = 'o' ∨ conv = 'x')
    (zero : Bool) (w : Nat) (ap : Va) :
    strtol ((vprintfmt mem (numberFormat zero w conv) ap).map char) (convBase conv) = (ap 0, []) := by
  have hvalue : (getuint ap 0).1.toNat = (ap 0).toNat := by
    simp only [getuint, ge_iff_le, Nat.le_zero, OfNat.ofNat_ne_zero, if_false,
      BitVec.truncate_eq_setWidth, BitVec.toNat_setWidth]
    exact Nat.mod_eq_of_lt (by have := (ap 0).isLt; omega)
  have hback : BitVec.ofNat 32 (ap 0).toNat = ap 0 := BitVec.ofNat_toNat .. |>.trans (BitVec.setWidth_eq _)
  have hout : vprintfmt mem (numberFormat zero w conv) ap =
      printnum (ap 0).toNat (convBase conv) (numberSpec zero w).width (numberSpec zero w).padc := by
    rw [vprintfmt_number (.inr hconv), ← hvalue]
    rcases hconv with rfl | rfl | rfl <;> rfl
  have hbounds : 2 ≤ convBase conv ∧ convBase conv ≤ 16 := by
    rcases hconv with rfl | rfl | rfl <;> decide
  rw [hout, printnum_eq, map_char_int]
  exact (strtol_padded hbounds.1 hbounds.2 zero _ _).trans (by rw [hback])

/-- `%08x` of the largest word. -/
theorem strtol_unsigned_hex :
    strtol ((vprintfmt (fun _ => []) (numberFormat true 8 'x') fun _ => 0xFFFFFFFF).map char) 16 =
      (0xFFFFFFFF, []) :=
  strtol_unsigned (fun _ => []) (.inr (.inr rfl)) true 8 fun _ => 0xFFFFFFFF

/-- The magnitude of a negative number, as `printnum` gets it. -/
theorem toNat_neg_of_neg {num : BitVec 64} (h : num.toInt < 0) : (-num).toNat = num.toInt.natAbs := by
  have hcond := BitVec.toInt_eq_toNat_cond num
  have hlt := num.isLt
  rw [BitVec.toNat_neg]
  split at hcond <;> omega

theorem ofNat_natAbs (n : Word) : BitVec.ofNat 32 n.toInt.natAbs = if n.toInt < 0 then -n else n := by
  rw [← BitVec.ofInt_natCast]
  by_cases h : n.toInt < 0
  · rw [if_pos h, Int.ofNat_natAbs_of_nonpos (by omega), BitVec.ofInt_neg, BitVec.ofInt_toInt]
  · rw [if_neg h, Int.natAbs_of_nonneg (by omega), BitVec.ofInt_toInt]

/-- A space after the sign ends the number. -/
theorem strtol_sign_space (t : Text) : strtol (ch '-' :: ch ' ' :: t) 10 = (0, ch ' ' :: t) := by
  have hminus : (ch '-' :: ch ' ' :: t).dropWhile (fun c => decide (c = ch ' ' ∨ c = ch '\t')) =
      ch '-' :: ch ' ' :: t := List.dropWhile_cons_of_neg (by decide)
  have hbase : strtolBase 10 (ch ' ' :: t) = (10, ch ' ' :: t) := by
    rw [strtolBase, if_neg (fun h => absurd h.1 (by decide)), if_neg (fun h => absurd h.1 (by decide)),
      if_neg (by decide)]
  have hstop : strtolDigits 10 0 (ch ' ' :: t) = (0, ch ' ' :: t) := by
    rw [strtolDigits, show digitValue (ch ' ') = none by decide]
  simp only [strtol, hminus, List.head?_cons, or_true, if_true, List.drop_one, List.tail_cons, hbase, hstop]
  rfl

end

end SisOp.Printf
