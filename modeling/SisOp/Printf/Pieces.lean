/-
# `SisOp.Printf.Pieces` — formats put together from pieces

The formats of the kernel monitor are literal text and the directives `%s`, `%d` and `%08x`.
`vprintfmt` prints such a format piece by piece (`vprintfmt_pieces`).
-/
import SisOp.Printf.RoundTrip

namespace SisOp.Printf

open SisOp.Jos (Word Byte)

/-- A piece of a format. -/
inductive Piece
  | lit (t : Text)
  | str
  | dec
  | hex8

namespace Piece

/-- Its text in the format. -/
def format : Piece → Text
  | lit t => t
  | str => [ch '%', ch 's']
  | dec => [ch '%', ch 'd']
  | hex8 => [ch '%', ch '0', ch '8', ch 'x']

/-- The words it takes from the arguments. -/
def args : Piece → Nat
  | lit _ => 0
  | _ => 1

/-- What it prints. -/
def print (mem : Word → Text) (ap : Va) : Piece → List Word
  | lit t => t.map int
  | str => (if ap 0 = 0 then bytes "(null)" else mem (ap 0)).map (·.signExtend 32)
  | dec => printSigned Spec.start ((ap 0).signExtend 64)
  | hex8 => printnum (ap 0).toNat 16 8 (ch '0')

/-- Literal text has no `%` in it. -/
def Plain : Piece → Prop
  | lit t => ch '%' ∉ t
  | _ => True

instance : DecidablePred Plain
  | lit t => inferInstanceAs (Decidable (ch '%' ∉ t))
  | str | dec | hex8 => inferInstanceAs (Decidable True)

end Piece

/-- What the pieces of a format print. -/
def printPieces (mem : Word → Text) : List Piece → Va → List Word
  | [], _ => []
  | p :: ps, ap => p.print mem ap ++ printPieces mem ps (ap.skip p.args)

section

variable {mem : Word → Text} {nested : (Word → Text) → Text → Va → List Word}

theorem vprintfmtWith_lit {t : Text} (ht : ch '%' ∉ t) (fmt : Text) (ap : Va) :
    vprintfmtWith mem nested (t ++ fmt) ap = t.map int ++ vprintfmtWith mem nested fmt ap := by
  induction t with
  | nil => rfl
  | cons c t ih =>
    have hc : c ≠ ch '%' := fun h => ht (h ▸ List.mem_cons_self)
    rw [List.cons_append, vprintfmtWith, if_neg hc, ih fun h => ht (List.mem_cons_of_mem _ h)]
    rfl

/-- A string without flags is printed as it is. -/
theorem printStr_start (p : Text) : printStr Spec.start p = p.map (·.signExtend 32) := by
  have hchars : strChars false p (-1) = p.map (·.signExtend 32) := by
    induction p with
    | nil => rfl
    | cons c p ih =>
      rw [strChars, if_pos (by decide), ih]
      rfl
  have hpad : (Spec.start.width - ((strChars Spec.start.altflag p Spec.start.precision).length : Int)).toNat = 0 := by
    simp only [Spec.start]
    omega
  rw [printStr, if_neg (by decide), hpad, List.replicate_zero, List.append_nil]
  exact hchars

theorem vprintfmtWith_str (fmt : Text) (ap : Va) :
    vprintfmtWith mem nested (Piece.str.format ++ fmt) ap =
      Piece.str.print mem ap ++ vprintfmtWith mem nested fmt (ap.skip 1) := by
  have hdir : directive mem nested (ch 's' :: fmt) Spec.start (ch 's' :: fmt) ap =
      ⟨Piece.str.print mem ap, fmt, ap.skip 1⟩ := by
    rw [directive]
    exact congrArg (fun out => Printed.mk out fmt (ap.skip 1)) (printStr_start _)
  rw [Piece.format, List.cons_append, vprintfmtWith, if_pos rfl, List.singleton_append, hdir]

theorem vprintfmtWith_dec (fmt : Text) (ap : Va) :
    vprintfmtWith mem nested (Piece.dec.format ++ fmt) ap =
      Piece.dec.print mem ap ++ vprintfmtWith mem nested fmt (ap.skip 1) := by
  have hdir : directive mem nested (ch 'd' :: fmt) Spec.start (ch 'd' :: fmt) ap =
      ⟨Piece.dec.print mem ap, fmt, ap.skip 1⟩ := by
    rw [directive]
    rfl
  rw [Piece.format, List.cons_append, vprintfmtWith, if_pos rfl, List.singleton_append, hdir]

theorem vprintfmtWith_hex8 (fmt : Text) (ap : Va) :
    vprintfmtWith mem nested (Piece.hex8.format ++ fmt) ap =
      Piece.hex8.print mem ap ++ vprintfmtWith mem nested fmt (ap.skip 1) := by
  have hscan : scanDigits 0 (ch '8') (ch 'x' :: fmt) = (8, ch 'x' :: fmt) := by
    rw [scanDigits, if_pos (by decide)]
    rfl
  have hdir : ∀ start : Text, directive mem nested start Spec.start (ch '0' :: ch '8' :: ch 'x' :: fmt) ap =
      ⟨printnum ((ap 0).zeroExtend 64).toNat 16 8 (ch '0'), fmt, ap.skip 1⟩ := by
    intro start
    rw [directive, if_neg (by decide), if_pos rfl, directive, if_neg (by decide), if_neg (by decide),
      if_pos (by decide), hscan, directive]
    rfl
  have hnum : ((ap 0).zeroExtend 64).toNat = (ap 0).toNat := by
    rw [BitVec.toNat_setWidth]
    exact Nat.mod_eq_of_lt ((ap 0).isLt.trans (by decide))
  rw [Piece.format, List.cons_append, vprintfmtWith, if_pos rfl]
  simp only [List.cons_append, List.nil_append]
  rw [hdir, hnum]
  rfl

/-- A format of pieces, piece by piece. -/
theorem vprintfmt_pieces (mem : Word → Text) {ps : List Piece} (hps : ∀ p ∈ ps, p.Plain) (ap : Va) :
    vprintfmt mem (ps.flatMap Piece.format) ap = printPieces mem ps ap := by
  have hrun : ∀ nested, vprintfmtWith mem nested (ps.flatMap Piece.format) ap = printPieces mem ps ap := by
    intro nested
    induction ps generalizing ap with
    | nil => rw [List.flatMap_nil, vprintfmtWith, printPieces]
    | cons p ps ih =>
      have hps' : ∀ p ∈ ps, p.Plain := fun p hp => hps p (List.mem_cons_of_mem _ hp)
      rw [List.flatMap_cons, printPieces]
      cases p with
      | lit t => rw [Piece.format, vprintfmtWith_lit (hps (.lit t) List.mem_cons_self), ih hps']; rfl
      | str => rw [vprintfmtWith_str, ih hps']; rfl
      | dec => rw [vprintfmtWith_dec, ih hps']; rfl
      | hex8 => rw [vprintfmtWith_hex8, ih hps']; rfl
  exact hrun _

end

end SisOp.Printf
