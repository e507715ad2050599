/-
# `SisOp.Shell.Background` — the `&` that sends a command to the background

An `&` behind a `>` belongs to a redirection; any other one is the background operator.
`parse_cmd` looks at the first `&` only, and at the byte in front of the segment when
there is nothing in front of it, so it is right when the first `&` is the operator or
none is (`detects_iff`).
-/
import SisOp.Shell.Words
import SisOp.Shell.Bounds

namespace SisOp.Shell

open SisOp.Lib

/-! ## What a segment asks for -/

/-- The background operator stands in the segment, behind `pre`. -/
def BackAt (seg pre : Str) : Prop := ∃ rest, seg = pre ++ '&' :: rest ∧ pre.getLast? ≠ some '>'

/-- The text to parse: what stands in front of the first operator, or all. -/
def Foreground (seg t : Str) : Prop :=
  BackAt seg t ∧ (∀ pre, BackAt seg pre → t.length ≤ pre.length) ∨ t = seg ∧ ∀ pre, ¬ BackAt seg pre

def isBack : Cmd → Bool
  | .back _ _ _ => true
  | _ => false

/-- The command `parse_cmd` wraps, or returns. -/
def Runs (c : Cmd) (e : Execcmd) : Prop :=
  (∃ addr, c = .exec addr e) ∨ ∃ addr addr' scmd, c = .back addr scmd (.exec addr' e)

/-- The command is in the background exactly when the segment asks for it, it is the parse of the
text in front of the operator, and no `&` of the segment is in an argument. -/
structure Detects (v : Vars) (seg : Str) (c : Cmd) : Prop where
  back : isBack c = true ↔ ∃ pre, BackAt seg pre
  parsed : seg ≠ [] → ∃ t e, Foreground seg t ∧ parseExec v t = some e ∧ Runs c e ∧
    ∀ a ∈ e.argv, ∃ w, '&' ∉ w ∧ a = expandEnvironVar v w

/-- The first `&` is the operator, if any is, and the byte that `parse_cmd` sees in front of it is
not a `>`. -/
def FirstDecides (before : Char) (seg : Str) : Prop :=
  ∀ pre, BackAt seg pre → ∃ first, '&' ∉ first ∧ BackAt seg first ∧ (first = [] → before ≠ '>')

/-- The text fits the arrays of a command. -/
def Fits (t : Str) : Prop :=
  t.length < BUFLEN ∧ (arguments t).length < MAXARGS ∧ (assignments t).length ≤ MAXARGS

section

variable {v : Vars} {before : Char} {seg t pre : Str} {next : Nat}

theorem foreground_unique {t' : Str} (h : Foreground seg t) (h' : Foreground seg t') : t = t' := by
  rcases h with ⟨hback, hle⟩ | ⟨rfl, hno⟩
  · rcases h' with ⟨hback', hle'⟩ | ⟨-, hno'⟩
    · have hlen : t.length = t'.length := Nat.le_antisymm (hle t' hback') (hle' t hback)
      obtain ⟨r, hr, -⟩ := hback
      obtain ⟨r', hr', -⟩ := hback'
      exact List.append_inj_left (hr.symm.trans hr') hlen
    · exact absurd hback (hno' t)
  · rcases h' with ⟨hback', -⟩ | ⟨rfl, -⟩
    · exact absurd hback' (hno t')
    · rfl

/-! ## The test of `parse_cmd` -/

theorem split_amp (h : '&' ∈ seg) : ∃ rest, seg = seg.takeWhile (· != '&') ++ '&' :: rest := by
  have hmem : ∃ c ∈ seg, ¬ (c != '&') = true := ⟨'&', h, by decide⟩
  have hne : seg.dropWhile (· != '&') ≠ [] := fun hnil => by
    rw [List.dropWhile_eq_nil_iff] at hnil
    exact absurd (hnil '&' h) (by decide)
  obtain ⟨c, rest, hdrop⟩ := List.exists_cons_of_ne_nil hne
  have hhead := List.head?_dropWhile_not (· != '&') seg
  rw [hdrop, List.head?_cons] at hhead
  obtain rfl : c = '&' := by simpa using hhead
  exact ⟨rest, by rw [← hdrop, List.takeWhile_append_dropWhile]⟩

theorem notMem_takeWhile (seg : Str) : '&' ∉ seg.takeWhile (· != '&') := fun h =>
  absurd (List.mem_takeWhile_imp h) (by decide)

theorem takeWhile_first {first rest : Str} (h : '&' ∉ first) :
    (first ++ '&' :: rest).takeWhile (· != '&') = first := by
  have hne : ∀ c ∈ first, (c != '&') = true := fun c hc => by
    rw [bne_iff_ne]
    rintro rfl
    exact h hc
  rw [List.takeWhile_append_of_pos hne]
  simp

theorem blockContains_none (h : '&' ∉ seg) : blockContains seg '&' = none :=
  List.findIdx?_eq_none_iff.mpr fun c hc => by
    rw [beq_eq_false_iff_ne]
    rintro rfl
    exact h hc

theorem charBefore_append (before : Char) (pre rest : Str) :
    charBefore before (pre ++ rest) pre.length = pre.getLast?.getD before := by
  rcases List.eq_nil_or_concat pre with rfl | ⟨pre, c, rfl⟩
  · rfl
  · simp [charBefore, List.getD]

/-- The test is about the first `&`. -/
theorem inBack_first {first rest : Str} (h : '&' ∉ first) :
    inBack before (first ++ '&' :: rest) = (first.getLast?.getD before != '>') := by
  have hidx : blockContains (first ++ '&' :: rest) '&' = some first.length := by
    have hnone := blockContains_none h
    rw [blockContains] at hnone ⊢
    rw [List.findIdx?_append, hnone]
    simp [List.findIdx?_cons]
  rw [inBack, hidx]
  exact congrArg (· != '>') (charBefore_append before first _)

theorem inBack_none (h : '&' ∉ seg) : inBack before seg = false := by
  rw [inBack, blockContains_none h]

theorem getLast?_getD_ne {first : Str} : first.getLast?.getD before ≠ '>' ↔
    first.getLast? ≠ some '>' ∧ (first = [] → before ≠ '>') := by
  cases hlast : first.getLast? with
  | none =>
    rw [List.getLast?_eq_none_iff] at hlast
    simp [hlast]
  | some c =>
    have hne : first ≠ [] := fun hnil => by rw [hnil] at hlast; cases hlast
    simp [hne]

/-- The first `&` is not in a redirection. -/
theorem inBack_iff : inBack before seg = true ↔
    ∃ first, '&' ∉ first ∧ BackAt seg first ∧ (first = [] → before ≠ '>') := by
  by_cases hmem : '&' ∈ seg
  · obtain ⟨rest, hseg⟩ := split_amp hmem
    have hno := notMem_takeWhile seg
    set first := seg.takeWhile (· != '&')
    rw [hseg, inBack_first hno, bne_iff_ne, getLast?_getD_ne]
    constructor
    · exact fun ⟨hlast, hbefore⟩ => ⟨first, hno, ⟨rest, rfl, hlast⟩, hbefore⟩
    · rintro ⟨first', hno', ⟨rest', heq, hlast⟩, hbefore⟩
      obtain rfl : first = first' := by
        have hfirst : (first ++ '&' :: rest).takeWhile (· != '&') = first := takeWhile_first hno
        rw [← hfirst, heq, takeWhile_first hno']
      exact ⟨hlast, hbefore⟩
  · rw [inBack_none hmem]
    refine iff_of_false Bool.false_ne_true ?_
    rintro ⟨first, -, ⟨rest, rfl, -⟩, -⟩
    exact hmem (by simp)

/-- What stands in front of the first `&`, when that is the operator. -/
theorem foreground_first {first : Str} (hno : '&' ∉ first) (hback : BackAt seg first) :
    Foreground seg first := by
  refine .inl ⟨hback, fun pre ⟨rest', heq, _⟩ => ?_⟩
  obtain ⟨rest, rfl, -⟩ := hback
  by_contra hlt
  have hpre : pre ++ ['&'] <+: first ++ '&' :: rest := ⟨rest', by rw [heq]; simp⟩
  have hfirst : first <+: first ++ '&' :: rest := List.prefix_append _ _
  have hle : (pre ++ ['&']).length ≤ first.length := by
    rw [List.length_append, List.length_singleton]
    omega
  exact hno ((List.prefix_of_prefix_length_le hpre hfirst hle).subset (by simp))

/-! ## The arguments -/

/-- An `&` of the text to parse belongs to a redirection. -/
theorem amp_of_foreground (h : Foreground seg t) {a b : Str} (ht : t = a ++ '&' :: b) :
    a.getLast? = some '>' := by
  by_contra hlast
  rcases h with ⟨⟨rest, rfl, -⟩, hle⟩ | ⟨rfl, hno⟩
  · have hlen := hle a ⟨b ++ '&' :: rest, by rw [ht]; simp, hlast⟩
    rw [ht, List.length_append, List.length_cons] at hlen
    omega
  · exact hno a ⟨b, ht, hlast⟩

/-- It is in the token of the redirection. -/
theorem amp_notMem_argument (h : Foreground seg t) {w : Str} (hw : w ∈ arguments t) : '&' ∉ w := by
  intro hamp
  obtain ⟨hword, hkind⟩ := List.mem_filter.mp hw
  obtain ⟨hredir, -⟩ := Bool.and_eq_true_iff.mp hkind
  rw [words_eq_pieces] at hword
  obtain ⟨a, b, rfl, hspace⟩ := mem_pieces hword
  obtain ⟨w1, w2, rfl⟩ := List.append_of_mem hamp
  have hlast := amp_of_foreground h (a := a ++ w1) (b := w2 ++ b) (by simp)
  rw [List.getLast?_append] at hlast
  cases hw1 : w1.getLast? with
  | none =>
    -- the `&` would stand behind a space
    rw [hw1, Option.none_or] at hlast
    exact absurd (hspace _ hlast) (by decide)
  | some c =>
    obtain rfl : c = '>' := by simpa [hw1] using hlast
    have hgt : IsRedir (w1 ++ '&' :: w2) := .inr (List.mem_append_left _ (List.mem_of_getLast? hw1))
    rw [(isRedirFlow_iff _).mpr hgt] at hredir
    cases hredir

theorem argv_of_parseExec {e : Execcmd} (h : Foreground seg t) (he : parseExec v t = some e) :
    ∀ a ∈ e.argv, ∃ w, '&' ∉ w ∧ a = expandEnvironVar v w := by
  rw [(parseExec_collects he).1]
  intro a ha
  obtain ⟨w, hw, rfl⟩ := List.mem_map.mp ha
  exact ⟨w, amp_notMem_argument h hw, rfl⟩

/-! ## `parse_cmd` -/

theorem fits_of_parseExec {e : Execcmd} (h : parseExec v t = some e) : Fits t :=
  ⟨parseExec_length h, (parseExec_isSome_iff v (parseExec_length h)).mp (by rw [h]; rfl)⟩

theorem parseExec_of_fits (v : Vars) (h : Fits t) : ∃ e, parseExec v t = some e :=
  Option.isSome_iff_exists.mp ((parseExec_isSome_iff v h.1).mpr h.2)

theorem parseCmd_back (v : Vars) (next : Nat) (hne : seg ≠ []) (h : inBack before seg = true) :
    parseCmd v before seg next = parseBack v seg next := by
  rw [parseCmd, if_neg hne, if_pos h]

theorem parseCmd_exec (v : Vars) (next : Nat) (hne : seg ≠ []) (h : inBack before seg = false) :
    parseCmd v before seg next = (parseExec v seg).map fun e => (.exec next e, next + 1) := by
  rw [parseCmd, if_neg hne, h, if_neg Bool.false_ne_true]
  cases parseExec v seg <;> rfl

theorem foreground_nil : Foreground [] t ↔ t = [] := by
  have hno : ∀ pre, ¬ BackAt [] pre := fun pre ⟨rest, heq, _⟩ => by simp at heq
  exact ⟨fun h => h.elim (fun h => absurd h.1 (hno t)) And.left, fun h => .inr ⟨h, hno⟩⟩

theorem fits_nil : Fits [] := by
  refine ⟨by decide, ?_, ?_⟩
  · rw [arguments, words_nil]
    decide
  · rw [assignments, words_nil]
    decide

/-- For every segment and every byte in front of it: `parse_cmd` detects the background commands
exactly when the first `&` decides and the text to parse fits a command. -/
theorem detects_iff (v : Vars) (before : Char) (seg : Str) (next : Nat) :
    (∃ c next', parseCmd v before seg next = some (c, next') ∧ Detects v seg c) ↔
      FirstDecides before seg ∧ ∀ t, Foreground seg t → Fits t := by
  by_cases hne : seg = []
  · subst hne
    have hno : ∀ pre, ¬ BackAt [] pre := by
      rintro pre ⟨rest, heq, _⟩
      simp at heq
    refine iff_of_true ⟨.null, next, rfl, ?_, fun h => absurd rfl h⟩ ⟨fun pre hpre => absurd hpre (hno pre),
      fun t ht => ?_⟩
    · exact iff_of_false Bool.false_ne_true (not_exists.mpr hno)
    · rw [foreground_nil.mp ht]
      exact fits_nil
  constructor
  · rintro ⟨c, next', hrun, hdet⟩
    constructor
    · intro pre hpre
      have hback := hdet.back.mpr ⟨pre, hpre⟩
      cases hin : inBack before seg with
      | true => exact inBack_iff.mp hin
      | false =>
        rw [parseCmd_exec v next hne hin, Option.map_eq_some_iff] at hrun
        obtain ⟨e, -, heq⟩ := hrun
        rw [← (Prod.mk.inj heq).1] at hback
        cases hback
    · intro t ht
      obtain ⟨t', e, ht', he, -⟩ := hdet.parsed hne
      exact foreground_unique ht' ht ▸ fits_of_parseExec he
  · rintro ⟨hdecides, hfits⟩
    cases hin : inBack before seg with
    | true =>
      obtain ⟨first, hno, hback, -⟩ := inBack_iff.mp hin
      have hfore := foreground_first hno hback
      obtain ⟨e, he⟩ := parseExec_of_fits v (hfits first hfore)
      have htake : seg.takeWhile (· != '&') = first := by
        obtain ⟨rest, rfl, -⟩ := hback
        exact takeWhile_first hno
      refine ⟨.back (next + 1) e.scmd (.exec next e), next + 2, ?_, iff_of_true rfl ⟨first, hback⟩,
        fun _ => ⟨first, e, hfore, he, .inr ⟨_, _, _, rfl⟩, argv_of_parseExec hfore he⟩⟩
      rw [parseCmd_back v next hne hin, parseBack, htake, he]
      rfl
    | false =>
      have hno : ∀ pre, ¬ BackAt seg pre := fun pre hpre => by
        rw [inBack_iff.mpr (hdecides pre hpre)] at hin
        cases hin
      have hfore : Foreground seg seg := .inr ⟨rfl, hno⟩
      obtain ⟨e, he⟩ := parseExec_of_fits v (hfits seg hfore)
      refine ⟨.exec next e, next + 1, ?_, iff_of_false Bool.false_ne_true (not_exists.mpr hno),
        fun _ => ⟨seg, e, hfore, he, .inl ⟨_, rfl⟩, argv_of_parseExec hfore he⟩⟩
      rw [parseCmd_exec v next hne hin, he]
      rfl

/-- `a 2>&1 &`: the first `&` is not the operator, so the second one is an argument. -/
theorem misses_background : ¬ ∃ c next', parseCmd noVars END_STRING "a 2>&1 &".toList 0 = some (c, next') ∧
    Detects noVars "a 2>&1 &".toList c := by
  rintro ⟨c, next', hrun, hdet⟩
  have hback : BackAt "a 2>&1 &".toList "a 2>&1 ".toList := ⟨[], rfl, by decide⟩
  have hin : inBack END_STRING "a 2>&1 &".toList = false := by decide
  rw [parseCmd_exec noVars 0 (by decide) hin, Option.map_eq_some_iff] at hrun
  obtain ⟨e, -, heq⟩ := hrun
  have hflag := hdet.back.mpr ⟨_, hback⟩
  rw [← (Prod.mk.inj heq).1] at hflag
  cases hflag

end

end SisOp.Shell
