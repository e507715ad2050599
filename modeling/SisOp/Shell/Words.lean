/-
# `SisOp.Shell.Words` — the arguments and assignments of a command

`parse_exec` passes over one space behind each token, so that a second space gives an
empty token, which becomes an argument.  The tokens are the pieces of a scanner; they are
the words of the segment exactly when no piece is empty.
-/
import SisOp.Lib.Fields
import SisOp.Shell.Redirs
import SisOp.Shell.Tree

namespace SisOp.Shell

open SisOp.Lib

/-! ## What a segment says -/

/-- The character separates words. -/
def isSpace (c : Char) : Bool := c == SPACE

/-- A redirection. -/
def IsRedir (w : Str) : Prop := '<' ∈ w ∨ '>' ∈ w

/-- `KEY=VALUE`: there is a `=`, not in first position, and no `-`. -/
def IsAssignment (w : Str) : Prop := '=' ∈ w ∧ w.head? ≠ some '=' ∧ '-' ∉ w

instance : DecidablePred IsRedir := fun w => inferInstanceAs (Decidable ('<' ∈ w ∨ '>' ∈ w))

instance : DecidablePred IsAssignment := fun w =>
  inferInstanceAs (Decidable ('=' ∈ w ∧ w.head? ≠ some '=' ∧ '-' ∉ w))

/-- What a word of `argv` stands for. -/
def expansion (v : Vars) (w : Str) : Str :=
  if w = ['$', '?'] then (toString v.status).toList
  else if w.head? = some ENVIRON_VAR then (v.getenv w.tail).getD []
  else w

/-- The command has the arguments and assignments of the segment, in order, and no others. -/
structure HasWords (v : Vars) (seg : Str) (c : Execcmd) : Prop where
  argv : c.argv =
    ((fields isSpace seg).filter fun w => ¬ IsRedir w ∧ ¬ IsAssignment w).map (expansion v)
  eargv : c.eargv = (fields isSpace seg).filter fun w => ¬ IsRedir w ∧ IsAssignment w

/-! ## One token -/

theorem expandEnvironVar_eq (v : Vars) (arg : Str) : expandEnvironVar v arg = expansion v arg := by
  unfold expandEnvironVar expansion
  by_cases hq : arg = ['$', '?']
  · subst hq
    rfl
  · by_cases hd : arg.head? = some ENVIRON_VAR
    · rw [if_neg (not_not.mpr hd), if_pos hq, if_neg hq, if_pos hd, List.drop_one]
    · rw [if_pos hd, if_neg hq, if_neg hd]

theorem isRedirFlow_iff (tok : Str) : isRedirFlow tok = true ↔ IsRedir tok := by
  rw [isRedirFlow, Bool.or_eq_true, blockContains_isSome, blockContains_isSome, or_comm]
  rfl

theorem isEnvironVar_iff (arg : Str) : isEnvironVar arg = true ↔ IsAssignment arg := by
  unfold isEnvironVar IsAssignment
  cases arg with
  | nil => decide
  | cons a arg =>
    by_cases ha : a = '='
    · have hfirst : blockContains (a :: arg) '=' = some 0 := by simp [blockContains, List.findIdx?_cons, ha]
      rw [hfirst, ha]
      simp
    · have hrest : blockContains (a :: arg) '=' = (blockContains arg '=').map (· + 1) := by
        simp [blockContains, List.findIdx?_cons, ha]
      have hmem : '=' ∈ a :: arg ↔ (blockContains arg '=').isSome = true := by
        rw [blockContains_isSome, List.mem_cons, or_iff_right (Ne.symm ha)]
      rw [hrest, hmem, ← blockContains_isSome]
      cases blockContains arg '=' <;> simp [ha]

/-! ## The loop -/

/-- What the loop collects from the tokens. -/
theorem parseTokens_collects {v : Vars} {c c' : Execcmd} {buf : Str} (h : parseTokens v c buf = some c') :
    c'.argv = c.argv ++ (arguments buf).map (expandEnvironVar v) ∧
      c'.eargv = c.eargv ++ assignments buf := by
  induction buf using words.induct generalizing c with
  | case1 =>
    rw [parseTokens_nil] at h
    cases h
    simp [arguments, assignments, words_nil]
  | case2 buf hne _ ih =>
    rw [parseTokens_of_ne v c hne] at h
    simp only [arguments, assignments, words_of_ne hne]
    simp only [arguments, assignments] at ih
    obtain ⟨hr, d, hd, hargv, heargv⟩ | ⟨hr, hv, hc⟩ | ⟨hr, hv, hc⟩ :=
      parseToken_cases v c (getToken buf)
    · rw [hd] at h
      have hih := ih h
      rw [hargv, heargv] at hih
      simpa [hr] using hih
    · rw [hc] at h
      by_cases hlt : c.eargv.length < MAXARGS
      · rw [if_pos hlt] at h
        simpa [hr, hv] using ih h
      · rw [if_neg hlt] at h
        cases h
    · rw [hc] at h
      by_cases hlt : c.argv.length < MAXARGS
      · rw [if_pos hlt] at h
        simpa [hr, hv] using ih h
      · rw [if_neg hlt] at h
        cases h

/-- The lists of a parsed command. -/
theorem parseExec_collects {v : Vars} {seg : Str} {c : Execcmd} (h : parseExec v seg = some c) :
    c.argv = (arguments seg).map (expandEnvironVar v) ∧ c.eargv = assignments seg := by
  have hlen := parseExec_length h
  simp only [parseExec, execCmdCreate, hlen, if_true] at h
  split at h
  · rename_i c' hrun
    split at h
    · cases h
      simpa using parseTokens_collects hrun
    · cases h
  · cases h

/-! ## The segment -/

theorem words_eq_pieces (seg : Str) : words seg = pieces isSpace seg := by
  induction seg using words.induct with
  | case1 => rw [words_nil, pieces_nil]
  | case2 seg hne _ ih =>
    rw [words_of_ne hne, pieces_of_ne_nil hne, ih]
    rfl

/-- The tokens are the words when no space stands in front and no two spaces in a row. -/
theorem words_eq_fields {seg : Str} (h : Spaced isSpace (SPACE :: seg)) :
    words seg = fields isSpace seg := by
  have hnil : [] ∉ pieces isSpace seg := (nil_notMem_pieces rfl seg).mpr h
  rw [words_eq_pieces, fields_eq_pieces, List.filter_eq_self.mpr]
  intro w hw
  cases w with
  | nil => exact absurd hw hnil
  | cons a w => rfl

section

variable {v : Vars} {seg : Str} {c : Execcmd}

theorem arguments_eq (seg : Str) :
    arguments seg = (words seg).filter fun w => ¬ IsRedir w ∧ ¬ IsAssignment w := by
  refine List.filter_congr fun w _ => ?_
  simp [← isRedirFlow_iff, ← isEnvironVar_iff]

theorem assignments_eq (seg : Str) :
    assignments seg = (words seg).filter fun w => ¬ IsRedir w ∧ IsAssignment w := by
  refine List.filter_congr fun w _ => ?_
  simp [← isRedirFlow_iff, ← isEnvironVar_iff]

/-- A parsed segment with its own words fits in a command and has no space in front and no two spaces
in a row: an empty token is an argument that no word stands for. -/
theorem spaced_of_hasWords (h : parseExec v seg = some c) (hwords : HasWords v seg c) :
    seg.length < BUFLEN ∧ Spaced isSpace (SPACE :: seg) := by
  refine ⟨parseExec_length h, (nil_notMem_pieces rfl seg).mp fun hmem => ?_⟩
  have hsub : (fields isSpace seg).Sublist (words seg) := by
    rw [fields_eq_pieces, words_eq_pieces]
    exact List.filter_sublist
  have hlen := congrArg List.length ((parseExec_collects h).1.symm.trans hwords.argv)
  rw [List.length_map, List.length_map, arguments_eq] at hlen
  have heq := (hsub.filter _).eq_of_length hlen.symm
  have hnil : ([] : Str) ∈ (words seg).filter fun w => ¬ IsRedir w ∧ ¬ IsAssignment w :=
    List.mem_filter.mpr ⟨words_eq_pieces seg ▸ hmem, by decide⟩
  rw [← heq, List.mem_filter, fields_eq_pieces, List.mem_filter] at hnil
  exact absurd hnil.1.2 (by decide)

/-- A segment with few enough words has the arguments and assignments that it says exactly when it
fits in a command and has no space in front and no two spaces in a row. -/
theorem parseExec_words (h : (fields isSpace seg).length ≤ MAXARGS - 1) :
    (∃ c, parseExec v seg = some c ∧ HasWords v seg c) ↔
      seg.length < BUFLEN ∧ Spaced isSpace (SPACE :: seg) := by
  constructor
  · rintro ⟨c, hparse, hc⟩
    exact spaced_of_hasWords hparse hc
  · rintro ⟨hlen, hspaced⟩
    have hwords := words_eq_fields hspaced
    have hmax : MAXARGS = 20 := rfl
    have hargs : (arguments seg).length ≤ (words seg).length := List.length_filter_le _ _
    have hvars : (assignments seg).length ≤ (words seg).length := List.length_filter_le _ _
    rw [← hwords] at h
    obtain ⟨c, hparse⟩ := Option.isSome_iff_exists.mp
      ((parseExec_isSome_iff v hlen).mpr ⟨by omega, by omega⟩)
    obtain ⟨hargv, heargv⟩ := parseExec_collects hparse
    refine ⟨c, hparse, ?_, ?_⟩
    · rw [hargv, arguments_eq, hwords]
      exact List.map_congr_left fun w _ => expandEnvironVar_eq v w
    · rw [heargv, assignments_eq, hwords]

end

def noVars : Vars := ⟨fun _ => none, 0⟩

/-- `A=1 ls -l $X`. -/
theorem parseExec_words_ls : ∃ c, parseExec noVars "A=1 ls -l $X".toList = some c ∧
    HasWords noVars "A=1 ls -l $X".toList c :=
  (parseExec_words (by decide)).mpr ⟨by decide, by decide⟩

/-- The second space of `ls  -l` is an argument. -/
theorem not_hasWords_ls : ¬ ∀ (v : Vars) (seg : Str), (fields isSpace seg).length ≤ MAXARGS - 1 →
    ∃ c, parseExec v seg = some c ∧ HasWords v seg c := by
  intro h
  obtain ⟨c, hparse, hc⟩ := h noVars "ls  -l".toList (by decide)
  exact absurd (spaced_of_hasWords hparse hc).2 (by decide)

end SisOp.Shell
