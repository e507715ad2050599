/-
# `SisOp.Shell.Tree` — the tree `parse_line` returns

`parse_line` has no way to reject a line: an empty segment gives `NULL`, which
`pipe_cmd_create` keeps on the left and drops on the right.  The tree has a leaf for
every segment, and no hole, exactly when no segment is empty and the arrays suffice.
-/
import SisOp.Shell.Parsing
import Mathlib.Data.List.Forall2
import Mathlib.Logic.Relation

namespace SisOp.Shell

/-! ## The segments of a line -/

/-- A segment after a `'|'`, without its leading blanks, and the character before it. -/
def strip (s : Str) : Char × Str :=
  (if s.head? = some SPACE then SPACE else END_STRING, s.dropWhile (· == SPACE))

/-- The segments between the `'|'`s of a line, each with the character before it. -/
def segments (before : Char) (line : Str) : List (Char × Str) :=
  match line.splitOn '|' with
  | [] => []
  | s :: ss => (before, s) :: ss.map strip

theorem splitOn_dropWhile (s : Str) :
    (s.dropWhile (· == SPACE)).splitOn '|'
      = (s.splitOn '|').modifyHead (List.dropWhile (· == SPACE)) := by
  induction s with
  | nil => rfl
  | cons c cs ih =>
    have hsp : (SPACE == '|') = false := by decide
    rw [List.splitOn_cons_eq_if_modifyHead]
    by_cases hc : c = SPACE
    · subst hc
      rw [hsp, List.dropWhile_cons_of_pos (by simp), ih]
      cases cs.splitOn '|' with
      | nil => rfl
      | cons t ts => simp
    · rw [List.dropWhile_cons_of_neg (by simpa using hc), List.splitOn_cons_eq_if_modifyHead]
      cases hb : c == '|' with
      | true => simp
      | false =>
        cases cs.splitOn '|' with
        | nil => rfl
        | cons t ts => simp [hc]

theorem head?_head_splitOn {s t : Str} {ts : List Str} (h : s.splitOn '|' = t :: ts) :
    t.head? = some SPACE ↔ s.head? = some SPACE := by
  cases s with
  | nil =>
    cases h
    rfl
  | cons c cs =>
    rw [List.splitOn_cons_eq_if_modifyHead] at h
    cases hb : c == '|' with
    | true =>
      rw [hb] at h
      cases h
      rw [beq_iff_eq] at hb
      subst hb
      exact iff_of_false (by simp) (by simp [SPACE])
    | false =>
      rw [hb] at h
      cases hs : cs.splitOn '|' with
      | nil => exact absurd hs (List.splitOn_ne_nil _ _)
      | cons u us =>
        rw [hs] at h
        cases h
        rfl

theorem map_strip_splitOn (rest : Str) :
    (rest.splitOn '|').map strip = segments (strip rest).1 (strip rest).2 := by
  have hd := splitOn_dropWhile rest
  cases hs : rest.splitOn '|' with
  | nil => exact absurd hs (List.splitOn_ne_nil _ _)
  | cons t ts =>
    have hh := head?_head_splitOn hs
    rw [hs] at hd
    simp only [segments, strip, hd, List.modifyHead_cons, List.map_cons, hh]

theorem segments_of_not_mem (before : Char) {line : Str} (h : '|' ∉ line) :
    segments before line = [(before, line)] := by
  simp [segments, List.splitOn_eq_singleton h]

theorem segments_cons (before : Char) {left : Str} (h : '|' ∉ left) (rest : Str) :
    segments before (left ++ '|' :: rest)
      = (before, left) :: segments (strip rest).1 (strip rest).2 := by
  rw [← map_strip_splitOn]
  simp only [segments, List.splitOn_append_cons_self_of_not_mem h]

theorem segments_ne_nil (before : Char) (line : Str) : segments before line ≠ [] := by
  cases hs : line.splitOn '|' with
  | nil => exact absurd hs (List.splitOn_ne_nil _ _)
  | cons t ts => simp [segments, hs]

/-! ## One segment -/

/-- What `parse_exec` gets of a segment. -/
def plain (before : Char) (seg : Str) : Str :=
  if inBack before seg then seg.takeWhile (· != '&') else seg

/-- The tokens of `parse_exec`. -/
def words (buf : Str) : List Str :=
  if h : buf = [] then []
  else
    have := drop_token_lt h
    getToken buf :: words ((buf.drop (getToken buf).length).drop 1)
termination_by buf.length

def isRedirFlow (tok : Str) : Bool :=
  (blockContains tok '>').isSome || (blockContains tok '<').isSome

/-- The tokens that go to `eargv`. -/
def assignments (buf : Str) : List Str :=
  (words buf).filter fun tok => !isRedirFlow tok && isEnvironVar tok

/-- The tokens that go to `argv`. -/
def arguments (buf : Str) : List Str :=
  (words buf).filter fun tok => !isRedirFlow tok && !isEnvironVar tok

/-- The command fits the arrays of `struct execcmd`. -/
def FitsArrays (before : Char) (seg : Str) : Prop :=
  (arguments (plain before seg)).length < MAXARGS ∧
    (assignments (plain before seg)).length ≤ MAXARGS

theorem parseRedirFlow_isSome (c : Execcmd) (tok : Str) :
    (parseRedirFlow c tok).isSome = isRedirFlow tok := by
  unfold parseRedirFlow isRedirFlow
  cases blockContains tok '>' with
  | some i => rfl
  | none =>
    cases blockContains tok '<' with
    | some i => rfl
    | none => rfl

theorem parseRedirFlow_lists {c c' : Execcmd} {tok : Str} (h : parseRedirFlow c tok = some c') :
    c'.argv = c.argv ∧ c'.eargv = c.eargv := by
  unfold parseRedirFlow at h
  split at h
  · cases h
    dsimp only
    split
    · exact ⟨rfl, rfl⟩
    · split <;> exact ⟨rfl, rfl⟩
  · split at h
    · cases h
      exact ⟨rfl, rfl⟩
    · cases h

/-- What the loop of `parse_exec` does with a token, by its kind. -/
theorem parseToken_cases (v : Vars) (c : Execcmd) (tok : Str) :
    (isRedirFlow tok = true ∧ ∃ c', parseToken v c tok = some c' ∧
        c'.argv = c.argv ∧ c'.eargv = c.eargv) ∨
    (isRedirFlow tok = false ∧ isEnvironVar tok = true ∧
        parseToken v c tok = if c.eargv.length < MAXARGS
          then some { c with eargv := c.eargv ++ [tok] } else none) ∨
    (isRedirFlow tok = false ∧ isEnvironVar tok = false ∧
        parseToken v c tok = if c.argv.length < MAXARGS
          then some { c with argv := c.argv ++ [expandEnvironVar v tok] } else none) := by
  have hsome := parseRedirFlow_isSome c tok
  unfold parseToken
  cases hr : parseRedirFlow c tok with
  | some c' =>
    rw [hr] at hsome
    exact Or.inl ⟨hsome.symm, c', rfl, parseRedirFlow_lists hr⟩
  | none =>
    rw [hr] at hsome
    cases he : isEnvironVar tok with
    | true => exact Or.inr (Or.inl ⟨hsome.symm, rfl, by simp⟩)
    | false => exact Or.inr (Or.inr ⟨hsome.symm, rfl, by simp⟩)

theorem words_of_ne {buf : Str} (h : buf ≠ []) :
    words buf = getToken buf :: words ((buf.drop (getToken buf).length).drop 1) := by
  rw [words]
  simp only [h, dite_false]

theorem words_nil : words [] = [] := by
  rw [words]
  rfl

/-- The loop of `parse_exec` gets to the end exactly when the tokens of each kind fit. -/
theorem parseTokens_fits (v : Vars) (buf : Str) :
    ∀ c : Execcmd, c.argv.length ≤ MAXARGS → c.eargv.length ≤ MAXARGS →
      (∀ c', parseTokens v c buf = some c' →
        c'.argv.length = c.argv.length + (arguments buf).length ∧
          c'.argv.length ≤ MAXARGS ∧
          c.eargv.length + (assignments buf).length ≤ MAXARGS) ∧
      (c.argv.length + (arguments buf).length ≤ MAXARGS →
        c.eargv.length + (assignments buf).length ≤ MAXARGS →
          (parseTokens v c buf).isSome = true) := by
  induction buf using words.induct with
  | case1 =>
    intro c ha he
    simp only [arguments, assignments, words_nil, List.filter_nil, List.length_nil, Nat.add_zero,
      parseTokens_nil]
    refine ⟨?_, fun _ _ => rfl⟩
    intro c' hc'
    cases hc'
    exact ⟨rfl, ha, he⟩
  | case2 buf hne _ ih =>
    intro c ha he
    rw [parseTokens_of_ne v c hne]
    simp only [arguments, assignments, words_of_ne hne]
    simp only [arguments, assignments] at ih
    obtain ⟨hr, d, hd, hargv, heargv⟩ | ⟨hr, hv, hc⟩ | ⟨hr, hv, hc⟩ :=
      parseToken_cases v c (getToken buf)
    · rw [hd]
      have hih := ih d (hargv ▸ ha) (heargv ▸ he)
      simp only [hargv, heargv] at hih
      simpa [hr] using hih
    · rw [hc]
      by_cases hlt : c.eargv.length < MAXARGS
      · rw [if_pos hlt]
        have hih := ih { c with eargv := c.eargv ++ [getToken buf] } ha (by
          simp only [List.length_append, List.length_singleton]
          omega)
        simp only [List.length_append, List.length_singleton] at hih
        simp only [List.filter_cons, hr, hv, if_true, Bool.not_false, Bool.true_and, Bool.not_true,
          Bool.false_eq_true, if_false, List.length_cons]
        refine ⟨?_, ?_⟩
        · intro c' hc'
          obtain ⟨h1, h2, h3⟩ := hih.1 c' hc'
          exact ⟨h1, h2, by omega⟩
        · intro h1 h2
          exact hih.2 h1 (by omega)
      · simp only [hlt]
        simp only [List.filter_cons, hr, hv, if_true, if_false, Bool.not_false, Bool.true_and,
          List.length_cons]
        refine ⟨by simp, ?_⟩
        intro _ h2
        omega
    · rw [hc]
      by_cases hlt : c.argv.length < MAXARGS
      · rw [if_pos hlt]
        have hih := ih { c with argv := c.argv ++ [expandEnvironVar v (getToken buf)] } (by
          simp only [List.length_append, List.length_singleton]
          omega) he
        simp only [List.length_append, List.length_singleton] at hih
        simp only [List.filter_cons, hr, hv, if_true, Bool.not_false, Bool.true_and,
          Bool.false_eq_true, if_false, List.length_cons]
        refine ⟨?_, ?_⟩
        · intro c' hc'
          obtain ⟨h1, h2, h3⟩ := hih.1 c' hc'
          exact ⟨by omega, h2, h3⟩
        · intro h1 h2
          exact hih.2 (by omega) h2
      · simp only [hlt]
        simp only [List.filter_cons, hr, hv, if_true, if_false, Bool.not_false, Bool.true_and,
          List.length_cons]
        refine ⟨by simp, ?_⟩
        intro h1 _
        omega

/-- `parse_exec` succeeds exactly when the tokens of each kind, and the `NULL`, fit. -/
theorem parseExec_isSome_iff (v : Vars) {buf : Str} (hlen : buf.length < BUFLEN) :
    (parseExec v buf).isSome = true ↔
      (arguments buf).length < MAXARGS ∧ (assignments buf).length ≤ MAXARGS := by
  have hfit := parseTokens_fits v buf
    { type := .EXEC, scmd := buf, argv := [], eargv := [], outFile := [], inFile := [],
      errFile := [] } (Nat.zero_le _) (Nat.zero_le _)
  simp only [List.length_nil, Nat.zero_add] at hfit
  simp only [parseExec, execCmdCreate, hlen, if_true]
  constructor
  · intro h
    split at h
    · rename_i c' hc'
      obtain ⟨h1, _, h3⟩ := hfit.1 c' hc'
      split at h
      · rename_i hlt
        exact ⟨h1 ▸ hlt, h3⟩
      · cases h
    · cases h
  · rintro ⟨ha, he⟩
    obtain ⟨c', hc'⟩ := Option.isSome_iff_exists.mp (hfit.2 (Nat.le_of_lt ha) he)
    obtain ⟨h1, _, _⟩ := hfit.1 c' hc'
    simp only [hc', h1, ha, if_true, Option.isSome_some]

theorem parseExec_length {v : Vars} {buf : Str} {e : Execcmd} (h : parseExec v buf = some e) :
    buf.length < BUFLEN := by
  by_contra hlen
  simp only [parseExec, execCmdCreate, hlen, if_false] at h
  cases h

theorem length_plain_le (before : Char) (seg : Str) : (plain before seg).length ≤ seg.length := by
  unfold plain
  split
  · exact (List.takeWhile_sublist _).length_le
  · exact Nat.le_refl _

/-- `parse_cmd` on a segment that is not empty: one `parse_exec`, perhaps in the background. -/
theorem parseCmd_of_ne (v : Vars) (before : Char) {seg : Str} (hne : seg ≠ []) (m : Nat) :
    parseCmd v before seg m = (parseExec v (plain before seg)).map fun e =>
      if inBack before seg then (.back (m + 1) e.scmd (.exec m e), m + 2)
      else (.exec m e, m + 1) := by
  simp only [parseCmd, hne, if_false, plain]
  cases inBack before seg with
  | true =>
    simp only [if_true, parseBack, backCmdCreate]
    cases parseExec v (seg.takeWhile (· != '&')) with
    | none => rfl
    | some e => rfl
  | false =>
    simp only [Bool.false_eq_true, if_false]
    cases parseExec v seg with
    | none => rfl
    | some e => rfl

/-- `parse_cmd` succeeds on a segment exactly when the command fits the arrays. -/
theorem parseCmd_isSome_iff (v : Vars) {before : Char} {seg : Str} (hne : seg ≠ [])
    (hlen : seg.length < BUFLEN) (m : Nat) :
    (parseCmd v before seg m).isSome = true ↔ FitsArrays before seg := by
  rw [parseCmd_of_ne v before hne, Option.isSome_map]
  exact parseExec_isSome_iff v (Nat.lt_of_le_of_lt (length_plain_le before seg) hlen)

theorem length_words_le (buf : Str) : (words buf).length ≤ buf.length := by
  induction buf using words.induct with
  | case1 =>
    rw [words_nil]
    exact Nat.le_refl _
  | case2 buf hne hlt ih =>
    rw [words_of_ne hne, List.length_cons]
    omega

/-- A segment shorter than the arrays fits them. -/
theorem fitsArrays_of_length {before : Char} {seg : Str} (h : seg.length < MAXARGS) :
    FitsArrays before seg := by
  have hplain := length_plain_le before seg
  have hwords := length_words_le (plain before seg)
  have harg : (arguments (plain before seg)).length ≤ _ := List.length_filter_le _ _
  have hassign : (assignments (plain before seg)).length ≤ _ := List.length_filter_le _ _
  exact ⟨by omega, by omega⟩

/-! ## The tree -/

/-- A command that `parse_cmd` makes. -/
def Cmd.IsSimple : Cmd → Prop
  | .exec _ _ => True
  | .back _ _ (.exec _ _) => True
  | _ => False

/-- Only the right command of a pipe is a pipe. -/
def Cmd.RightNested : Cmd → Prop
  | .pipe _ l r => l.IsSimple ∧ r.RightNested
  | c => c.IsSimple

/-- The commands that are not pipes, left to right. -/
def Cmd.leaves : Cmd → List Cmd
  | .null => []
  | .exec addr e => [.exec addr e]
  | .back addr scmd c => [.back addr scmd c]
  | .pipe _ l r => l.leaves ++ r.leaves

/-- `exec_cmd` of a command calls `exec_cmd` of another one. -/
inductive Cmd.Calls : Cmd → Cmd → Prop
  | back (addr : Nat) (scmd : Str) (c : Cmd) : Cmd.Calls (.back addr scmd c) c
  | left (addr : Nat) (l r : Cmd) : Cmd.Calls (.pipe addr l r) l
  | right (addr : Nat) (l r : Cmd) : Cmd.Calls (.pipe addr l r) r

/-- The commands `exec_cmd` gets to from a command. -/
def Cmd.Reaches : Cmd → Cmd → Prop := Relation.ReflTransGen Cmd.Calls

/-- The tree `parse_line` made of a line, with the numbers of its `calloc`s. -/
structure ParsesWell (v : Vars) (before : Char) (line : Str) (tree : Cmd) (first next : Nat) :
    Prop where
  no_null : ∀ c, tree.Reaches c → c ≠ .null
  right_nested : tree.RightNested
  leaves : List.Forall₂
    (fun seg leaf => ∃ m m', parseCmd v seg.1 seg.2 m = some (leaf, m'))
    (segments before line) tree.leaves
  freed : freeCommand tree = some (List.range' first (next - first))
  le : first ≤ next

theorem reaches_exec {addr : Nat} {e : Execcmd} {c : Cmd} (h : (Cmd.exec addr e).Reaches c) :
    c = .exec addr e := by
  cases Relation.ReflTransGen.cases_head h with
  | inl heq => exact heq.symm
  | inr hstep =>
    obtain ⟨_, hcall, _⟩ := hstep
    cases hcall

theorem reaches_back {addr m : Nat} {scmd : Str} {e : Execcmd} {c : Cmd}
    (h : (Cmd.back addr scmd (.exec m e)).Reaches c) :
    c = .back addr scmd (.exec m e) ∨ c = .exec m e := by
  cases Relation.ReflTransGen.cases_head h with
  | inl heq => exact Or.inl heq.symm
  | inr hstep =>
    obtain ⟨_, hcall, hrest⟩ := hstep
    cases hcall
    exact Or.inr (reaches_exec hrest)

theorem reaches_pipe {addr : Nat} {l r c : Cmd} (h : (Cmd.pipe addr l r).Reaches c) :
    c = .pipe addr l r ∨ l.Reaches c ∨ r.Reaches c := by
  cases Relation.ReflTransGen.cases_head h with
  | inl heq => exact Or.inl heq.symm
  | inr hstep =>
    obtain ⟨_, hcall, hrest⟩ := hstep
    cases hcall with
    | left => exact Or.inr (Or.inl hrest)
    | right => exact Or.inr (Or.inr hrest)

/-- What `parse_cmd` makes of a segment that is not empty. -/
structure LeafOf (leaf : Cmd) (first next : Nat) : Prop where
  no_null : ∀ c, leaf.Reaches c → c ≠ .null
  simple : leaf.IsSimple
  leaves : leaf.leaves = [leaf]
  freed : freeCommand leaf = some (List.range' first (next - first))
  lt : first < next

theorem leafOf_parseCmd {v : Vars} {before : Char} {seg : Str} (hne : seg ≠ []) {m m' : Nat}
    {leaf : Cmd} (h : parseCmd v before seg m = some (leaf, m')) : LeafOf leaf m m' := by
  rw [parseCmd_of_ne v before hne] at h
  obtain ⟨e, _, hleaf⟩ := Option.map_eq_some_iff.mp h
  cases hb : inBack before seg with
  | true =>
    rw [hb, if_pos rfl] at hleaf
    cases hleaf
    refine ⟨?_, trivial, rfl, ?_, by omega⟩
    · intro c hc
      obtain rfl | rfl := reaches_back hc <;> exact Cmd.noConfusion
    · rw [Nat.add_sub_cancel_left]
      rfl
  | false =>
    rw [hb] at hleaf
    cases hleaf
    refine ⟨?_, trivial, rfl, ?_, by omega⟩
    · intro c hc
      rw [reaches_exec hc]
      exact Cmd.noConfusion
    · rw [Nat.add_sub_cancel_left]
      rfl

theorem parsesWell_leaf {v : Vars} {before : Char} {seg line : Str} {leaf : Cmd} {m m' : Nat}
    (hseg : segments before line = [(before, seg)]) (hne : seg ≠ [])
    (h : parseCmd v before seg m = some (leaf, m')) : ParsesWell v before line leaf m m' := by
  have hl := leafOf_parseCmd hne h
  refine ⟨hl.no_null, ?_, ?_, hl.freed, Nat.le_of_lt hl.lt⟩
  · have hs := hl.simple
    cases leaf with
    | pipe addr l r => cases hs
    | null => cases hs
    | exec addr e => exact hs
    | back addr scmd c => exact hs
  · rw [hseg, hl.leaves]
    exact List.Forall₂.cons ⟨m, m', h⟩ List.Forall₂.nil

theorem parsesWell_pipe {v : Vars} {before b : Char} {seg line rest : Str} {l r : Cmd}
    {m m' m'' : Nat} (hseg : segments before line = (before, seg) :: segments b rest)
    (hne : seg ≠ []) (h : parseCmd v before seg m = some (l, m'))
    (hr : ParsesWell v b rest r m' m'') :
    ParsesWell v before line (.pipe m'' l r) m (m'' + 1) := by
  have hl := leafOf_parseCmd hne h
  have hlt := hl.lt
  have hle := hr.le
  refine ⟨?_, ⟨hl.simple, hr.right_nested⟩, ?_, ?_, by omega⟩
  · intro c hc
    obtain rfl | hc | hc := reaches_pipe hc
    · exact Cmd.noConfusion
    · exact hl.no_null c hc
    · exact hr.no_null c hc
  · rw [hseg]
    change List.Forall₂ _ _ (l.leaves ++ r.leaves)
    rw [hl.leaves]
    exact List.Forall₂.cons ⟨m, m', h⟩ hr.leaves
  · simp only [freeCommand, hl.freed, hr.freed]
    have h1 : m'' + 1 - m = (m' - m) + ((m'' - m') + 1) := by omega
    have h2 : m' = m + (m' - m) := by omega
    rw [h1, ← List.range'_append_1, ← List.range'_append_1, List.append_assoc, ← h2,
      show m' + (m'' - m') = m'' by omega]
    rfl

/-! ## The line -/

theorem takeWhile_ne_of_not_mem {c : Char} {s : Str} (h : c ∉ s) :
    s.takeWhile (· != c) = s := by
  have happ := @List.takeWhile_append_of_pos _ (· != c) s [] (by
    intro x hx
    simpa using ne_of_mem_of_not_mem hx h)
  simpa using happ

theorem takeWhile_ne_append {c : Char} {s : Str} (h : c ∉ s) (rest : Str) :
    (s ++ c :: rest).takeWhile (· != c) = s := by
  rw [List.takeWhile_append_of_pos]
  · simp
  · intro x hx
    simpa using ne_of_mem_of_not_mem hx h

theorem splitLine_of_not_mem {before : Char} {line : Str} (h : '|' ∉ line) (room : Nat) :
    splitLine ⟨before, line, room⟩ '|' = if line.length + 1 < room
      then some (line, ⟨END_STRING, [], room - (line.length + 1)⟩) else none := by
  simp only [splitLine, takeWhile_ne_of_not_mem h]
  rw [List.drop_eq_nil_of_le (Nat.le_succ _)]
  rfl

theorem splitLine_append {before : Char} {left : Str} (h : '|' ∉ left) (rest : Str) (room : Nat) :
    splitLine ⟨before, left ++ '|' :: rest, room⟩ '|' =
      if left.length + 1 + (rest.length - (strip rest).2.length) < room
      then some (left, ⟨(strip rest).1, (strip rest).2,
        room - (left.length + 1 + (rest.length - (strip rest).2.length))⟩) else none := by
  simp only [splitLine, takeWhile_ne_append h]
  rw [show left ++ '|' :: rest = (left ++ ['|']) ++ rest by simp,
    List.drop_left' (by simp)]
  rfl

theorem parseLine_of_split {v : Vars} {buf right : Buf} {left : Str} {next : Nat}
    (hs : splitLine buf '|' = some (left, right)) :
    parseLine v buf next = (parseCmd v buf.before left next).bind fun p =>
      if right.text = [] then some (pipeCmdCreate p.1 .null p.2)
      else (parseLine v right p.2).map fun q => pipeCmdCreate p.1 q.1 q.2 := by
  rw [parseLine]
  split
  · rename_i hn
    rw [hn] at hs
    cases hs
  · rename_i left' right' hsome
    rw [hsome] at hs
    cases hs
    cases parseCmd v buf.before left next with
    | none => rfl
    | some p =>
      by_cases hr : right.text = []
      · simp [hr]
      · simp only [hr, dite_false, if_false, Option.bind_some]
        cases parseLine v right p.2 with
        | none => rfl
        | some q => rfl

theorem parseLine_of_split_none {v : Vars} {buf : Buf} {next : Nat}
    (hs : splitLine buf '|' = none) : parseLine v buf next = none := by
  rw [parseLine]
  split
  · rfl
  · rename_i hsome
    rw [hsome] at hs
    cases hs

/-- No segment is empty, and each fits its arrays. -/
def SegmentsFit (before : Char) (line : Str) : Prop :=
  ∀ seg ∈ segments before line, seg.2 ≠ [] ∧ FitsArrays seg.1 seg.2

theorem leaves_pipeCmdCreate (l r : Cmd) (m : Nat) :
    (pipeCmdCreate l r m).1.leaves = l.leaves ++ r.leaves := by
  unfold pipeCmdCreate
  split
  · rename_i h
    rw [h, show Cmd.leaves .null = [] from rfl, List.append_nil]
  · rfl

theorem segments_nil (before : Char) : segments before [] = [(before, [])] := rfl

theorem eq_or_eq_append (line : Str) :
    '|' ∉ line ∨ ∃ left rest, line = left ++ '|' :: rest ∧ '|' ∉ left := by
  by_cases h : '|' ∈ line
  · exact Or.inr (List.eq_append_cons_of_mem h)
  · exact Or.inl h

theorem length_strip_le (rest : Str) : (strip rest).2.length ≤ rest.length :=
  (List.dropWhile_suffix _).length_le

/-- By induction on the line: where every segment fits, the tree is well formed. -/
theorem parsesWell_of_fit (v : Vars) (n : Nat) :
    ∀ line : Str, line.length ≤ n → ∀ (before : Char) (room next : Nat),
      line.length + 1 < room → room ≤ BUFLEN → SegmentsFit before line →
        ∃ tree next', parseLine v ⟨before, line, room⟩ next = some (tree, next') ∧
          ParsesWell v before line tree next next' := by
  induction n with
  | zero =>
    intro line hn before room next _ _ hfit
    have hnil : line = [] := List.eq_nil_of_length_eq_zero (Nat.le_zero.mp hn)
    subst hnil
    exact absurd rfl (hfit (before, []) (by rw [segments_nil]; exact List.mem_cons_self)).1
  | succ n ih =>
    intro line hn before room next hroom hbuf hfit
    obtain hno | ⟨left, rest, rfl, hno⟩ := eq_or_eq_append line
    · have hseg := segments_of_not_mem before hno
      have hf : line ≠ [] ∧ FitsArrays before line :=
        hfit (before, line) (by rw [hseg]; exact List.mem_cons_self)
      obtain ⟨⟨leaf, m'⟩, hcmd⟩ := Option.isSome_iff_exists.mp
        ((parseCmd_isSome_iff v hf.1 (by omega) next).mpr hf.2)
      refine ⟨leaf, m', ?_, parsesWell_leaf hseg hf.1 hcmd⟩
      rw [parseLine_of_split (by rw [splitLine_of_not_mem hno, if_pos hroom])]
      simp only [hcmd, Option.bind_some, if_true, pipeCmdCreate]
    · have hseg := segments_cons before hno rest
      have hlen := length_strip_le rest
      simp only [List.length_append, List.length_cons] at hn hroom
      have hf : left ≠ [] ∧ FitsArrays before left :=
        hfit (before, left) (by rw [hseg]; exact List.mem_cons_self)
      have hfit' : SegmentsFit (strip rest).1 (strip rest).2 := by
        intro seg hmem
        exact hfit seg (by rw [hseg]; exact List.mem_cons_of_mem _ hmem)
      obtain ⟨⟨l, m'⟩, hcmd⟩ := Option.isSome_iff_exists.mp
        ((parseCmd_isSome_iff v hf.1 (by omega) next).mpr hf.2)
      obtain ⟨r, m'', hline, hwell⟩ := ih (strip rest).2 (by omega) (strip rest).1
        (room - (left.length + 1 + (rest.length - (strip rest).2.length))) m' (by omega) (by omega)
        hfit'
      have hr : r ≠ .null := hwell.no_null r Relation.ReflTransGen.refl
      have hright : (strip rest).2 ≠ [] := by
        intro hnil
        rw [hnil] at hfit'
        exact (hfit' (_, []) (by rw [segments_nil]; exact List.mem_cons_self)).1 rfl
      refine ⟨.pipe m'' l r, m'' + 1, ?_, parsesWell_pipe hseg hf.1 hcmd hwell⟩
      rw [parseLine_of_split (by rw [splitLine_append hno, if_pos (by omega)])]
      simp only [hcmd, Option.bind_some, hright, if_false, hline, Option.map_some, pipeCmdCreate, hr]

theorem length_leaves_parseCmd {v : Vars} {before : Char} {seg : Str} {m m' : Nat} {leaf : Cmd}
    (h : parseCmd v before seg m = some (leaf, m')) :
    leaf.leaves.length = if seg = [] then 0 else 1 := by
  by_cases hne : seg = []
  · simp only [parseCmd, hne, if_true] at h
    cases h
    rw [if_pos hne]
    rfl
  · rw [if_neg hne, (leafOf_parseCmd hne h).leaves]
    rfl

/-- By induction on the line: the tree has no more leaves than the line has segments, and as many
only where every segment fits. -/
theorem fit_of_leaves (v : Vars) (n : Nat) :
    ∀ line : Str, line.length ≤ n → line ≠ [] → ∀ (before : Char) (room next next' : Nat)
      (tree : Cmd), room ≤ BUFLEN → parseLine v ⟨before, line, room⟩ next = some (tree, next') →
        tree.leaves.length ≤ (segments before line).length ∧
        (tree.leaves.length = (segments before line).length →
          line.length + 1 < room ∧ SegmentsFit before line) := by
  induction n with
  | zero =>
    intro line hn hne
    exact absurd (List.eq_nil_of_length_eq_zero (Nat.le_zero.mp hn)) hne
  | succ n ih =>
    intro line hn hne before room next next' tree hbuf hparse
    obtain hno | ⟨left, rest, rfl, hno⟩ := eq_or_eq_append line
    · have hseg := segments_of_not_mem before hno
      by_cases hroom : line.length + 1 < room
      · rw [parseLine_of_split (by rw [splitLine_of_not_mem hno, if_pos hroom])] at hparse
        obtain ⟨⟨l, m'⟩, hcmd, hl⟩ := Option.bind_eq_some_iff.mp hparse
        simp only [if_true, pipeCmdCreate] at hl
        cases hl
        have hcount := length_leaves_parseCmd hcmd
        rw [if_neg hne] at hcount
        rw [hseg]
        refine ⟨Nat.le_of_eq hcount, fun _ => ⟨hroom, ?_⟩⟩
        intro seg hmem
        rw [hseg] at hmem
        cases List.mem_singleton.mp hmem
        exact ⟨hne, (parseCmd_isSome_iff v hne (by omega) next).mp (Option.isSome_of_eq_some hcmd)⟩
      · rw [parseLine_of_split_none (by rw [splitLine_of_not_mem hno, if_neg hroom])] at hparse
        cases hparse
    · have hseg := segments_cons before hno rest
      have hlen := length_strip_le rest
      simp only [List.length_append, List.length_cons] at hn ⊢
      by_cases hroom : left.length + 1 + (rest.length - (strip rest).2.length) < room
      · rw [parseLine_of_split (by rw [splitLine_append hno, if_pos hroom])] at hparse
        obtain ⟨⟨l, m'⟩, hcmd, hl⟩ := Option.bind_eq_some_iff.mp hparse
        have hcount := length_leaves_parseCmd hcmd
        rw [hseg, List.length_cons]
        by_cases hright : (strip rest).2 = []
        · simp only [hright, if_true, pipeCmdCreate] at hl
          cases hl
          rw [hright, segments_nil]
          simp only [List.length_singleton, hcount]
          split <;> exact ⟨by omega, by omega⟩
        · simp only [hright, if_false] at hl
          obtain ⟨⟨r, m''⟩, hline, hq⟩ := Option.map_eq_some_iff.mp hl
          have hleaves := leaves_pipeCmdCreate l r m''
          rw [hq] at hleaves
          obtain ⟨hle, heq⟩ := ih (strip rest).2 (by omega) hright (strip rest).1 _ m' m'' r
            (by omega) hline
          simp only [hleaves, List.length_append, hcount]
          by_cases hl0 : left = []
          · rw [if_pos hl0]
            exact ⟨by omega, by omega⟩
          · rw [if_neg hl0]
            refine ⟨by omega, ?_⟩
            intro hall
            obtain ⟨hroom', hfit⟩ := heq (by omega)
            refine ⟨by omega, ?_⟩
            intro seg hmem
            rw [hseg] at hmem
            cases List.mem_cons.mp hmem with
            | inl hs =>
              subst hs
              exact ⟨hl0, (parseCmd_isSome_iff v hl0 (by omega) next).mp
                (Option.isSome_of_eq_some hcmd)⟩
            | inr hs => exact hfit seg hs
      · rw [parseLine_of_split_none (by rw [splitLine_append hno, if_neg hroom])] at hparse
        cases hparse

end SisOp.Shell
