/-
# `SisOp.Shell.Bounds` — which lines keep the shell inside its buffers

The functions of the parser once more, index by index: `none` stands for an index that is
negative, behind the terminator of its string or outside its array.  `split_line` steps
over the character it stops at, so that without a `'|'` it goes on behind the terminator.
-/
import SisOp.Shell.Tree
import Mathlib.Data.List.GetD
import Mathlib.Data.List.TakeWhile

namespace SisOp.Shell

def END_LINE : Char := '\n'

def ARGSIZE : Nat := 1024
def FNAMESIZE : Nat := 1024

namespace Checked

/-! ## Strings -/

/-- `while (p(s[i])) i++`. -/
def whileAt (p : Char → Bool) (s : Str) (i : Nat) : Option Nat :=
  if i ≤ s.length then
    if p (s.getD i END_STRING) then whileAt p s (i + 1) else some i
  else none
termination_by s.length + 1 - i

/-- `split_line`: the string left at `buf` and the one it returns. -/
def splitLine (buf : Str) (splitter : Char) : Option (Str × Str) := do
  let i ← whileAt (fun c => c != splitter && c != END_STRING) buf 0
  let j ← whileAt (· == SPACE) buf (i + 1)
  some (buf.take i, buf.drop j)

/-- `get_token`: `tok` keeps a zero at its end. -/
def getToken (buf : Str) (idx : Nat) : Option Str := do
  let j ← whileAt (fun c => c != SPACE && c != END_STRING) buf idx
  let tok := (buf.drop idx).take (j - idx)
  if tok.length < ARGSIZE then some tok else none

/-- `strcpy` of `arg + i` to one of the file names. -/
def fileName (arg : Str) (i : Nat) : Option Str :=
  if i ≤ arg.length ∧ (arg.drop i).length < FNAMESIZE then some (arg.drop i) else none

/-- `parse_redir_flow`; `some none` when the token is not a redirection. -/
def parseRedirFlow (c : Execcmd) (arg : Str) : Option (Option Execcmd) :=
  match blockContains arg '>' with
  | some outIdx =>
    if outIdx = 0 then
      (fileName arg 1).map fun f => some { c with outFile := f, type := .REDIR }
    else if outIdx = 1 then
      (fileName arg (outIdx + 1)).map fun f => some { c with errFile := f, type := .REDIR }
    else some (some { c with type := .REDIR })
  | none =>
    match blockContains arg '<' with
    | some _ => (fileName arg 1).map fun f => some { c with inFile := f, type := .REDIR }
    | none => some none

/-- The body of the loop of `parse_exec` for one token. -/
def parseToken (v : Vars) (c : Execcmd) (tok : Str) : Option Execcmd := do
  match ← parseRedirFlow c tok with
  | some c' => some c'
  | none =>
    if isEnvironVar tok then
      if c.eargv.length < MAXARGS then some { c with eargv := c.eargv ++ [tok] } else none
    else
      if c.argv.length < MAXARGS then some { c with argv := c.argv ++ [expandEnvironVar v tok] }
      else none

/-- `idx` behind a token and the separator that ends it. -/
def behindToken (buf : Str) (idx : Nat) (tok : Str) : Nat :=
  if buf.getD (idx + tok.length) END_STRING ≠ END_STRING then idx + tok.length + 1 else idx + tok.length

theorem lt_behindToken {buf : Str} {idx : Nat} (h : buf.getD idx END_STRING ≠ END_STRING) (tok : Str) :
    idx < behindToken buf idx tok := by
  unfold behindToken
  split
  · omega
  · rename_i hend
    cases tok with
    | nil => exact absurd h hend
    | cons a tok =>
      rw [List.length_cons]
      omega

/-- The loop of `parse_exec`. -/
def parseTokens (v : Vars) (c : Execcmd) (buf : Str) (idx : Nat) : Option Execcmd :=
  if idx ≤ buf.length then
    if h : buf.getD idx END_STRING = END_STRING then some c
    else
      match getToken buf idx with
      | none => none
      | some tok =>
        if idx + tok.length ≤ buf.length then
          have := lt_behindToken h tok
          match parseToken v c tok with
          | some c' => parseTokens v c' buf (behindToken buf idx tok)
          | none => none
        else none
  else none
termination_by buf.length + 1 - idx

/-- `parse_exec`. -/
def parseExec (v : Vars) (bufCmd : Str) : Option Execcmd := do
  let c ← execCmdCreate bufCmd
  let c' ← parseTokens v c bufCmd 0
  if c'.argv.length < MAXARGS then some c' else none

/-- `parse_back`. -/
def parseBack (v : Vars) (bufCmd : Str) (next : Nat) : Option (Cmd × Nat) := do
  let i ← whileAt (· != '&') bufCmd 0
  let e ← parseExec v (bufCmd.take i)
  some (backCmdCreate (next + 1) e.scmd (.exec next e), next + 2)

/-- `parse_cmd`: `buf_cmd[idx - 1]` is outside the string when `&` is its first character. -/
def parseCmd (v : Vars) (bufCmd : Str) (next : Nat) : Option (Cmd × Nat) :=
  if bufCmd = [] then some (.null, next)
  else
    match blockContains bufCmd '&' with
    | some 0 => none
    | some (idx + 1) =>
      if bufCmd.getD idx END_STRING != '>' then parseBack v bufCmd next
      else (parseExec v bufCmd).map fun e => (.exec next e, next + 1)
    | none => (parseExec v bufCmd).map fun e => (.exec next e, next + 1)

theorem whileAt_ge {p : Char → Bool} {s : Str} {i j : Nat} (h : whileAt p s i = some j) : i ≤ j := by
  induction i using whileAt.induct p s with
  | case1 i hi hp ih =>
    rw [whileAt, if_pos hi, if_pos hp] at h
    exact Nat.le_of_succ_le (ih h)
  | case2 i hi hp =>
    rw [whileAt, if_pos hi, if_neg hp] at h
    exact Nat.le_of_eq (Option.some.inj h)
  | case3 i hi =>
    rw [whileAt, if_neg hi] at h
    cases h

theorem splitLine_lt {buf left right : Str} {c : Char} (h : splitLine buf c = some (left, right))
    (hr : right ≠ []) : right.length < buf.length := by
  obtain ⟨i, -, h⟩ := Option.bind_eq_some_iff.mp h
  obtain ⟨j, hj, h⟩ := Option.bind_eq_some_iff.mp h
  cases h
  have hge := whileAt_ge hj
  have hpos := List.length_pos_of_ne_nil hr
  rw [List.length_drop] at hpos ⊢
  omega

/-- `parse_line`. -/
def parseLine (v : Vars) (buf : Str) (next : Nat) : Option (Cmd × Nat) :=
  match hs : splitLine buf '|' with
  | none => none
  | some (left, right) =>
    match parseCmd v left next with
    | none => none
    | some (l, next') =>
      if hr : right = [] then some (pipeCmdCreate l .null next')
      else
        have := splitLine_lt hs hr
        match parseLine v right next' with
        | none => none
        | some (r, next'') => some (pipeCmdCreate l r next'')
termination_by buf.length

/-! ## The shell -/

/-- The string in the buffer ends at its first zero. -/
def cString (buffer : Str) : Str := buffer.takeWhile (· != END_STRING)

/-- The loop of `read_line` with the bytes it has stored; `some none` at the end of the input. -/
def readLoop (buffer : Str) : Str → Option (Option Str)
  | [] => some none
  | c :: input =>
    if c = END_LINE then if buffer.length < BUFLEN then some (some (cString buffer)) else none
    else if buffer.length < BUFLEN then readLoop (buffer ++ [c]) input
    else none

/-- `read_line`. -/
def readLine (input : Str) : Option (Option Str) := readLoop [] input

/-- `remover_espacios`. -/
def removerEspacios (string : Str) : Option Str :=
  (whileAt (fun c => c == SPACE && c != END_STRING) string 0).map string.drop

/-- `cd`: the directory it changes to, if any. -/
def cd (v : Vars) (cmd : Str) : Option (Option Str) := do
  if cmd.length < 2 then some none
  else if cmd = ['c', 'd'] then some (v.getenv ['H', 'O', 'M', 'E'])
  else if ['c', 'd', ' '] <+: cmd then
    let dir ← splitLine cmd SPACE
    (removerEspacios dir.2).map some
  else some none

/-- `run_cmd`: the command that it parses, if any. -/
def runCmd (v : Vars) (cmd : Str) : Option (Option Cmd) := do
  if cmd = [] then some none
  else
    match ← cd v cmd with
    | some _ => some none
    | none =>
      if cmd = ['e', 'x', 'i', 't'] ∨ cmd = ['p', 'w', 'd'] then some none
      else (parseLine v cmd 0).map fun p => some p.1

/-- A round of `run_shell`. -/
def runShell (v : Vars) (input : Str) : Option (Option Cmd) := do
  match ← readLine input with
  | none => some none
  | some cmd => runCmd v cmd

/-! ## Strings, index by index -/

section

variable {p : Char → Bool} {s : Str} {i : Nat}

/-- The loop ends in front of the terminator, or at it. -/
theorem whileAt_eq (hi : i ≤ s.length) : whileAt p s i =
    if i + ((s.drop i).takeWhile p).length < s.length ∨ p END_STRING = false
    then some (i + ((s.drop i).takeWhile p).length) else none := by
  induction i using whileAt.induct p s with
  | case1 i hle hp ih =>
    rw [whileAt, if_pos hle, if_pos hp]
    rcases Nat.lt_or_eq_of_le hle with hlt | heq
    · rw [List.getD_eq_getElem _ _ hlt] at hp
      rw [List.drop_eq_getElem_cons hlt, List.takeWhile_cons_of_pos hp, List.length_cons, ih hlt,
        Nat.add_right_comm, Nat.add_assoc]
    · rw [List.getD_eq_default _ _ (Nat.le_of_eq heq.symm)] at hp
      rw [whileAt, if_neg (by omega), List.drop_eq_nil_of_le (Nat.le_of_eq heq.symm)]
      simp [hp, heq]
  | case2 i hle hp =>
    rw [whileAt, if_pos hle, if_neg hp]
    rcases Nat.lt_or_eq_of_le hle with hlt | heq
    · rw [List.getD_eq_getElem _ _ hlt] at hp
      rw [List.drop_eq_getElem_cons hlt, List.takeWhile_cons_of_neg hp]
      simp [hlt]
    · rw [List.getD_eq_default _ _ (Nat.le_of_eq heq.symm)] at hp
      rw [List.drop_eq_nil_of_le (Nat.le_of_eq heq.symm)]
      simp [hp]
  | case3 i hle => exact absurd hi hle

theorem whileAt_some (hi : i ≤ s.length) (hend : p END_STRING = false) :
    whileAt p s i = some (i + ((s.drop i).takeWhile p).length) := by
  rw [whileAt_eq hi, if_pos (.inr hend)]

/-- In a string without zeros, the test for the terminator is only made at the end. -/
theorem takeWhile_not_end (hs : END_STRING ∉ s) (c : Char) :
    s.takeWhile (fun x => x != c && x != END_STRING) = s.takeWhile (· != c) := by
  induction s with
  | nil => rfl
  | cons a s ih =>
    have ha : (a != END_STRING) = true := by simpa using ne_of_mem_of_not_mem List.mem_cons_self hs
    have hrest := ih fun h => hs (List.mem_cons_of_mem a h)
    rw [List.takeWhile_cons, List.takeWhile_cons, ha, Bool.and_true, hrest]

theorem scan_eq (hs : END_STRING ∉ s) (hi : i ≤ s.length) (c : Char) :
    whileAt (fun x => x != c && x != END_STRING) s i =
      some (i + ((s.drop i).takeWhile (· != c)).length) := by
  have hdrop : END_STRING ∉ s.drop i := fun h => hs (List.mem_of_mem_drop h)
  rw [whileAt_some hi (by simp), takeWhile_not_end hdrop]

end

/-! ## `parse_exec` -/

section

variable {s : Str} {idx : Nat}

theorem getToken_eq (hs : END_STRING ∉ s) (hlen : s.length < ARGSIZE) (hidx : idx ≤ s.length) :
    getToken s idx = some (Shell.getToken (s.drop idx)) := by
  have htake : (s.drop idx).take ((s.drop idx).takeWhile (· != SPACE)).length =
      (s.drop idx).takeWhile (· != SPACE) :=
    (List.prefix_iff_eq_take.mp (List.takeWhile_prefix _)).symm
  have hle := (List.takeWhile_prefix (l := s.drop idx) (· != SPACE)).length_le
  rw [List.length_drop] at hle
  unfold getToken
  rw [scan_eq hs hidx]
  simp only [Option.bind_eq_bind, Option.bind_some, Nat.add_sub_cancel_left, htake]
  exact if_pos (by omega)

theorem fileName_eq {arg : Str} {i : Nat} (hi : i ≤ arg.length) (hlen : arg.length < FNAMESIZE) :
    fileName arg i = some (arg.drop i) := by
  refine if_pos ⟨hi, ?_⟩
  rw [List.length_drop]
  omega

theorem lt_of_blockContains {arg : Str} {c : Char} {i : Nat} (h : blockContains arg c = some i) :
    i < arg.length :=
  (List.findIdx?_eq_some_iff_findIdx_eq.mp h).1

/-- The file names of a token fit. -/
theorem parseRedirFlow_eq (c : Execcmd) {arg : Str} (hlen : arg.length < FNAMESIZE) :
    parseRedirFlow c arg = some (Shell.parseRedirFlow c arg) := by
  unfold parseRedirFlow Shell.parseRedirFlow
  cases hout : blockContains arg '>' with
  | some outIdx =>
    have hlt := lt_of_blockContains hout
    by_cases h0 : outIdx = 0
    · simp [h0, fileName_eq (i := 1) (by omega) hlen]
    · by_cases h1 : outIdx = 1
      · simp [h1, fileName_eq (i := 2) (by omega) hlen]
      · simp [h0, h1]
  | none =>
    cases hin : blockContains arg '<' with
    | some i =>
      have hlt := lt_of_blockContains hin
      simp [fileName_eq (i := 1) (by omega) hlen]
    | none => rfl

theorem parseToken_eq (v : Vars) (c : Execcmd) {tok : Str} (hlen : tok.length < FNAMESIZE) :
    parseToken v c tok = Shell.parseToken v c tok := by
  unfold parseToken Shell.parseToken
  rw [parseRedirFlow_eq c hlen]
  rfl

theorem getD_ne_end (hs : END_STRING ∉ s) (hlt : idx < s.length) : s.getD idx END_STRING ≠ END_STRING := by
  rw [List.getD_eq_getElem _ _ hlt]
  exact ne_of_mem_of_not_mem (List.getElem_mem hlt) hs

theorem getD_end (hge : s.length ≤ idx) : s.getD idx END_STRING = END_STRING :=
  List.getD_eq_default _ _ hge

/-- What is left behind a token and its separator. -/
theorem drop_behindToken (hs : END_STRING ∉ s) (tok : Str) :
    s.drop (behindToken s idx tok) = ((s.drop idx).drop tok.length).drop 1 := by
  rw [List.drop_drop, List.drop_drop]
  unfold behindToken
  split
  · rfl
  · rename_i hend
    have hge : s.length ≤ idx + tok.length := Nat.not_lt.mp fun hlt => hend (getD_ne_end hs hlt)
    rw [List.drop_eq_nil_of_le hge, List.drop_eq_nil_of_le (by omega)]

theorem behindToken_le (tok : Str) (hle : idx + tok.length ≤ s.length) : behindToken s idx tok ≤ s.length := by
  unfold behindToken
  split
  · rename_i hne
    have hlt : idx + tok.length < s.length := Nat.not_le.mp fun hge => hne (getD_end hge)
    exact hlt
  · exact hle

/-- The loop of `parse_exec` stays inside its string. -/
theorem parseTokens_eq (v : Vars) (c : Execcmd) (hs : END_STRING ∉ s) (hlen : s.length < ARGSIZE)
    (hidx : idx ≤ s.length) : parseTokens v c s idx = Shell.parseTokens v c (s.drop idx) := by
  induction hn : s.length - idx using Nat.strongRecOn generalizing idx c with
  | _ n ih =>
    rw [parseTokens, if_pos hidx]
    rcases Nat.lt_or_eq_of_le hidx with hlt | heq
    · have hend := getD_ne_end hs hlt
      have hne : s.drop idx ≠ [] := by
        rw [ne_eq, List.drop_eq_nil_iff]
        omega
      have htok := (List.takeWhile_prefix (l := s.drop idx) (· != SPACE)).length_le
      rw [List.length_drop] at htok
      have hle : idx + (Shell.getToken (s.drop idx)).length ≤ s.length := by
        unfold Shell.getToken
        omega
      have hargs : (Shell.getToken (s.drop idx)).length < FNAMESIZE := by
        unfold ARGSIZE at hlen
        unfold FNAMESIZE
        omega
      rw [dif_neg hend, getToken_eq hs hlen hidx, parseTokens_of_ne v c hne, ← drop_behindToken hs]
      dsimp only
      rw [if_pos hle, parseToken_eq v c hargs]
      cases Shell.parseToken v c (Shell.getToken (s.drop idx)) with
      | none => rfl
      | some c' =>
        have hlater := lt_behindToken hend (Shell.getToken (s.drop idx))
        exact ih _ (by omega) c' (behindToken_le _ hle) rfl
    · rw [dif_pos (getD_end (Nat.le_of_eq heq.symm)), List.drop_eq_nil_of_le (Nat.le_of_eq heq.symm), parseTokens_nil]

theorem parseExec_eq (v : Vars) (hs : END_STRING ∉ s) : parseExec v s = Shell.parseExec v s := by
  unfold parseExec Shell.parseExec
  by_cases hlen : s.length < BUFLEN
  · have hargs : s.length < ARGSIZE := hlen
    simp only [execCmdCreate, hlen, if_true, Option.bind_eq_bind, Option.bind_some]
    rw [parseTokens_eq v _ hs hargs (Nat.zero_le _), List.drop_zero]
    cases Shell.parseTokens v _ s <;> rfl
  · simp [execCmdCreate, hlen]

theorem not_mem_take (hs : END_STRING ∉ s) (i : Nat) : END_STRING ∉ s.take i :=
  fun h => hs (List.mem_of_mem_take h)

/-- The loop of `parse_back` finds its `&`. -/
theorem whileAt_amp (h : '&' ∈ s) : whileAt (· != '&') s 0 = some (s.takeWhile (· != '&')).length := by
  obtain ⟨left, rest, rfl, hno⟩ := List.eq_append_cons_of_mem h
  rw [whileAt_eq (Nat.zero_le _), Nat.zero_add, List.drop_zero, takeWhile_ne_append hno, if_pos]
  simp

theorem parseBack_eq (v : Vars) (hs : END_STRING ∉ s) (hmem : '&' ∈ s) (next : Nat) :
    parseBack v s next = Shell.parseBack v s next := by
  have htake : s.take (s.takeWhile (· != '&')).length = s.takeWhile (· != '&') :=
    (List.prefix_iff_eq_take.mp (List.takeWhile_prefix _)).symm
  have hnot := not_mem_take hs (s.takeWhile (· != '&')).length
  rw [htake] at hnot
  unfold parseBack Shell.parseBack
  rw [whileAt_amp hmem]
  simp only [Option.bind_eq_bind, Option.bind_some, htake]
  rw [parseExec_eq v hnot]
  cases Shell.parseExec v (s.takeWhile (· != '&')) <;> rfl

theorem blockContains_zero {c : Char} : blockContains s c = some 0 ↔ s.head? = some c := by
  cases s with
  | nil => simp [blockContains]
  | cons a s => by_cases ha : a = c <;> simp [blockContains, List.findIdx?_cons, ha]

theorem mem_of_blockContains {c : Char} {i : Nat} (h : blockContains s c = some i) : c ∈ s := by
  have hsome : (blockContains s c).isSome = true := by rw [h]; rfl
  simpa [blockContains] using hsome

/-- `parse_cmd` stays inside its string unless `&` is the first character. -/
theorem parseCmd_eq (v : Vars) (before : Char) (hs : END_STRING ∉ s) (next : Nat) :
    parseCmd v s next = if s.head? = some '&' then none else Shell.parseCmd v before s next := by
  have hhead := blockContains_zero (s := s) (c := '&')
  unfold parseCmd Shell.parseCmd
  by_cases hnil : s = []
  · subst hnil
    rfl
  · rw [if_neg hnil, if_neg hnil, parseExec_eq v hs]
    cases hamp : blockContains s '&' with
    | none =>
      have hback : inBack before s = false := by rw [inBack, hamp]
      rw [hamp] at hhead
      rw [if_neg fun h => absurd (hhead.mpr h) nofun, hback, if_neg Bool.false_ne_true]
      cases Shell.parseExec v s <;> rfl
    | some idx =>
      rw [parseBack_eq v hs (mem_of_blockContains hamp)]
      have hback : inBack before s = (charBefore before s idx != '>') := by rw [inBack, hamp]
      rw [hback]
      rw [hamp] at hhead
      cases idx with
      | zero => rw [if_pos (hhead.mp rfl)]
      | succ idx =>
        rw [if_neg fun h => Nat.succ_ne_zero idx (Option.some.inj (hhead.mpr h))]
        change (if (s.getD idx END_STRING != '>') = true then _ else _) =
          if (s.getD idx END_STRING != '>') = true then _ else _
        refine if_congr Iff.rfl rfl ?_
        cases Shell.parseExec v s <;> rfl

end

/-! ## The line -/

theorem drop_length_takeWhile (p : Char → Bool) (s : Str) : s.drop (s.takeWhile p).length = s.dropWhile p := by
  have happ := List.takeWhile_append_dropWhile (p := p) (l := s)
  calc s.drop (s.takeWhile p).length
      = (s.takeWhile p ++ s.dropWhile p).drop (s.takeWhile p).length := by rw [happ]
    _ = s.dropWhile p := List.drop_left

/-- `split_line` stays inside its string when it finds the splitter. -/
theorem splitLine_eq {c : Char} {l rest : Str} (hs : END_STRING ∉ l ++ c :: rest) (hno : c ∉ l) :
    splitLine (l ++ c :: rest) c = some (l, rest.dropWhile (· == SPACE)) := by
  have hrest : (l ++ c :: rest).drop (l.length + 1) = rest := by simp
  unfold splitLine
  rw [scan_eq hs (Nat.zero_le _), List.drop_zero, takeWhile_ne_append hno rest]
  simp only [Option.bind_eq_bind, Option.bind_some, Nat.zero_add]
  rw [whileAt_some (by simp) (by decide), hrest]
  simp only [Option.bind_some, List.take_left]
  rw [← List.drop_drop, hrest, drop_length_takeWhile]

theorem splitLine_none {line : Str} (hs : END_STRING ∉ line) {c : Char} (hno : c ∉ line) :
    splitLine line c = none := by
  unfold splitLine
  rw [scan_eq hs (Nat.zero_le _), List.drop_zero, takeWhile_ne_of_not_mem hno]
  simp only [Option.bind_eq_bind, Option.bind_some, Nat.zero_add]
  rw [whileAt, if_neg (by omega)]
  rfl

theorem parseLine_of_split {v : Vars} {buf left right : Str} {next : Nat}
    (hs : splitLine buf '|' = some (left, right)) :
    parseLine v buf next = (parseCmd v left next).bind fun p =>
      if right = [] then some (pipeCmdCreate p.1 .null p.2)
      else (parseLine v right p.2).map fun q => pipeCmdCreate p.1 q.1 q.2 := by
  rw [parseLine]
  split
  · rename_i hn
    rw [hn] at hs
    cases hs
  · rename_i left' right' hsome
    rw [hsome] at hs
    cases hs
    cases parseCmd v left next with
    | none => rfl
    | some p =>
      by_cases hr : right = []
      · simp [hr]
      · simp only [hr, dite_false, if_false, Option.bind_some]
        cases parseLine v right p.2 <;> rfl

theorem parseLine_of_split_none {v : Vars} {buf : Str} {next : Nat} (hs : splitLine buf '|' = none) :
    parseLine v buf next = none := by
  rw [parseLine]
  split
  · rfl
  · rename_i hsome
    rw [hsome] at hs
    cases hs

end Checked

/-! ## The lines that stay inside the buffers -/

/-- A segment that is empty, or starts with another character than `&` and fits the arrays. -/
def SegmentInBounds (seg : Char × Str) : Prop :=
  seg.2 = [] ∨ seg.2.head? ≠ some '&' ∧ FitsArrays seg.1 seg.2

/-- There are only spaces behind the last `|`, and the segments in front of it are in bounds. -/
def EndsInPipe (before : Char) (line : Str) : Prop :=
  ∃ segs b, segs ≠ [] ∧ segments before line = segs ++ [(b, [])] ∧ ∀ seg ∈ segs, SegmentInBounds seg

def IsBuiltin (v : Vars) (line : Str) : Prop :=
  line = "exit".toList ∨ line = "pwd".toList ∨ "cd ".toList <+: line ∨
    line = "cd".toList ∧ (v.getenv "HOME".toList).isSome = true

namespace Checked

section

variable {v : Vars} {before : Char} {seg line : Str} {next : Nat}

theorem parseCmd_isSome_iff (v : Vars) (before : Char) (next : Nat) (hs : END_STRING ∉ seg)
    (hlen : seg.length < BUFLEN) :
    (parseCmd v seg next).isSome = true ↔ SegmentInBounds (before, seg) := by
  rw [parseCmd_eq v before hs]
  by_cases hnil : seg = []
  · subst hnil
    exact iff_of_true rfl (.inl rfl)
  · by_cases hamp : seg.head? = some '&'
    · rw [if_pos hamp]
      refine iff_of_false nofun fun h => h.elim hnil fun h => h.1 hamp
    · rw [if_neg hamp, Shell.parseCmd_isSome_iff v hnil hlen]
      exact ⟨fun h => .inr ⟨hamp, h⟩, fun h => (h.resolve_left hnil).2⟩

theorem mem_of_endsInPipe (h : EndsInPipe before line) : '|' ∈ line := by
  obtain ⟨segs, b, hne, hsegs, -⟩ := h
  by_contra hno
  rw [segments_of_not_mem before hno] at hsegs
  have hlen := congrArg List.length hsegs
  have hpos := List.length_pos_of_ne_nil hne
  simp only [List.length_append, List.length_singleton] at hlen
  omega

theorem endsInPipe_cons {left rest : Str} (hno : '|' ∉ left) :
    EndsInPipe before (left ++ '|' :: rest) ↔ SegmentInBounds (before, left) ∧
      ((strip rest).2 = [] ∨ EndsInPipe (strip rest).1 (strip rest).2) := by
  unfold EndsInPipe
  rw [segments_cons before hno]
  constructor
  · rintro ⟨segs, b, hne, hsegs, hin⟩
    obtain ⟨seg, segs, rfl⟩ := List.exists_cons_of_ne_nil hne
    obtain ⟨rfl, hrest⟩ := List.cons.inj hsegs
    refine ⟨hin _ List.mem_cons_self, ?_⟩
    cases segs with
    | nil =>
      left
      obtain hno' | ⟨left', rest', hsplit, hno'⟩ := eq_or_eq_append (strip rest).2
      · rw [segments_of_not_mem _ hno'] at hrest
        exact congrArg Prod.snd (List.cons.inj hrest).1
      · rw [hsplit, segments_cons _ hno'] at hrest
        exact absurd (List.cons.inj hrest).2 (segments_ne_nil _ _)
    | cons seg segs =>
      exact .inr ⟨seg :: segs, b, List.cons_ne_nil _ _, hrest, fun s hmem => hin s (List.mem_cons_of_mem _ hmem)⟩
  · rintro ⟨hseg, hnil | ⟨segs, b, hne, hsegs, hin⟩⟩
    · refine ⟨[(before, left)], (strip rest).1, List.cons_ne_nil _ _, ?_, ?_⟩
      · rw [hnil, segments_nil]
        rfl
      · intro s hmem
        cases List.mem_singleton.mp hmem
        exact hseg
    · refine ⟨(before, left) :: segs, b, List.cons_ne_nil _ _, congrArg _ hsegs, ?_⟩
      intro s hmem
      rcases List.mem_cons.mp hmem with rfl | hmem
      · exact hseg
      · exact hin s hmem

/-- By induction on the line. -/
theorem parseLine_isSome_iff (v : Vars) (before : Char) (next : Nat) (hs : END_STRING ∉ line)
    (hlen : line.length < BUFLEN) :
    (parseLine v line next).isSome = true ↔ EndsInPipe before line := by
  induction hn : line.length using Nat.strongRecOn generalizing line before next with
  | _ n ih =>
    obtain hno | ⟨left, rest, rfl, hno⟩ := eq_or_eq_append line
    · rw [parseLine_of_split_none (splitLine_none hs hno)]
      exact iff_of_false nofun fun h => hno (mem_of_endsInPipe h)
    · have hleft : END_STRING ∉ left := fun h => hs (List.mem_append_left _ h)
      have hright : END_STRING ∉ (strip rest).2 := fun h =>
        hs (List.mem_append_right _ (List.mem_cons_of_mem _ (List.dropWhile_subset _ h)))
      have hshort := length_strip_le rest
      simp only [List.length_append, List.length_cons] at hlen hn
      have hsplit : splitLine (left ++ '|' :: rest) '|' = some (left, (strip rest).2) := splitLine_eq hs hno
      rw [parseLine_of_split hsplit, endsInPipe_cons hno,
        ← parseCmd_isSome_iff v before next hleft (by omega)]
      cases parseCmd v left next with
      | none => exact iff_of_false nofun fun h => Bool.false_ne_true h.1
      | some p =>
        have hrec : (parseLine v (strip rest).2 p.2).isSome = true ↔ EndsInPipe (strip rest).1 (strip rest).2 :=
          ih _ (by omega) _ _ hright (by omega) rfl
        rw [Option.bind_some, Option.isSome_some, ← hrec, eq_self, true_and]
        by_cases hnil : (strip rest).2 = []
        · rw [if_pos hnil]
          exact iff_of_true rfl (.inl hnil)
        · rw [if_neg hnil, Option.isSome_map, or_iff_right hnil]

/-- `cd` stays inside the line. -/
theorem cd_eq (v : Vars) {cmd : Str} (hs : END_STRING ∉ cmd) : ∃ dir, cd v cmd = some dir ∧
    (dir.isSome = true ↔ "cd ".toList <+: cmd ∨ cmd = "cd".toList ∧ (v.getenv "HOME".toList).isSome = true) := by
  unfold cd
  by_cases hlen : cmd.length < 2
  · refine ⟨none, if_pos hlen, iff_of_false nofun ?_⟩
    rintro (hpre | ⟨rfl, -⟩)
    · exact absurd (Nat.lt_of_le_of_lt hpre.length_le hlen) (by decide)
    · exact absurd hlen (by decide)
  · by_cases hcd : cmd = ['c', 'd']
    · refine ⟨v.getenv ['H', 'O', 'M', 'E'], by rw [if_neg hlen, if_pos hcd], ?_⟩
      subst hcd
      simp
    · by_cases hpre : ['c', 'd', ' '] <+: cmd
      · obtain ⟨rest, rfl⟩ := hpre
        have hsplit : splitLine (['c', 'd', ' '] ++ rest) SPACE = some (['c', 'd'], rest.dropWhile (· == SPACE)) :=
          splitLine_eq (c := SPACE) (l := ['c', 'd']) hs (by decide)
        obtain ⟨dir, hdir⟩ : ∃ dir, removerEspacios (rest.dropWhile (· == SPACE)) = some dir :=
          ⟨_, congrArg (Option.map _) (whileAt_some (Nat.zero_le _) (by decide))⟩
        refine ⟨some dir, ?_, iff_of_true rfl (.inl ⟨rest, rfl⟩)⟩
        rw [if_neg hlen, if_neg hcd, if_pos ⟨rest, rfl⟩, hsplit]
        exact congrArg (Option.map some) hdir
      · refine ⟨none, by rw [if_neg hlen, if_neg hcd, if_neg hpre], iff_of_false nofun ?_⟩
        rintro (h | ⟨h, -⟩)
        · exact hpre h
        · exact hcd h

/-- What `run_cmd` does to a line that fits. -/
theorem runCmd_isSome_iff (hs : END_STRING ∉ line) (hlen : line.length < BUFLEN) :
    (runCmd v line).isSome = true ↔
      line = [] ∨ IsBuiltin v line ∨ EndsInPipe END_STRING line := by
  obtain ⟨dir, hdir, hiff⟩ := cd_eq v hs
  unfold runCmd IsBuiltin
  by_cases hnil : line = []
  · exact iff_of_true (by rw [if_pos hnil]; rfl) (.inl hnil)
  · rw [if_neg hnil, or_iff_right hnil, hdir, ← hiff]
    cases dir with
    | some d => exact iff_of_true rfl (.inl (.inr (.inr rfl)))
    | none =>
      by_cases hexit : line = ['e', 'x', 'i', 't'] ∨ line = ['p', 'w', 'd']
      · refine iff_of_true ?_ (.inl (hexit.elim .inl fun h => .inr (.inl h)))
        change (if _ then _ else _ : Option (Option Cmd)).isSome = true
        rw [if_pos hexit]
        rfl
      · have hparse := parseLine_isSome_iff v END_STRING 0 hs hlen
        change (if _ then _ else _ : Option (Option Cmd)).isSome = true ↔ _
        rw [if_neg hexit, Option.isSome_map, hparse]
        refine (or_iff_right ?_).symm
        rintro (h | h | h)
        · exact hexit (.inl h)
        · exact hexit (.inr h)
        · cases h

theorem readLoop_eq (h : END_LINE ∉ line) (buffer rest : Str) :
    readLoop buffer (line ++ END_LINE :: rest) =
      if buffer.length + line.length < BUFLEN then some (some (cString (buffer ++ line))) else none := by
  induction line generalizing buffer with
  | nil => simp [readLoop]
  | cons c line ih =>
    have hc : c ≠ END_LINE := ne_of_mem_of_not_mem List.mem_cons_self h
    rw [List.cons_append, readLoop, if_neg hc, ih fun hmem => h (List.mem_cons_of_mem _ hmem),
      List.append_assoc, List.singleton_append]
    simp only [List.length_append, List.length_cons, List.length_nil]
    by_cases hroom : buffer.length < BUFLEN
    · rw [if_pos hroom]
      exact if_congr (by omega) rfl rfl
    · rw [if_neg hroom, if_neg (by omega)]

theorem end_not_mem_cString (line : Str) : END_STRING ∉ cString line := fun h => by
  simpa using List.mem_takeWhile_imp h

theorem runShell_eq (h : END_LINE ∉ line) (v : Vars) (rest : Str) :
    runShell v (line ++ END_LINE :: rest) =
      if line.length < BUFLEN then runCmd v (cString line) else none := by
  unfold runShell readLine
  rw [readLoop_eq h, List.length_nil, Nat.zero_add, List.nil_append]
  by_cases hlen : line.length < BUFLEN
  · rw [if_pos hlen, if_pos hlen]
    rfl
  · rw [if_neg hlen, if_neg hlen]
    rfl

end

end Checked

open Checked in
/-- The shell stays inside its buffers exactly on the lines that fit and that are empty, a built-in, or a
pipe with nothing behind its last `|`. -/
theorem runShell_in_bounds {v : Vars} {line rest : Str} (h : END_LINE ∉ line) :
    (runShell v (line ++ END_LINE :: rest)).isSome = true ↔ line.length < BUFLEN ∧
      (cString line = [] ∨ IsBuiltin v (cString line) ∨ EndsInPipe END_STRING (cString line)) := by
  rw [runShell_eq h]
  by_cases hlen : line.length < BUFLEN
  · have hshort : (cString line).length ≤ line.length := (List.takeWhile_prefix _).length_le
    rw [if_pos hlen, runCmd_isSome_iff (end_not_mem_cString line) (Nat.lt_of_le_of_lt hshort hlen)]
    exact (and_iff_right hlen).symm
  · rw [if_neg hlen]
    exact iff_of_false nofun fun h => hlen h.1

/-- `ls |`. -/
theorem runShell_in_bounds_ls : (Checked.runShell ⟨fun _ => none, 0⟩ ("ls |".toList ++ [END_LINE])).isSome = true := by
  refine (runShell_in_bounds (by decide)).mpr ⟨by decide, .inr (.inr ?_)⟩
  refine ⟨[(END_STRING, "ls ".toList)], END_STRING, List.cons_ne_nil _ _, by decide, fun seg hseg => ?_⟩
  cases List.mem_singleton.mp hseg
  exact .inr ⟨by decide, fitsArrays_of_length (by decide)⟩

/-- `ls`: `split_line` goes on behind the terminator. -/
theorem not_in_bounds_ls : ¬ ∀ (v : Vars) (line rest : Str), END_LINE ∉ line →
    (Checked.runShell v (line ++ END_LINE :: rest)).isSome = true := by
  intro h
  have hls := h ⟨fun _ => none, 0⟩ "ls".toList [] (by decide)
  rw [Checked.runShell_eq (by decide), if_pos (by decide),
    Checked.runCmd_isSome_iff (by decide) (by decide)] at hls
  rcases hls with hnil | hbuiltin | hpipe
  · exact absurd hnil (by decide)
  · exact absurd hbuiltin (by unfold IsBuiltin; decide)
  · exact absurd (Checked.mem_of_endsInPipe hpipe) (by decide)

end SisOp.Shell
