/-
# `SisOp.Shell.Parsing` — the parser of the shell

`types.h`, `utils.c`, `createcmd.c`, `parsing.c` and `freecmd.c`.  A string is the list
of its characters without the `'\0'`.  `read_line` leaves zeros after the line, so the
buffer from a pointer on is the rest of the line and the number of bytes up to its end.
The structures of a command carry the number of their `calloc`; `none` stands for an
access outside the array it names.
-/
import Mathlib.Data.List.Basic

namespace SisOp.Shell

/-! ## `types.h` -/

abbrev Str := List Char

def SPACE : Char := ' '
def ENVIRON_VAR : Char := '$'
def END_STRING : Char := Char.ofNat 0

def BUFLEN : Nat := 1024
def MAXARGS : Nat := 20

/-- The `type` of a command. -/
inductive Kind
  | EXEC
  | BACK
  | REDIR
  | PIPE
  deriving DecidableEq

/-- `struct execcmd`, without its `pid`. -/
structure Execcmd where
  type : Kind
  scmd : Str
  argv : List Str
  eargv : List Str
  outFile : Str
  inFile : Str
  errFile : Str
  deriving DecidableEq

/-- A `struct cmd *`. -/
inductive Cmd
  | null
  | exec (addr : Nat) (e : Execcmd)
  | back (addr : Nat) (scmd : Str) (c : Cmd)
  | pipe (addr : Nat) (leftcmd rightcmd : Cmd)
  deriving DecidableEq

/-- What the parser reads of the process: `getenv` and the `status` of the last command. -/
structure Vars where
  getenv : Str → Option Str
  status : Int

/-! ## `utils.c` -/

/-- The buffer from a pointer on: the character before it, the rest of the line and the size. -/
structure Buf where
  before : Char
  text : Str
  room : Nat
  deriving DecidableEq

/-- `split_line`: what is left at `buf`, and the pointer it returns. -/
def splitLine (buf : Buf) (splitter : Char) : Option (Str × Buf) :=
  let left := buf.text.takeWhile (· != splitter)
  let rest := buf.text.drop (left.length + 1)
  let right := rest.dropWhile (· == SPACE)
  let i := left.length + 1 + (rest.length - right.length)
  if i < buf.room then
    some (left,
      { before := if rest.head? = some SPACE then SPACE else END_STRING
        text := right
        room := buf.room - i })
  else none

/-- `block_contains`; `none` is `-1`. -/
def blockContains (buf : Str) (c : Char) : Option Nat :=
  buf.findIdx? (· == c)

/-! ## `createcmd.c` -/

/-- `exec_cmd_create`: `scmd` has `BUFLEN` bytes. -/
def execCmdCreate (bufCmd : Str) : Option Execcmd :=
  if bufCmd.length < BUFLEN then
    some { type := .EXEC, scmd := bufCmd, argv := [], eargv := [], outFile := [], inFile := [],
           errFile := [] }
  else none

def backCmdCreate (addr : Nat) (scmd : Str) (c : Cmd) : Cmd := .back addr scmd c

/-- `pipe_cmd_create`, with the number of the next `calloc`. -/
def pipeCmdCreate (left right : Cmd) (next : Nat) : Cmd × Nat :=
  if right = .null then (left, next) else (.pipe next left right, next + 1)

/-! ## `parsing.c` -/

/-- `get_token` at the start of the string. -/
def getToken (buf : Str) : Str := buf.takeWhile (· != SPACE)

/-- `parse_redir_flow`; `none` when the token is not a redirection. -/
def parseRedirFlow (c : Execcmd) (arg : Str) : Option Execcmd :=
  match blockContains arg '>' with
  | some outIdx =>
    let c' :=
      if outIdx = 0 then { c with outFile := arg.drop 1 }
      else if outIdx = 1 then { c with errFile := arg.drop (outIdx + 1) }
      else c
    some { c' with type := .REDIR }
  | none =>
    match blockContains arg '<' with
    | some _ => some { c with inFile := arg.drop 1, type := .REDIR }
    | none => none

/-- The test of `parse_environ_var`. -/
def isEnvironVar (arg : Str) : Bool :=
  match blockContains arg '=' with
  | some (_ + 1) => (blockContains arg '-').isNone
  | _ => false

/-- `expand_environ_var`. -/
def expandEnvironVar (v : Vars) (arg : Str) : Str :=
  if arg.head? ≠ some ENVIRON_VAR then arg
  else if arg ≠ ['$', '?'] then (v.getenv (arg.drop 1)).getD []
  else (toString v.status).toList

/-- The body of the loop of `parse_exec` for one token: `argv` and `eargv` have `MAXARGS` slots. -/
def parseToken (v : Vars) (c : Execcmd) (tok : Str) : Option Execcmd :=
  match parseRedirFlow c tok with
  | some c' => some c'
  | none =>
    if isEnvironVar tok then
      if c.eargv.length < MAXARGS then some { c with eargv := c.eargv ++ [tok] } else none
    else
      if c.argv.length < MAXARGS then some { c with argv := c.argv ++ [expandEnvironVar v tok] }
      else none

theorem drop_token_lt {buf : Str} (h : buf ≠ []) :
    ((buf.drop (getToken buf).length).drop 1).length < buf.length := by
  have hpos : 0 < buf.length := List.length_pos_of_ne_nil h
  simp only [List.length_drop]
  omega

/-- The loop of `parse_exec`. -/
def parseTokens (v : Vars) (c : Execcmd) (buf : Str) : Option Execcmd :=
  if h : buf = [] then some c
  else
    have := drop_token_lt h
    match parseToken v c (getToken buf) with
    | some c' => parseTokens v c' ((buf.drop (getToken buf).length).drop 1)
    | none => none
termination_by buf.length

theorem parseTokens_of_ne (v : Vars) (c : Execcmd) {buf : Str} (h : buf ≠ []) :
    parseTokens v c buf = match parseToken v c (getToken buf) with
      | some c' => parseTokens v c' ((buf.drop (getToken buf).length).drop 1)
      | none => none := by
  rw [parseTokens]
  simp only [h, dite_false]

theorem parseTokens_nil (v : Vars) (c : Execcmd) : parseTokens v c [] = some c := by
  rw [parseTokens]
  rfl

/-- `parse_exec`: `argv` needs one more slot for its `NULL`. -/
def parseExec (v : Vars) (bufCmd : Str) : Option Execcmd :=
  match execCmdCreate bufCmd with
  | none => none
  | some c =>
    match parseTokens v c bufCmd with
    | some c' => if c'.argv.length < MAXARGS then some c' else none
    | none => none

/-- `parse_back`. -/
def parseBack (v : Vars) (bufCmd : Str) (next : Nat) : Option (Cmd × Nat) :=
  match parseExec v (bufCmd.takeWhile (· != '&')) with
  | some e => some (backCmdCreate (next + 1) e.scmd (.exec next e), next + 2)
  | none => none

/-- `buf_cmd[idx - 1]`, with the character before the string. -/
def charBefore (before : Char) (bufCmd : Str) : Nat → Char
  | 0 => before
  | idx + 1 => bufCmd.getD idx END_STRING

/-- The test of `parse_cmd`. -/
def inBack (before : Char) (bufCmd : Str) : Bool :=
  match blockContains bufCmd '&' with
  | some idx => charBefore before bufCmd idx != '>'
  | none => false

/-- `parse_cmd`. -/
def parseCmd (v : Vars) (before : Char) (bufCmd : Str) (next : Nat) : Option (Cmd × Nat) :=
  if bufCmd = [] then some (.null, next)
  else if inBack before bufCmd then parseBack v bufCmd next
  else
    match parseExec v bufCmd with
    | some e => some (.exec next e, next + 1)
    | none => none

theorem splitLine_lt {buf right : Buf} {left : Str} {c : Char}
    (h : splitLine buf c = some (left, right))
    (hr : right.text ≠ []) : right.text.length < buf.text.length := by
  simp only [splitLine] at h
  split at h
  · cases h
    have hpos := List.length_pos_of_ne_nil hr
    have hle := List.IsSuffix.length_le (List.dropWhile_suffix (· == SPACE)
      (l := buf.text.drop ((buf.text.takeWhile (· != c)).length + 1)))
    simp only [List.length_drop] at hle hpos ⊢
    omega
  · cases h

/-- `parse_line`. -/
def parseLine (v : Vars) (buf : Buf) (next : Nat) : Option (Cmd × Nat) :=
  match hs : splitLine buf '|' with
  | none => none
  | some (left, right) =>
    match parseCmd v buf.before left next with
    | none => none
    | some (l, next') =>
      if hr : right.text = [] then some (pipeCmdCreate l .null next')
      else
        have := splitLine_lt hs hr
        match parseLine v right next' with
        | none => none
        | some (r, next'') => some (pipeCmdCreate l r next'')
termination_by buf.text.length

/-! ## `freecmd.c` -/

/-- `free_command`: the structures it frees, in order; `none` when it dereferences `NULL`. -/
def freeCommand : Cmd → Option (List Nat)
  | .null => none
  | .exec addr _ => some [addr]
  | .back addr _ c =>
    match freeCommand c with
    | some fs => some (fs ++ [addr])
    | none => none
  | .pipe addr l r =>
    match freeCommand l, freeCommand r with
    | some fs, some gs => some (fs ++ gs ++ [addr])
    | _, _ => none

end SisOp.Shell
