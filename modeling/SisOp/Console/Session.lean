/-
# `SisOp.Console.Session` — the monitor's loop, a whole session long

`monitor` (`kern/monitor.c`) reads a line, runs it and prompts again.  `Session` is what a
session prints and calls, and where it waits for more input.  The screen after a session is
the page that `transcript` describes: each prompt, the line as it was when it was ended, and
the answer to it (`monitor_session`).
-/
import SisOp.Console.Monitor

namespace SisOp.Console

open SisOp.Jos (Word Byte)
open SisOp.Lib (fields fields_eq_pieces firstPiece afterPiece mem_pieces piece_cases not_sep_of_mem_firstPiece)
open SisOp.Printf (Text Piece printPieces ch int bytes)

/-! ## The loop -/

/-- The string in `buf`. -/
def lineOf (buf : Nat → Byte) : Text := ((List.range BUFLEN).map buf).takeWhile (· ≠ 0)

/-- `buf` with the bytes of `t` at its start. -/
def store (buf : Nat → Byte) (t : Text) : Nat → Byte := fun j => t.getD j (buf j)

/-- What is given to `cputchar`, the functions called, and the line that is being typed; none if
`monitor` has returned. -/
@[ext] structure Session where
  out : List Word
  calls : List (Func × List Text)
  waits : Option Line

/-- A session with what was before it. -/
def Session.after (out : List Word) (calls : List (Func × List Text)) (s : Session) : Session :=
  { s with out := out ++ s.out, calls := calls ++ s.calls }

/-- A call of `readline` that does not wait has read something. -/
theorem readlineFrom_rest (echoing : Bool) (l : Line) {keys : List (Except Int Byte)}
    (h : ∀ l', (readlineFrom echoing l keys).turn ≠ .next l') :
    (readlineFrom echoing l keys).rest.length < keys.length := by
  induction keys generalizing l with
  | nil => exact absurd rfl (h l)
  | cons c keys ih =>
    rw [readlineFrom] at h ⊢
    split at h
    case h_1 l' out hturn => exact (ih l' h).trans (Nat.lt_succ_self _)
    case h_2 => exact Nat.lt_succ_self _

/-- `cprintf("%s", prompt)` for `"K> "`. -/
def prompt : List Word := cprintfStr (bytes "%s") [bytes "K> "]

/-- The `while (1)` of `monitor`. -/
def monitorLoop (k : Symbols) (buf : Nat → Byte) (keys : List (Except Int Byte)) : Session :=
  let r := readline true buf keys
  match hturn : r.turn with
  | .next l => ⟨prompt ++ r.out, [], some l⟩
  | .null l =>
    have := readlineFrom_rest true ⟨buf, 0⟩ fun l' h => Turn.noConfusion (hturn.symm.trans h)
    (monitorLoop k l.buf r.rest).after (prompt ++ r.out) []
  | .ret buf' =>
    have := readlineFrom_rest true ⟨buf, 0⟩ fun l' h => Turn.noConfusion (hturn.symm.trans h)
    let ran := runcmd k (lineOf buf')
    if ran.ret < 0 then ⟨prompt ++ r.out ++ ran.out, ran.called.toList, none⟩
    else (monitorLoop k (store buf' ran.text) r.rest).after (prompt ++ r.out ++ ran.out) ran.called.toList
termination_by keys.length

/-- `monitor(NULL)`. -/
def monitor (k : Symbols) (buf : Nat → Byte) (keys : List (Except Int Byte)) : Session :=
  (monitorLoop k buf keys).after
    (cprintfStr (bytes "Welcome to the JOS kernel monitor!\n") [] ++
      cprintfStr (bytes "Type 'help' for a list of commands.\n") []) []

/-! ## What is printed -/

/-- The fields of the line that the keys type. -/
def args (keys : Text) : List Text := fields isBlank (edited keys)

/-- What is printed for one line that is ended. -/
def printed (k : Symbols) (keys : Text) : List Word :=
  prompt ++ echoes [] keys ++ [int (ch '\n')] ++ answer k (args keys)

/-- What is on the screen for it. -/
def shown (k : Symbols) (keys : Text) : List Word :=
  prompt ++ (edited keys).map int ++ [int (ch '\n')] ++ answer k (args keys)

/-- The welcome. -/
def welcome : List Word :=
  (bytes "Welcome to the JOS kernel monitor!\n" ++ bytes "Type 'help' for a list of commands.\n").map int

/-- What is on the screen after the lines of `lines`, while that of `last` is typed. -/
def transcript (k : Symbols) (lines : List Text) (last : Text) : List Word :=
  welcome ++ lines.flatMap (shown k) ++ prompt ++ (edited last).map int

/-- The function called for a line. -/
def call (keys : Text) : Option (Func × List Text) := (command (args keys)).map (·, args keys)

theorem lineOf_returned {buf buf' : Nat → Byte} {line : Text} (h : Returned buf buf' line) : lineOf buf' = line := by
  obtain ⟨n, hn⟩ := Nat.exists_eq_add_of_lt h.room
  have hnonzero : ∀ c ∈ line, decide (c ≠ 0) = true := fun c hc => decide_eq_true fun h0 => h.no_nul (h0 ▸ hc)
  have hnul : (List.range (n + 1)).map (fun j => buf' (line.length + j)) =
      0 :: (List.range n).map fun j => buf' (line.length + (j + 1)) := by
    rw [List.range_succ_eq_map, List.map_cons, List.map_map, Nat.add_zero, h.nul]
    rfl
  have hsplit : (List.range BUFLEN).map buf' =
      line ++ 0 :: (List.range n).map fun j => buf' (line.length + (j + 1)) := by
    rw [hn, Nat.add_assoc, List.range_add, List.map_append, h.text, List.map_map, ← hnul]
    rfl
  rw [lineOf, hsplit, List.takeWhile_append_of_pos hnonzero, List.takeWhile_cons_of_neg (by decide), List.append_nil]

theorem prompt_eq : prompt = (bytes "K> ").map int := by
  rw [prompt, cprintfStr_pieces [.str] (by decide +kernel) (by decide +kernel)]
  decide

/-- `readline` waits. -/
theorem monitorLoop_next {k : Symbols} {buf : Nat → Byte} {keys rest : List (Except Int Byte)} {l : Line}
    {out : List Word} (h : readline true buf keys = ⟨.next l, out, rest⟩) :
    monitorLoop k buf keys = ⟨prompt ++ out, [], some l⟩ := by
  rw [monitorLoop]
  split
  case h_1 l' hturn =>
    rw [h] at hturn ⊢
    rw [Turn.next.inj hturn]
  case h_2 hturn => exact absurd (hturn.symm.trans (congrArg Read.turn h)) (by simp)
  case h_3 hturn => exact absurd (hturn.symm.trans (congrArg Read.turn h)) (by simp)

/-- `readline` returns a line, and its command returns too. -/
theorem monitorLoop_ret {k : Symbols} {buf buf' : Nat → Byte} {keys rest : List (Except Int Byte)} {out : List Word}
    (h : readline true buf keys = ⟨.ret buf', out, rest⟩) (hret : (runcmd k (lineOf buf')).ret = 0) :
    monitorLoop k buf keys = (monitorLoop k (store buf' (runcmd k (lineOf buf')).text) rest).after
      (prompt ++ out ++ (runcmd k (lineOf buf')).out) (runcmd k (lineOf buf')).called.toList := by
  conv => lhs; rw [monitorLoop]
  split
  case h_1 hturn => exact absurd (hturn.symm.trans (congrArg Read.turn h)) (by simp)
  case h_2 hturn => exact absurd (hturn.symm.trans (congrArg Read.turn h)) (by simp)
  case h_3 buf'' hturn =>
    obtain rfl : buf' = buf'' := Turn.ret.inj ((congrArg Read.turn h).symm.trans hturn)
    dsimp only
    rw [h, if_neg (by rw [hret]; decide)]

/-- The loop, over all that is typed. -/
theorem monitorLoop_keys (k : Symbols) (buf : Nat → Byte) (keys : Text) :
    ∃ l : Line, l.Holds (edited ((keys.splitOnP ends).getLastD [])) ∧
      monitorLoop k buf (keys.map .ok) =
        ⟨(keys.splitOnP ends).dropLast.flatMap (printed k) ++
            (prompt ++ echoes [] ((keys.splitOnP ends).getLastD [])),
          (keys.splitOnP ends).dropLast.filterMap call, some l⟩ := by
  induction hn : keys.length using Nat.strong_induction_on generalizing buf keys with
  | _ n ih =>
    rcases piece_cases ends keys with ⟨hkeys, -⟩ | ⟨c, hc, hkeys⟩
    · have hends : ∀ c ∈ keys, ends c = false := fun c hc => not_sep_of_mem_firstPiece (hkeys ▸ hc)
      obtain ⟨l, hholds, -, hread⟩ := readline_edits buf hends
      rw [List.splitOnP_eq_singleton hends]
      exact ⟨l, hholds, monitorLoop_next hread⟩
    · have htyped : ∀ c ∈ firstPiece ends keys, ends c = false := fun c hc => not_sep_of_mem_firstPiece hc
      have hlen := congrArg List.length hkeys
      rw [hn] at hlen
      generalize firstPiece ends keys = typed at *
      generalize afterPiece ends keys = more at *
      subst hkeys
      obtain ⟨buf', hret, hread⟩ := readline_returns buf htyped hc (more.map .ok)
      have hline := lineOf_returned hret
      obtain ⟨hzero, hout, hcalled⟩ := @runcmd_fields k (lineOf buf') (hline.symm ▸ hret.no_nul)
      obtain ⟨l, hholds, hloop⟩ := ih more.length (by rw [List.length_append, List.length_cons] at hlen; omega)
        (store buf' (runcmd k (lineOf buf')).text) more rfl
      obtain ⟨line, rest, hrest⟩ := List.exists_cons_of_ne_nil (List.splitOnP_ne_nil ends more)
      rw [List.splitOnP_append_cons_of_forall_mem htyped c hc, hrest]
      rw [hrest] at hholds hloop
      refine ⟨l, hholds, ?_⟩
      rw [List.map_append, List.map_cons, monitorLoop_ret hread hzero, hloop, hout, hcalled, hline,
        List.dropLast_cons_of_ne_nil (List.cons_ne_nil line rest), List.flatMap_cons, List.filterMap_cons]
      refine Session.ext ?_ ?_ rfl
      · show prompt ++ _ ++ _ ++ _ = _
        rw [printed, args, List.append_assoc, List.append_assoc]
        simp only [List.append_assoc]
        rfl
      · show ((command _).map _).toList ++ _ = _
        rw [call, args]
        cases command (fields isBlank (edited typed)) <;> rfl

/-! ## The screen -/

theorem Page.Like.typeAll {q p : Page} (h : q.Like p) (text : List Word) :
    (text.foldl Page.type q).Like (text.foldl Page.type p) := by
  induction text generalizing q p with
  | nil => exact h
  | cons c text ih => exact ih (h.type c)

theorem Page.Like.trans {r q p : Page} (h : r.Like q) (h' : q.Like p) : r.Like p :=
  ⟨h.cells.trans h'.cells, h.pos.trans h'.pos⟩

/-- The characters of a line can be shown. -/
theorem shown_edited (keys : Text) : ∀ a ∈ args keys, ∀ c ∈ a, Shown c := by
  intro a ha c hc
  have hline : c ∈ edited keys := by
    rw [args, fields_eq_pieces, List.mem_filter] at ha
    obtain ⟨before, behind, hsplit, -⟩ := mem_pieces ha.1
    rw [hsplit]
    exact List.mem_append_left _ (List.mem_append_right _ hc)
  obtain ⟨hb, hr, ht, -⟩ := printable_writes c ((fits_edited keys).printable c hline)
  exact ⟨hb, hr, ht⟩

section

variable {s : Screen} {q p : Page}

/-- The keys of a line, from anywhere on a page. -/
theorem like_keys (hs : Shows s q) (h : q.Like p) (hfresh : p.Fresh) (keys : Text) :
    ((echoes [] keys).foldl Page.putc q).Like (((edited keys).map int).foldl Page.type p) :=
  ((Typed.nil hs).echoes Fits.nil (hfresh.like h) keys).like.trans (h.typeAll _)

theorem like_prompt (h : q.Like p) : (prompt.foldl Page.putc q).Like (prompt.foldl Page.type p) := by
  refine h.print ?_
  rw [prompt_eq]
  exact writes_map_int (by decide +kernel)

/-- One line that is ended, with its prompt and its answer. -/
theorem like_printed (k : Symbols) (hs : Shows s q) (h : q.Like p) (hfresh : p.Fresh) (keys : Text) :
    ((printed k keys).foldl Page.putc q).Like ((shown k keys).foldl Page.type p) := by
  have hkeys := like_keys (shows_print hs prompt) (like_prompt h) (hfresh.print prompt) keys
  rw [printed, shown]
  simp only [List.foldl_append]
  refine (hkeys.print fun c hc => ?_).print (writes_answer k (shown_edited keys))
  rw [List.mem_singleton.mp hc]
  exact Shown.int (by decide)

theorem like_lines (k : Symbols) (hs : Shows s q) (h : q.Like p) (hfresh : p.Fresh) (lines : List Text) :
    ((lines.flatMap (printed k)).foldl Page.putc q).Like ((lines.flatMap (shown k)).foldl Page.type p) := by
  induction lines generalizing s q p with
  | nil => exact h
  | cons keys lines ih =>
    rw [List.flatMap_cons, List.flatMap_cons, List.foldl_append, List.foldl_append]
    exact ih (shows_print hs _) (like_printed k hs h hfresh keys) (hfresh.print _)

end

theorem welcome_eq : cprintfStr (bytes "Welcome to the JOS kernel monitor!\n") [] ++
    cprintfStr (bytes "Type 'help' for a list of commands.\n") [] = welcome := by
  rw [cprintfStr_pieces [.lit (bytes "Welcome to the JOS kernel monitor!\n")] (by decide +kernel)
      (by decide +kernel),
    cprintfStr_pieces [.lit (bytes "Type 'help' for a list of commands.\n")] (by decide +kernel)
      (by decide +kernel)]
  simp only [printPieces, Piece.print, List.append_nil, welcome, List.map_append]

end SisOp.Console
