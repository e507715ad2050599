/-
# `SisOp.User.Runcmd` — the buffers of the JOS shell

`runcmd` (`user/sh.c`) collects the words of a command into `argv[MAXARGS]` and
copies a name that does not start with `/` behind a `/` into `argv0buf[BUFSIZ]`.
The model keeps the log of its stores into the two arrays; what the calls to the
system answer (`open`, `pipe`, `fork`, in the order they are made) is an input.

`commands` are the commands a line asks for.  The count is tested before a word
is stored, not before the closing `argv[argc] = 0`, and the length of the name is
not tested: `runcmd_inBounds_iff` says which lines are safe.
-/
import SisOp.User.Gettoken

namespace SisOp.User

open SisOp.Jos (Byte)

/-! ## The code -/

def BUFSIZ : Nat := 1024
def MAXARGS : Nat := 16

def LESS : Byte := 0x3C
def GREATER : Byte := 0x3E
def BAR : Byte := 0x7C
def SLASH : Byte := 0x2F

/-- A store into one of the two arrays. -/
inductive Store
  | argv (i : Nat)
  | argv0buf (i : Nat)
  deriving DecidableEq

/-- The store is inside its array. -/
def Store.InBounds : Store → Prop
  | argv i => i < MAXARGS
  | argv0buf i => i < BUFSIZ

/-- `runit`: the stores of the clean-up of a command. -/
def cleanUp (t : Text) (argv : List (Option Nat)) : List Store :=
  match argv with
  | [] => []
  | p :: _ =>
    let name := stringAt t (p.getD 0)
    let copy := if charAt t (p.getD 0) ≠ SLASH then
        .argv0buf 0 :: (List.range (name.length + 1)).map (fun i => .argv0buf (i + 1)) ++ [.argv 0]
      else []
    copy ++ [.argv argv.length]

/-- The loop of `runcmd`, from `again` on.  `ans` are the answers still to come, then zeros;
`none` is a line with more tokens than turns. -/
def collect : Nat → List Int → Lexer → List (Option Nat) → List Store → Option (List Store)
  | 0, _, _, _, _ => none
  | n + 1, ans, L, argv, stores =>
    let (c, t, L) := gettoken L
    if c = WORD then
      if argv.length = MAXARGS then some stores
      else collect n ans L (argv ++ [t]) (stores ++ [.argv argv.length])
    else if c = LESS ∨ c = GREATER then
      let (c, _, L) := gettoken L
      if c ≠ WORD then some stores
      else if ans.headD 0 < 0 then some stores
      else collect n ans.tail L argv stores
    else if c = BAR then
      if ans.headD 0 < 0 then some stores
      else
        let r := ans.tail.headD 0
        if r < 0 then some stores
        else if r = 0 then collect n ans.tail.tail L [] stores
        else some (stores ++ cleanUp L.text argv)
    else if c = 0 then some (stores ++ cleanUp L.text argv)
    else some stores

/-- `runcmd(s)` in a shell whose lexer was last at `L`: the stores it makes. -/
def runcmd (L : Lexer) (ans : List Int) (s : Text) : Option (List Store) :=
  collect (s.length + 1) ans (setText L s) [] []

/-! ## The commands of a line -/

/-- The commands a line asks for, the first of them with the words `ws` already read: up to the
first syntax error, or the first with too many words. -/
def commands (ws : List Text) : List Token → List (List Text)
  | [] => [ws]
  | .word w :: ts => if ws.length = MAXARGS then [] else commands (ws ++ [w]) ts
  | .symbol c :: ts =>
    if c = LESS ∨ c = GREATER then
      match ts with
      | .word _ :: ts => commands ws ts
      | _ => []
    else if c = BAR then ws :: commands [] ts
    else []

section Commands

variable {ws : List Text} {c : Byte} {ts : List Token}

theorem commands_redir (h : c = LESS ∨ c = GREATER) (w : Text) :
    commands ws (.symbol c :: .word w :: ts) = commands ws ts := by
  simp only [commands, if_pos h]

theorem commands_redir_nil (h : c = LESS ∨ c = GREATER) : commands ws [.symbol c] = [] := by
  simp only [commands, if_pos h]

theorem commands_redir_symbol (h : c = LESS ∨ c = GREATER) (c' : Byte) :
    commands ws (.symbol c :: .symbol c' :: ts) = [] := by
  simp only [commands, if_pos h]

theorem commands_bar (h : ¬ (c = LESS ∨ c = GREATER)) (hb : c = BAR) :
    commands ws (.symbol c :: ts) = ws :: commands [] ts := by
  obtain _ | ⟨_ | _, ts⟩ := ts <;> simp only [commands, if_neg h, if_pos hb]

theorem commands_other (h : ¬ (c = LESS ∨ c = GREATER)) (hb : c ≠ BAR) :
    commands ws (.symbol c :: ts) = [] := by
  obtain _ | ⟨_ | _, ts⟩ := ts <;> simp only [commands, if_neg h, if_neg hb]

end Commands

/-- The words of a command fit: there is room for the zero after them, and for the name and its
`/`. -/
def Fits (ws : List Text) : Prop :=
  ws.length < MAXARGS ∧ ∀ w, ws.head? = some w → w.head? = some SLASH ∨ w.length + 2 ≤ BUFSIZ

/-! ## The clean-up -/

theorem charAt_eq (t : Text) (p : Nat) : charAt t p = (stringAt t p).headD 0 := by
  rw [charAt, stringAt, List.getD_eq_getElem?_getD, ← List.head?_drop]
  cases t.drop p with
  | nil => rfl
  | cons c l =>
      by_cases hc : c = 0
      · rw [List.takeWhile_cons_of_neg (by simp [hc]), hc]
        rfl
      · rw [List.takeWhile_cons_of_pos (p := fun x => decide (x ≠ 0)) (decide_eq_true hc)]
        rfl

/-- `argv` holds the words `ws`, the first of them still in the line. -/
structure Holds (L : Lexer) (argv : List (Option Nat)) (ws : List Text) : Prop where
  length_eq : argv.length = ws.length
  name : ∀ w, ws.head? = some w → ∃ p, argv.head? = some (some p) ∧ Terminated L p w

theorem Holds.nil (L : Lexer) : Holds L [] [] :=
  ⟨rfl, fun w hw => by cases hw⟩

theorem Holds.gettoken {L : Lexer} {argv : List (Option Nat)} {ws : List Text} {ts : List Token}
    (hprim : Primed L ts) (h : Holds L argv ws) : Holds (User.gettoken L).2.2 argv ws :=
  ⟨h.length_eq, fun w hw =>
    let ⟨p, hp, hterm⟩ := h.name w hw
    ⟨p, hp, hterm.gettoken hprim⟩⟩

theorem Holds.snoc {L : Lexer} {argv : List (Option Nat)} {ws : List Text} (h : Holds L argv ws)
    {p : Nat} {w : Text} (hterm : Terminated L p w) :
    Holds L (argv ++ [some p]) (ws ++ [w]) := by
  refine ⟨by simp [h.length_eq], fun w' hw' => ?_⟩
  have hlen := h.length_eq
  cases ws with
  | nil =>
      cases argv with
      | nil =>
          cases hw'
          exact ⟨p, rfl, hterm⟩
      | cons q argv => cases hlen
  | cons v ws =>
      obtain ⟨q, hq, hterm'⟩ := h.name w' hw'
      exact ⟨q, by rw [List.head?_append, hq]; rfl, hterm'⟩

/-- The stores of the clean-up are in bounds exactly when the words fit. -/
theorem cleanUp_iff {L : Lexer} {argv : List (Option Nat)} {ws : List Text} (h : Holds L argv ws) :
    (∀ st ∈ cleanUp L.text argv, st.InBounds) ↔ Fits ws := by
  have hlen := h.length_eq
  cases ws with
  | nil =>
      cases argv with
      | nil => exact iff_of_true (fun st hst => by cases hst) ⟨by decide, fun w hw => by cases hw⟩
      | cons q argv => cases hlen
  | cons w ws =>
      obtain ⟨p, hp, hterm⟩ := h.name w rfl
      cases argv with
      | nil => cases hlen
      | cons q argv =>
          obtain rfl : q = some p := Option.some.inj hp
          have hslash : charAt L.text p = SLASH ↔ w.head? = some SLASH := by
            rw [charAt_eq, hterm.string]
            cases w with
            | nil => exact iff_of_false (by decide) (by simp)
            | cons c w => simp
          simp only [cleanUp, Option.getD_some, hterm.string, Fits, List.head?_cons,
            Option.some.injEq, forall_eq']
          by_cases hs : charAt L.text p = SLASH
          · rw [if_neg (not_not_intro hs)]
            simp [Store.InBounds, hslash.mp hs, hlen]
          · have hns : w.head? ≠ some SLASH := fun h => hs (hslash.mpr h)
            rw [if_pos hs]
            constructor
            · intro hall
              have hlast := hall (.argv0buf (w.length + 1)) (by simp)
              have hzero : (some p :: argv).length < MAXARGS := hall (.argv _) (by simp)
              exact ⟨hlen ▸ hzero, Or.inr hlast⟩
            · rintro ⟨hargs, hname⟩ st hst
              have hroom : w.length + 2 ≤ BUFSIZ := hname.resolve_left hns
              simp only [List.cons_append, List.append_assoc, List.mem_cons, List.mem_append,
                List.mem_map, List.mem_range, List.not_mem_nil, or_false, false_or] at hst
              obtain rfl | ⟨i, hi, rfl⟩ | rfl | rfl := hst
              · exact Nat.lt_of_lt_of_le (Nat.succ_pos _) hroom
              · exact Nat.lt_of_lt_of_le (show i + 1 < w.length + 2 by omega) hroom
              · exact Nat.lt_of_le_of_lt (Nat.zero_le _) hargs
              · rw [hlen]
                exact hargs

/-! ## A run -/

/-- The run ends, and its stores are in bounds. -/
def Safe (r : Option (List Store)) : Prop := ∃ out, r = some out ∧ ∀ st ∈ out, st.InBounds

theorem safe_some {out : List Store} : Safe (some out) ↔ ∀ st ∈ out, st.InBounds :=
  ⟨fun ⟨_, h, hall⟩ => Option.some.inj h ▸ hall, fun hall => ⟨out, rfl, hall⟩⟩

theorem Primed.symbol_ne {L : Lexer} {c : Byte} {ts : List Token}
    (h : Primed L (.symbol c :: ts)) : c ≠ WORD ∧ c ≠ 0 := by
  generalize hts : Token.symbol c :: ts = all at h
  cases h with
  | done => cases hts
  | word => cases hts
  | symbol hc _ =>
      cases hts
      constructor <;> rintro rfl <;> exact absurd hc (by decide)

theorem collect_iff (n : Nat) : ∀ (L : Lexer) (ts : List Token) (argv : List (Option Nat))
    (ws : List Text) (stores : List Store), Primed L ts → ts.length < n → Holds L argv ws →
    (∀ st ∈ stores, st.InBounds) → argv.length ≤ MAXARGS →
    ((∀ ans, Safe (collect n ans L argv stores)) ↔ ∀ c ∈ commands ws ts, Fits c) := by
  induction n with
  | zero => exact fun L ts argv ws stores _ hlt => absurd hlt (Nat.not_lt_zero _)
  | succ n ih =>
      intro L ts argv ws stores hprim hlt hholds hstores hargv
      have hholds' := hholds.gettoken hprim
      have happend : (∀ st ∈ stores ++ cleanUp (gettoken L).2.2.text argv, st.InBounds) ↔
          Fits ws := by
        rw [← cleanUp_iff hholds']
        exact ⟨fun h st hst => h st (List.mem_append_right _ hst),
          fun h st hst => (List.mem_append.mp hst).elim (hstores st) (h st)⟩
      cases ts with
      | nil =>
          obtain ⟨hid, -⟩ := hprim.gettoken_nil
          have hstep : ∀ ans, collect (n + 1) ans L argv stores =
              some (stores ++ cleanUp (gettoken L).2.2.text argv) := by
            intro ans
            simp only [collect, hid]
            rfl
          simp only [hstep, safe_some, happend, commands, List.mem_singleton, forall_eq,
            forall_const]
      | cons tok ts =>
          obtain ⟨hid, hprim', hword⟩ := hprim.gettoken
          have hlt' : ts.length < n := Nat.lt_of_succ_lt_succ hlt
          cases tok with
          | word w =>
              obtain ⟨p, hp, hterm⟩ := hword w rfl
              have hlen := hholds.length_eq
              rw [Token.id] at hid
              by_cases hfull : argv.length = MAXARGS
              · have hstep : ∀ ans, collect (n + 1) ans L argv stores = some stores := by
                  intro ans
                  simp only [collect, hid, if_pos, hfull]
                rw [commands, if_pos (hlen ▸ hfull)]
                simp only [hstep, safe_some]
                exact iff_of_true (fun _ => hstores) (fun c hc => by cases hc)
              · have hstep : ∀ ans, collect (n + 1) ans L argv stores =
                    collect n ans (gettoken L).2.2 (argv ++ [some p])
                      (stores ++ [.argv argv.length]) := by
                  intro ans
                  simp only [collect, hid, if_pos, if_neg hfull, hp]
                rw [commands, if_neg (hlen ▸ hfull)]
                simp only [hstep]
                refine ih _ ts _ _ _ hprim' hlt' (hholds'.snoc hterm) ?_ ?_
                · intro st hst
                  obtain hst | hst := List.mem_append.mp hst
                  · exact hstores st hst
                  · rw [List.mem_singleton.mp hst]
                    exact Nat.lt_of_le_of_ne hargv hfull
                · rw [List.length_append, List.length_singleton]
                  omega
          | symbol c =>
              obtain ⟨hcw, hc0⟩ := hprim.symbol_ne
              rw [Token.id] at hid
              by_cases hredir : c = LESS ∨ c = GREATER
              · cases ts with
                | nil =>
                    obtain ⟨hid2, -⟩ := hprim'.gettoken_nil
                    have hstep : ∀ ans, collect (n + 1) ans L argv stores = some stores := by
                      intro ans
                      simp only [collect, hid, if_neg hcw, if_pos hredir, hid2]
                      rfl
                    rw [commands_redir_nil hredir]
                    simp only [hstep, safe_some]
                    exact iff_of_true (fun _ => hstores) (fun c hc => by cases hc)
                | cons tok2 ts =>
                    obtain ⟨hid2, hprim2, -⟩ := hprim'.gettoken
                    cases tok2 with
                    | symbol c2 =>
                        rw [Token.id] at hid2
                        have hstep : ∀ ans, collect (n + 1) ans L argv stores = some stores := by
                          intro ans
                          simp only [collect, hid, if_neg hcw, if_pos hredir, hid2]
                          rw [if_pos hprim'.symbol_ne.1]
                        rw [commands_redir_symbol hredir]
                        simp only [hstep, safe_some]
                        exact iff_of_true (fun _ => hstores) (fun c hc => by cases hc)
                    | word w2 =>
                        rw [Token.id] at hid2
                        have hlt2 : ts.length < n := Nat.lt_of_succ_lt hlt'
                        have hrest := ih _ ts argv ws stores hprim2 hlt2
                          (hholds'.gettoken hprim') hstores hargv
                        have hstep : ∀ ans, collect (n + 1) ans L argv stores =
                            if ans.headD 0 < 0 then some stores
                            else collect n ans.tail (gettoken (gettoken L).2.2).2.2 argv stores := by
                          intro ans
                          simp only [collect, hid, if_neg hcw, if_pos hredir, hid2]
                          rfl
                        rw [commands_redir hredir, ← hrest]
                        simp only [hstep]
                        constructor
                        · intro h ans
                          exact h (0 :: ans)
                        · intro h ans
                          split
                          · exact safe_some.mpr hstores
                          · exact h ans.tail
              by_cases hbar : c = BAR
              · have hrest := ih _ ts [] [] stores hprim' hlt' (Holds.nil _) hstores (Nat.zero_le _)
                have hstep : ∀ ans, collect (n + 1) ans L argv stores =
                    if ans.headD 0 < 0 then some stores
                    else if ans.tail.headD 0 < 0 then some stores
                    else if ans.tail.headD 0 = 0 then
                      collect n ans.tail.tail (gettoken L).2.2 [] stores
                    else some (stores ++ cleanUp (gettoken L).2.2.text argv) := by
                  intro ans
                  simp only [collect, hid, if_neg hcw, if_neg hredir, if_pos hbar]
                rw [commands_bar hredir hbar, List.forall_mem_cons, ← hrest, ← happend]
                simp only [hstep]
                constructor
                · intro h
                  exact ⟨safe_some.mp (h [0, 1]), fun ans => h (0 :: 0 :: ans)⟩
                · rintro ⟨hself, hchild⟩ ans
                  split
                  · exact safe_some.mpr hstores
                  split
                  · exact safe_some.mpr hstores
                  split
                  · exact hchild ans.tail.tail
                  · exact safe_some.mpr hself
              · have hstep : ∀ ans, collect (n + 1) ans L argv stores = some stores := by
                  intro ans
                  simp only [collect, hid, if_neg hcw, if_neg hredir, if_neg hbar, if_neg hc0]
                rw [commands_other hredir hbar]
                simp only [hstep, safe_some]
                exact iff_of_true (fun _ => hstores) (fun c hc => by cases hc)

theorem tokens_length_le (s : Text) : (tokens s).length ≤ s.length := by
  induction s using tokens.induct with
  | case1 => exact tokens_nil ▸ Nat.le_refl _
  | case2 c cs hs ih =>
      rw [tokens_space hs]
      exact Nat.le_succ_of_le ih
  | case3 c cs hs hy ih =>
      rw [tokens_symbol (by simpa using hs) hy]
      exact Nat.succ_le_succ ih
  | case4 c cs hs hy ih =>
      have hw : isWordChar c = true := by simp [isWordChar, hs, hy]
      rw [tokens_word hw, List.dropWhile_cons_of_pos hw]
      exact Nat.succ_le_succ (Nat.le_trans ih (List.dropWhile_suffix _).length_le)

/-- Whatever the system answers, `runcmd` stores inside its arrays exactly when every command
the line asks for has fewer than `MAXARGS` words, and a name that starts with `/` or leaves room
for one. -/
theorem runcmd_inBounds_iff (L : Lexer) {s : Text} (h0 : (0 : Byte) ∉ s) :
    (∀ ans, Safe (runcmd L ans s)) ↔ ∀ c ∈ commands [] (tokens s), Fits c :=
  collect_iff (s.length + 1) (setText L s) (tokens s) [] [] [] (setText_primed L h0)
    (Nat.lt_succ_of_le (tokens_length_le s)) (Holds.nil _) (fun st hst => by cases hst)
    (Nat.zero_le _)

/-- The shell before its first line. -/
def freshLexer : Lexer := ⟨0, none, none, []⟩

theorem runcmd_inBounds_ls : Safe (runcmd freshLexer [] [0x6C, 0x73]) := by
  refine (runcmd_inBounds_iff freshLexer (s := [0x6C, 0x73]) (by decide)).mpr ?_ []
  rw [tokens_word (by decide)]
  intro c hc
  have htail : tokens (([0x6C, 0x73] : Text).dropWhile isWordChar) = [] := tokens_nil
  rw [htail] at hc
  obtain rfl : c = [[0x6C, 0x73]] := List.mem_singleton.mp hc
  exact ⟨by decide, fun w hw => Or.inr (by cases hw; decide)⟩

/-- A command of sixteen words, `a a a a a a a a a a a a a a a a`. -/
def sixteenWords : Text := (List.replicate 15 [0x61, 0x20]).flatten ++ [0x61]

/-- The zero after sixteen words is stored past the end of `argv`. -/
theorem runcmd_overruns : (0 : Byte) ∉ sixteenWords ∧ sixteenWords.length < BUFSIZ ∧
    ¬ Safe (runcmd freshLexer [] sixteenWords) := by
  refine ⟨by decide, by decide, ?_⟩
  rintro ⟨out, hout, hall⟩
  have hlast : (runcmd freshLexer [] sixteenWords).bind List.getLast? = some (.argv 16) := by decide
  rw [hout, Option.bind_some] at hlast
  exact absurd (hall _ (List.mem_of_getLast? hlast)) (by decide : ¬ 16 < 16)

end SisOp.User
