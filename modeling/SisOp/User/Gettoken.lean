/-
# `SisOp.User.Gettoken` — the lexer of the JOS shell

`_gettoken` and `gettoken` (`user/sh.c`).  The lexer works in the line itself: it
overwrites white space and symbols with zeros, and it is always one token ahead,
so that by the time a word is returned the scan of what follows has put its
terminator in place.

The line is the list of its bytes up to the NUL; a pointer into it is an index,
and there is a NUL at every index from the length on.  `Primed` is the state of
the lexer between two calls: the token read ahead, and the text after it still as
it was.
-/
import SisOp.Jos.Mmu
import Mathlib.Data.List.TakeWhile

namespace SisOp.User

open SisOp.Jos (Byte)

abbrev Text := List Byte

/-! ## The code -/

/-- `strchr(s, c)`, as a truth value; a NUL is never found. -/
def strchr : Text → Byte → Bool
  | [], _ => false
  | b :: s, c => b == c || strchr s c

/-- `" \t\r\n"`. -/
def WHITESPACE : Text := [0x20, 0x09, 0x0D, 0x0A]

/-- `"<|>&;()"`. -/
def SYMBOLS : Text := [0x3C, 0x7C, 0x3E, 0x26, 0x3B, 0x28, 0x29]

/-- What `gettoken` returns for a word: `'w'`. -/
def WORD : Byte := 0x77

/-- `*s`. -/
def charAt (t : Text) (s : Nat) : Byte := t.getD s 0

/-- `while (strchr(WHITESPACE, *s)) *s++ = 0`, with `n` bytes up to the NUL. -/
def skipSpace : Nat → Text → Nat → Text × Nat
  | 0, t, s => (t, s)
  | n + 1, t, s =>
    if strchr WHITESPACE (charAt t s) then skipSpace n (t.set s 0) (s + 1) else (t, s)

/-- `while (*s && !strchr(WHITESPACE SYMBOLS, *s)) s++`, with `n` bytes up to the NUL. -/
def scanWord : Nat → Text → Nat → Nat
  | 0, _, s => s
  | n + 1, t, s =>
    if charAt t s ≠ 0 ∧ ¬ strchr (WHITESPACE ++ SYMBOLS) (charAt t s) then scanWord n t (s + 1)
    else s

/-- What `_gettoken` leaves: its result, `*p1`, `*p2` and the line. -/
structure Scan where
  ret : Byte
  p1 : Option Nat
  p2 : Option Nat
  text : Text

/-- `_gettoken(s, &np1, &np2)`. -/
def scanToken (text : Text) (s np1 np2 : Option Nat) : Scan :=
  match s with
  | none => ⟨0, np1, np2, text⟩
  | some s =>
    let (t, s) := skipSpace (text.length - s) text s
    if charAt t s = 0 then ⟨0, none, none, t⟩
    else if strchr SYMBOLS (charAt t s) then ⟨charAt t s, some s, some (s + 1), t.set s 0⟩
    else ⟨WORD, some s, some (scanWord (t.length - s) t s), t⟩

/-- The static variables of `gettoken`, and the line. -/
structure Lexer where
  nc : Byte
  np1 : Option Nat
  np2 : Option Nat
  text : Text

/-- `gettoken(s, 0)`. -/
def setText (L : Lexer) (s : Text) : Lexer :=
  let r := scanToken s (some 0) L.np1 L.np2
  ⟨r.ret, r.p1, r.p2, r.text⟩

/-- `gettoken(0, &t)`: the token, `t`, and the lexer after it. -/
def gettoken (L : Lexer) : Byte × Option Nat × Lexer :=
  let r := scanToken L.text L.np2 L.np1 L.np2
  (L.nc, L.np1, ⟨r.ret, r.p1, r.p2, r.text⟩)

/-- The string at `p`. -/
def stringAt (t : Text) (p : Nat) : Text := (t.drop p).takeWhile (· ≠ 0)

/-! ## The tokens of a line -/

def isSpace (c : Byte) : Bool := WHITESPACE.contains c
def isSymbol (c : Byte) : Bool := SYMBOLS.contains c
def isWordChar (c : Byte) : Bool := !isSpace c && !isSymbol c

inductive Token
  | symbol (c : Byte)
  | word (w : Text)

/-- What `gettoken` returns for a token. -/
def Token.id : Token → Byte
  | symbol c => c
  | word _ => WORD

/-- The symbols of a line and the maximal runs of other characters between them and the white
space. -/
def tokens : Text → List Token
  | [] => []
  | c :: cs =>
    if isSpace c then tokens cs
    else if isSymbol c then .symbol c :: tokens cs
    else .word (c :: cs.takeWhile isWordChar) :: tokens (cs.dropWhile isWordChar)
termination_by s => s.length
decreasing_by
  · exact Nat.lt_succ_self _
  · exact Nat.lt_succ_self _
  · exact Nat.lt_succ_of_le (List.dropWhile_suffix _).length_le

theorem tokens_nil : tokens [] = [] := by rw [tokens]

theorem tokens_space {c : Byte} {cs : Text} (h : isSpace c = true) :
    tokens (c :: cs) = tokens cs := by
  rw [tokens, if_pos h]

theorem tokens_symbol {c : Byte} {cs : Text} (hs : isSpace c = false) (h : isSymbol c = true) :
    tokens (c :: cs) = .symbol c :: tokens cs := by
  rw [tokens, if_neg (by simp [hs]), if_pos h]

theorem tokens_word {c : Byte} {cs : Text} (h : isWordChar c = true) :
    tokens (c :: cs) =
      .word ((c :: cs).takeWhile isWordChar) :: tokens ((c :: cs).dropWhile isWordChar) := by
  have hs : isSpace c = false := by
    simp only [isWordChar, Bool.and_eq_true, Bool.not_eq_true'] at h
    exact h.1
  have hy : isSymbol c = false := by
    simp only [isWordChar, Bool.and_eq_true, Bool.not_eq_true'] at h
    exact h.2
  rw [tokens, if_neg (by simp [hs]), if_neg (by simp [hy]), List.takeWhile_cons_of_pos h,
    List.dropWhile_cons_of_pos h]

theorem tokens_dropWhile_isSpace (s : Text) : tokens (s.dropWhile isSpace) = tokens s := by
  induction s with
  | nil => rfl
  | cons c cs ih =>
      by_cases h : isSpace c = true
      · rw [List.dropWhile_cons_of_pos h, tokens_space h, ih]
      · rw [List.dropWhile_cons_of_neg h]

/-! ## One scan -/

theorem strchr_eq (s : Text) (c : Byte) : strchr s c = s.contains c := by
  induction s with
  | nil => rfl
  | cons b s ih =>
      rw [strchr, ih, List.contains_cons, Bool.beq_comm]

theorem strchr_space (c : Byte) : strchr WHITESPACE c = isSpace c := strchr_eq _ c

theorem strchr_symbol (c : Byte) : strchr SYMBOLS c = isSymbol c := strchr_eq _ c

theorem strchr_wordChar (c : Byte) : strchr (WHITESPACE ++ SYMBOLS) c = !isWordChar c := by
  rw [strchr_eq]
  simp [isWordChar, isSpace, isSymbol]

theorem charAt_append (front rest : Text) : charAt (front ++ rest) front.length = rest.headD 0 := by
  cases rest <;> simp [charAt, List.getD]

/-- White space before `rest` becomes zeros. -/
theorem skipSpace_eq (rest : Text) : ∀ front : Text,
    skipSpace rest.length (front ++ rest) front.length =
      (front ++ List.replicate (rest.takeWhile isSpace).length 0 ++ rest.dropWhile isSpace,
        front.length + (rest.takeWhile isSpace).length) := by
  induction rest with
  | nil => simp [skipSpace]
  | cons c cs ih =>
      intro front
      rw [List.length_cons, skipSpace, charAt_append, List.headD_cons, strchr_space]
      by_cases h : isSpace c = true
      · have hset : (front ++ c :: cs).set front.length 0 = (front ++ [0]) ++ cs := by simp
        have hlen : front.length + 1 = (front ++ [(0 : Byte)]).length := by simp
        rw [if_pos h, hset, hlen, ih, List.takeWhile_cons_of_pos h, List.dropWhile_cons_of_pos h,
          List.length_cons, List.replicate_succ]
        refine Prod.ext ?_ ?_
        · simp
        · simp only [List.length_append, List.length_singleton]
          omega
      · rw [if_neg h, List.takeWhile_cons_of_neg h, List.dropWhile_cons_of_neg h]
        simp

theorem scanWord_eq (rest : Text) (h0 : (0 : Byte) ∉ rest) : ∀ front : Text,
    scanWord rest.length (front ++ rest) front.length =
      front.length + (rest.takeWhile isWordChar).length := by
  induction rest with
  | nil => simp [scanWord]
  | cons c cs ih =>
      intro front
      have hc : c ≠ 0 := fun h => h0 (by simp [h])
      have hcs : (0 : Byte) ∉ cs := fun h => h0 (List.mem_cons_of_mem c h)
      have hiff : (c ≠ 0 ∧ ¬ (!isWordChar c) = true) ↔ isWordChar c = true := by
        simp only [and_iff_right hc, Bool.not_eq_true', Bool.not_eq_false]
      rw [List.length_cons, scanWord, charAt_append, List.headD_cons, strchr_wordChar]
      by_cases h : isWordChar c = true
      · have happ : front ++ c :: cs = (front ++ [c]) ++ cs := by simp
        have hlen : front.length + 1 = (front ++ [c]).length := by simp
        rw [if_pos (hiff.mpr h), happ, hlen, ih hcs, List.takeWhile_cons_of_pos h,
          List.length_cons, ← hlen]
        omega
      · rw [if_neg (fun h' => h (hiff.mp h')), List.takeWhile_cons_of_neg h]
        rfl

/-! ## The lexer between two calls -/

/-- The lexer has read one token ahead: `ts` are the tokens still to be returned. -/
inductive Primed : Lexer → List Token → Prop
  | done {np1 : Option Nat} {text : Text} : Primed ⟨0, np1, none, text⟩ []
  | symbol {c : Byte} {p : Nat} {front rest : Text} : isSymbol c = true → 0 ∉ rest →
      Primed ⟨c, some p, some front.length, front ++ rest⟩ (.symbol c :: tokens rest)
  | word {front w rest : Text} : 0 ∉ w → 0 ∉ rest → (∀ c ∈ rest.head?, isWordChar c = false) →
      Primed ⟨WORD, some front.length, some (front.length + w.length), front ++ w ++ rest⟩
        (.word w :: tokens rest)

/-- The head of what is left after dropping fails the test. -/
theorem head?_dropWhile_eq_false {p : Byte → Bool} (l : Text) :
    ∀ c ∈ (l.dropWhile p).head?, p c = false := by
  intro c hc
  have h := List.head?_dropWhile_not p l
  rw [Option.mem_def.mp hc] at h
  exact h

/-- A scan from `front` on primes the lexer, leaves what is before it, and leaves a NUL at its
start where the text does not start with a word. -/
theorem scanToken_primed (front rest : Text) (h0 : (0 : Byte) ∉ rest) (np1 np2 : Option Nat) :
    ∃ r, scanToken (front ++ rest) (some front.length) np1 np2 = r ∧
      Primed ⟨r.ret, r.p1, r.p2, r.text⟩ (tokens rest) ∧
      (∀ q, r.p2 = some q → front.length < q) ∧
      ∃ rest', r.text = front ++ rest' ∧
        ((∀ c ∈ rest.head?, isWordChar c = false) → ∀ c ∈ rest'.head?, c = 0) := by
  refine ⟨_, rfl, ?_⟩
  have hlen : (front ++ rest).length - front.length = rest.length := by simp
  have hdrop : (0 : Byte) ∉ rest.dropWhile isSpace :=
    fun h => h0 ((List.dropWhile_suffix _).subset h)
  have hspace := head?_dropWhile_eq_false (p := isSpace) rest
  rw [← tokens_dropWhile_isSpace rest]
  simp only [scanToken, hlen, skipSpace_eq]
  -- `front'` is what the skipped white space has become
  generalize hf : front ++ List.replicate (rest.takeWhile isSpace).length 0 = front'
  have hflen : front.length + (rest.takeWhile isSpace).length = front'.length := by simp [← hf]
  have hzero : ∀ body : Text, (rest.takeWhile isSpace = [] → ∀ c ∈ body.head?, c = 0) →
      ∃ rest', front' ++ body = front ++ rest' ∧ ∀ c ∈ rest'.head?, c = 0 := by
    intro body hbody
    refine ⟨List.replicate (rest.takeWhile isSpace).length 0 ++ body, by simp [← hf], ?_⟩
    cases hk : rest.takeWhile isSpace with
    | nil => simpa using hbody hk
    | cons b l => simp [List.replicate_succ]
  rw [hflen, charAt_append]
  cases hb : rest.dropWhile isSpace with
  | nil =>
      rw [List.headD_nil, if_pos rfl, tokens_nil]
      refine ⟨.done, (fun q hq => by cases hq), ?_⟩
      obtain ⟨rest', heq, hhead⟩ := hzero [] (fun _ c hc => by cases hc)
      exact ⟨rest', heq, fun _ => hhead⟩
  | cons c body =>
      rw [hb] at hdrop hspace
      have hc0 : c ≠ 0 := fun h => hdrop (by simp [h])
      have hcs : isSpace c = false := hspace c rfl
      have hset : (front' ++ c :: body).set front'.length 0 = (front' ++ [0]) ++ body := by simp
      rw [List.headD_cons, if_neg hc0, strchr_symbol]
      by_cases hsym : isSymbol c = true
      · have hlen' : front'.length + 1 = (front' ++ [(0 : Byte)]).length := by simp
        rw [if_pos hsym, tokens_symbol hcs hsym, hset, hlen']
        refine ⟨.symbol hsym fun h => hdrop (List.mem_cons_of_mem c h), fun q hq => ?_, ?_⟩
        · have hq' := Option.some.inj hq
          omega
        obtain ⟨rest', heq, hhead⟩ := hzero (0 :: body) (fun _ c' hc' => by simpa using hc'.symm)
        exact ⟨rest', by rw [← heq]; simp, fun _ => hhead⟩
      · have hword : isWordChar c = true := by simp [isWordChar, hcs, hsym]
        have hbodylen : (front' ++ c :: body).length - front'.length = (c :: body).length := by simp
        rw [if_neg hsym, hbodylen, scanWord_eq _ hdrop, tokens_word hword]
        have htake : (0 : Byte) ∉ (c :: body).takeWhile isWordChar :=
          fun h => hdrop ((List.takeWhile_prefix _).subset h)
        have hleft : (0 : Byte) ∉ (c :: body).dropWhile isWordChar :=
          fun h => hdrop ((List.dropWhile_suffix _).subset h)
        refine ⟨?_, fun q hq => ?_, ?_⟩
        · have hprim := @Primed.word front' _ _ htake hleft (head?_dropWhile_eq_false _)
          rwa [List.append_assoc, List.takeWhile_append_dropWhile] at hprim
        · have hq' := Option.some.inj hq
          rw [List.takeWhile_cons_of_pos hword, List.length_cons] at hq'
          omega
        · refine ⟨List.replicate (rest.takeWhile isSpace).length 0 ++ c :: body, by simp [← hf], ?_⟩
          intro hhead
          cases hk : rest.takeWhile isSpace with
          | nil =>
              -- the text starts with this word
              have hrest : rest = c :: body := by
                rw [← List.takeWhile_append_dropWhile (p := isSpace) (l := rest), hk, hb]
                rfl
              rw [hrest] at hhead
              rw [hhead c rfl] at hword
              cases hword
          | cons b l => simp [List.replicate_succ]

/-- The string at `p` is `w`, and all the lexer may still change is after its NUL. -/
structure Terminated (L : Lexer) (p : Nat) (w : Text) : Prop where
  zero_notMem : (0 : Byte) ∉ w
  text : ∃ front rest, L.text = front ++ w ++ rest ∧ front.length = p ∧ ∀ c ∈ rest.head?, c = 0
  past : ∀ q, L.np2 = some q → p + w.length < q

theorem Terminated.string {L : Lexer} {p : Nat} {w : Text} (h : Terminated L p w) :
    stringAt L.text p = w := by
  obtain ⟨front, rest, htext, rfl, hhead⟩ := h.text
  have hall : ∀ c ∈ w, (c ≠ 0 : Bool) = true := by
    intro c hc
    exact decide_eq_true fun h0 => h.zero_notMem (h0 ▸ hc)
  have hrest : rest.takeWhile (fun c => decide (c ≠ 0)) = [] := by
    cases rest with
    | nil => rfl
    | cons c l =>
        have hc : c = 0 := hhead c rfl
        simp [hc]
  rw [htext, stringAt, List.append_assoc, List.drop_left, List.takeWhile_append_of_pos hall, hrest,
    List.append_nil]

/-- A call returns the next token, with a word terminated, and reads one more ahead. -/
theorem Primed.gettoken {L : Lexer} {tok : Token} {ts : List Token} (h : Primed L (tok :: ts)) :
    (User.gettoken L).1 = tok.id ∧ Primed (User.gettoken L).2.2 ts ∧
      ∀ w, tok = .word w → ∃ p, (User.gettoken L).2.1 = some p ∧
        Terminated (User.gettoken L).2.2 p w := by
  generalize hts : tok :: ts = all at h
  cases h with
  | done => cases hts
  | @symbol c p front rest hc h0 =>
      obtain ⟨rfl, rfl⟩ := List.cons.inj hts
      obtain ⟨r, hr, hprim, -⟩ := scanToken_primed front rest h0 (some p) (some front.length)
      refine ⟨rfl, ?_, fun w hw => by cases hw⟩
      simp only [User.gettoken, hr]
      exact hprim
  | @word front w rest hw h0 hhead =>
      obtain ⟨rfl, rfl⟩ := List.cons.inj hts
      obtain ⟨r, hr, hprim, hpast, rest', htext, hzero⟩ := scanToken_primed (front ++ w) rest h0
        (some front.length) (some (front.length + w.length))
      rw [List.length_append] at hr hpast
      refine ⟨rfl, ?_, fun w' hw' => ⟨front.length, rfl, ?_⟩⟩
      · simp only [User.gettoken, hr]
        exact hprim
      · cases hw'
        simp only [User.gettoken, hr]
        exact ⟨hw, ⟨front, rest', htext, rfl, hzero hhead⟩, hpast⟩

/-- Later calls leave a terminated word alone. -/
theorem Terminated.gettoken {L : Lexer} {ts : List Token} (hprim : Primed L ts) {p : Nat} {w : Text}
    (h : Terminated L p w) : Terminated (User.gettoken L).2.2 p w := by
  obtain ⟨front, rest, htext, hp, hhead⟩ := h.text
  have hpast := h.past
  have hscan : ∀ (front0 rest0 : Text) (np1 : Option Nat), (0 : Byte) ∉ rest0 →
      L.np1 = np1 → L.np2 = some front0.length → L.text = front0 ++ rest0 →
      Terminated (User.gettoken L).2.2 p w := by
    intro front0 rest0 np1 h0 hnp1 hnp2 htext0
    obtain ⟨r, hr, -, hmore, rest', htext', -⟩ :=
      scanToken_primed front0 rest0 h0 np1 (some front0.length)
    have hlt := hpast _ hnp2
    simp only [User.gettoken, hnp1, hnp2, htext0, hr]
    refine ⟨h.zero_notMem, ?_, fun q hq => Nat.lt_trans hlt (hmore q hq)⟩
    -- the scan starts after the NUL, which is in `mid`
    rw [htext] at htext0
    obtain ⟨mid, rfl, rfl⟩ : ∃ mid, front0 = front ++ w ++ mid ∧ rest = mid ++ rest0 := by
      obtain ⟨mid, h1, h2⟩ | ⟨mid, h1, h2⟩ := List.append_eq_append_iff.mp htext0
      · exact ⟨mid, h1, h2⟩
      · have hlen := congrArg List.length h1
        simp only [List.length_append] at hlen
        omega
    refine ⟨front, mid ++ rest', by rw [htext']; simp, hp, ?_⟩
    cases mid with
    | nil => simp [hp] at hlt
    | cons c l => exact hhead
  cases hprim with
  | done => exact ⟨h.zero_notMem, ⟨front, rest, htext, hp, hhead⟩, fun q hq => by cases hq⟩
  | symbol _ h0 => exact hscan _ _ _ h0 rfl rfl rfl
  | @word front' w' rest' _ h0 _ =>
      exact hscan (front' ++ w') rest' _ h0 rfl (by simp) rfl

/-- After the last token there is nothing to read. -/
theorem Primed.gettoken_nil {L : Lexer} (h : Primed L []) :
    (User.gettoken L).1 = 0 ∧ Primed (User.gettoken L).2.2 [] := by
  cases h with
  | done => exact ⟨rfl, .done⟩

/-- A new line primes the lexer, whatever it was doing before. -/
theorem setText_primed (L : Lexer) {s : Text} (h0 : (0 : Byte) ∉ s) :
    Primed (setText L s) (tokens s) := by
  obtain ⟨r, hr, hprim, -⟩ := scanToken_primed [] s h0 L.np1 L.np2
  simp only [List.nil_append, List.length_nil] at hr
  simp only [setText, hr]
  exact hprim

/-! ## The tokens, call after call -/

/-- The lexer after `n` calls. -/
def afterCalls (L : Lexer) : Nat → Lexer
  | 0 => L
  | n + 1 => (gettoken (afterCalls L n)).2.2

theorem Primed.afterCalls {L : Lexer} {ts : List Token} (h : Primed L ts) (n : Nat) :
    Primed (User.afterCalls L n) (ts.drop n) := by
  induction n with
  | zero => exact h
  | succ n ih =>
      rw [User.afterCalls]
      cases hts : ts.drop n with
      | nil =>
          rw [hts] at ih
          have hend : ts.drop (n + 1) = [] := by
            rw [← List.drop_drop, hts]
            rfl
          rw [hend]
          exact ih.gettoken_nil.2
      | cons tok ts' =>
          rw [hts] at ih
          have hnext : ts.drop (n + 1) = ts' := by
            rw [← List.drop_drop, hts]
            rfl
          rw [hnext]
          exact ih.gettoken.2.1

/-- After `gettoken(s, 0)` the calls return the tokens of `s` in order and then 0 for ever; with
a word comes a pointer to it, terminated. -/
theorem gettoken_tokens (L : Lexer) {s : Text} (h0 : (0 : Byte) ∉ s) (n : Nat) :
    let call := gettoken (afterCalls (setText L s) n)
    call.1 = ((tokens s)[n]?).elim 0 Token.id ∧
      ∀ w, (tokens s)[n]? = some (.word w) →
        ∃ p, call.2.1 = some p ∧ stringAt call.2.2.text p = w := by
  have hprim := (setText_primed L h0).afterCalls n
  rw [← List.head?_drop]
  cases hts : (tokens s).drop n with
  | nil =>
      rw [hts] at hprim
      exact ⟨hprim.gettoken_nil.1, fun w hw => by cases hw⟩
  | cons tok ts =>
      rw [hts] at hprim
      obtain ⟨hid, -, hword⟩ := hprim.gettoken
      refine ⟨hid, fun w hw => ?_⟩
      obtain ⟨p, hp, hterm⟩ := hword w (Option.some.inj hw)
      exact ⟨p, hp, hterm.string⟩

/-- `ls>f`: the words end where the symbol was. -/
theorem gettoken_tokens_adjacent :
    let call := gettoken (afterCalls (setText ⟨0, none, none, []⟩ [0x6C, 0x73, 0x3E, 0x66]) 0)
    call.1 = WORD ∧ ∃ p, call.2.1 = some p ∧ stringAt call.2.2.text p = [0x6C, 0x73] := by
  have h := gettoken_tokens ⟨0, none, none, []⟩ (s := [0x6C, 0x73, 0x3E, 0x66]) (by decide) 0
  have htok : (tokens [0x6C, 0x73, 0x3E, 0x66])[0]? = some (.word [0x6C, 0x73]) := by
    rw [tokens_word (by decide)]
    rfl
  exact ⟨h.1.trans (by rw [htok]; rfl), h.2 _ htok⟩

end SisOp.User
