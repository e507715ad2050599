/-
# `SisOp.Shell.Redirs` — which commands keep their redirections and assignments

`redir_command` has a function for a redirected output with and without a redirected
error, and one for a redirected input; none of them sets the environment, and the other
combinations lose a redirection or the command.
-/
import SisOp.Shell.Exec
import Mathlib.Data.List.Induction
import Mathlib.Data.List.TakeWhile

namespace SisOp.Shell

open SisOp.Lib

/-! ## What a command asks for -/

/-- The value of the last `KEY=VALUE` of `eargv` for a key. -/
def assigned (eargv : List Str) (key : Str) : Option Str :=
  (eargv.reverse.find? fun arg => getEnvironKey arg = key).map fun arg =>
    arg.drop ((getEnvironKey arg).length + 1)

/-- Descriptor `n` is open on the file and survives `execvp`. -/
def OpenOn (t : Slots Entry) (n : Nat) (name : Str) (mode : Mode) : Prop :=
  ∃ id, t.get n = some ⟨.file id name mode, false⟩

/-- Descriptor 2 is a copy of descriptor 1. -/
def ErrIsOut (t : Slots Entry) : Prop :=
  ∃ e, t.get 1 = some e ∧ t.get 2 = some { e with cloexec := false }

/-- The table `t'` is `t` with the redirections of the command. -/
structure Redirected (e : Execcmd) (t t' : Slots Entry) : Prop where
  input : if e.inFile = [] then t'.get 0 = t.get 0 else OpenOn t' 0 e.inFile .rd
  output : if e.outFile = [] then t'.get 1 = t.get 1 else OpenOn t' 1 e.outFile .wr
  error : if e.errFile = [] then t'.get 2 = t.get 2
    else if e.errFile = ['&', '1'] then ErrIsOut t' else OpenOn t' 2 e.errFile .wr

/-- The process `p` calls `execvp` with all that was parsed. -/
structure Honours (e : Execcmd) (p : Proc) (x : Execvp) : Prop where
  argv : x.argv = e.argv
  environ : ∀ key, x.environ key = (assigned e.eargv key).or (p.environ key)
  fds : Redirected e p.fds x.fds

/-- The files of the redirections can be opened. -/
structure FilesOpen (canOpen : Str → Mode → Bool) (e : Execcmd) : Prop where
  input : e.inFile ≠ [] → canOpen e.inFile .rd = true
  output : e.outFile ≠ [] → canOpen e.outFile .wr = true
  error : e.errFile ≠ [] → e.errFile ≠ ['&', '1'] → canOpen e.errFile .wr = true

/-! ## What the parser leaves in a command -/

/-- A command has files only with type `REDIR`, and only assignments in `eargv`. -/
structure Parsed (e : Execcmd) : Prop where
  type : e.type = .EXEC ∧ e.inFile = [] ∧ e.outFile = [] ∧ e.errFile = [] ∨ e.type = .REDIR
  eargv : ∀ arg ∈ e.eargv, isEnvironVar arg = true

theorem parsed_parseToken {v : Vars} {c c' : Execcmd} {tok : Str} (hc : Parsed c)
    (h : parseToken v c tok = some c') : Parsed c' := by
  unfold parseToken at h
  split at h
  · rename_i d hd
    cases h
    unfold parseRedirFlow at hd
    split at hd
    · cases hd
      refine ⟨Or.inr rfl, ?_⟩
      dsimp only
      split
      · exact hc.eargv
      · split <;> exact hc.eargv
    · split at hd
      · cases hd
        exact ⟨Or.inr rfl, hc.eargv⟩
      · cases hd
  · split at h
    · rename_i henv
      split at h
      · cases h
        refine ⟨hc.type, ?_⟩
        intro arg hmem
        cases List.mem_append.mp hmem with
        | inl hold => exact hc.eargv arg hold
        | inr hnew => exact (List.mem_singleton.mp hnew) ▸ henv
      · cases h
    · split at h
      · cases h
        exact ⟨hc.type, hc.eargv⟩
      · cases h

theorem parsed_parseTokens {v : Vars} (n : Nat) :
    ∀ (buf : Str) (c c' : Execcmd), buf.length ≤ n → Parsed c →
      parseTokens v c buf = some c' → Parsed c' := by
  induction n with
  | zero =>
    intro buf c c' hn hc h
    rw [List.eq_nil_of_length_eq_zero (Nat.le_zero.mp hn), parseTokens] at h
    cases h
    exact hc
  | succ n ih =>
    intro buf c c' hn hc h
    rw [parseTokens] at h
    split at h
    · cases h
      exact hc
    · rename_i hne
      split at h
      · rename_i d hd
        have hlt := drop_token_lt hne
        exact ih _ d c' (by omega) (parsed_parseToken hc hd) h
      · cases h

theorem parsed_parseExec {v : Vars} {buf : Str} {e : Execcmd} (h : parseExec v buf = some e) :
    Parsed e := by
  unfold parseExec execCmdCreate at h
  split at h
  · cases h
  · rename_i c hc
    split at hc
    · cases hc
      split at h
      · rename_i c' hc'
        split at h
        · cases h
          refine parsed_parseTokens buf.length buf _ _ (Nat.le_refl _) ?_ hc'
          refine ⟨Or.inl ⟨rfl, rfl, rfl, rfl⟩, ?_⟩
          intro arg hmem
          cases hmem
        · cases h
      · cases h
    · cases hc

theorem parseExec_of_parseTokens {v : Vars} {buf : Str} {c : Execcmd} (hlen : buf.length < BUFLEN)
    (h : parseTokens v ⟨.EXEC, buf, [], [], [], [], []⟩ buf = some c)
    (hargv : c.argv.length < MAXARGS) : parseExec v buf = some c := by
  simp only [parseExec, execCmdCreate, hlen, if_true, h, hargv]

/-! ## The environment -/

theorem length_takeWhile_of_blockContains {c : Char} {s : Str} {i : Nat} (h : blockContains s c = some i) :
    (s.takeWhile (· != c)).length = i := by
  induction s generalizing i with
  | nil => cases h
  | cons a s ih =>
    unfold blockContains at h ih
    rw [List.findIdx?_cons] at h
    cases hac : a == c with
    | true =>
      rw [hac] at h
      cases h
      simp [bne, hac]
    | false =>
      rw [hac] at h
      obtain ⟨j, hj, rfl⟩ := Option.map_eq_some_iff.mp h
      rw [List.takeWhile_cons_of_pos (by simp [bne, hac]), List.length_cons, ih hj]

/-- An assignment has a key, and `block_contains` finds its end. -/
theorem key_of_isEnvironVar {arg : Str} (h : isEnvironVar arg = true) :
    getEnvironKey arg ≠ [] ∧ blockContains arg '=' = some (getEnvironKey arg).length := by
  unfold isEnvironVar at h
  split at h
  · rename_i i hi
    have hlen := length_takeWhile_of_blockContains hi
    refine ⟨?_, ?_⟩
    · intro hnil
      unfold getEnvironKey at hnil
      rw [hnil] at hlen
      cases hlen
    · rw [hi, getEnvironKey, hlen]
  · cases h

theorem setenv_of_isEnvironVar {arg : Str} (h : isEnvironVar arg = true) (env : Environ) :
    setenv env (getEnvironKey arg) (getEnvironValue arg ((blockContains arg '=').getD 0)) =
      fun k => if k = getEnvironKey arg then some (arg.drop ((getEnvironKey arg).length + 1))
        else env k := by
  obtain ⟨hne, hidx⟩ := key_of_isEnvironVar h
  have hmem : '=' ∉ getEnvironKey arg := by
    intro hmem
    have hp := List.mem_takeWhile_imp hmem
    simp at hp
  simp only [setenv, hne, hmem, or_self, if_false, hidx, Option.getD_some, getEnvironValue]

/-- `set_environ_vars` gives each key the value of its last assignment. -/
theorem setEnvironVars_apply (eargv : List Str) (h : ∀ arg ∈ eargv, isEnvironVar arg = true)
    (env : Environ) (key : Str) :
    setEnvironVars env eargv key = (assigned eargv key).or (env key) := by
  induction eargv using List.reverseRecOn with
  | nil => rfl
  | append_singleton args arg ih =>
    have harg := h arg (by simp)
    have hih := ih (fun a ha => h a (List.mem_append_left _ ha))
    unfold setEnvironVars at hih ⊢
    rw [List.foldl_append, List.foldl_cons, List.foldl_nil, setenv_of_isEnvironVar harg]
    unfold assigned at hih ⊢
    rw [List.reverse_append, List.reverse_singleton, List.singleton_append, List.find?_cons]
    by_cases hk : getEnvironKey arg = key
    · simp [hk]
    · simp only [decide_eq_false hk, Ne.symm hk, if_false]
      exact hih

/-! ## The descriptors -/

theorem get_dup2 {p : Proc} {fd : Nat} {e : Entry} (h : p.fds.get fd = some e) (n m : Nat) :
    (dup2 p fd n).fds.get m =
      if m = n ∧ fd ≠ n then some { e with cloexec := false } else p.fds.get m := by
  simp only [dup2, h]
  by_cases hfd : fd = n
  · simp [hfd]
  · simp only [hfd, if_false, Slots.get_put]
    by_cases hm : m = n <;> simp [hm, hfd]

theorem environ_dup2 (p : Proc) (fd n : Nat) : (dup2 p fd n).environ = p.environ := by
  unfold dup2
  cases p.fds.get fd with
  | none => rfl
  | some e =>
    by_cases h : fd = n
    · simp [h]
    · simp [h]

theorem opened_dup2 (p : Proc) (fd n : Nat) : (dup2 p fd n).opened = p.opened := by
  unfold dup2
  cases p.fds.get fd with
  | none => rfl
  | some e =>
    by_cases h : fd = n
    · simp [h]
    · simp [h]

theorem get_withFile (p : Proc) (file : Str) (mode : Mode) (cloexec : Bool) (m : Nat) :
    (p.withFile file mode cloexec).fds.get m =
      if m = p.fds.lowest then some ⟨.file p.opened file mode, cloexec⟩ else p.fds.get m :=
  Slots.get_put _ _ _ _

theorem get_withFile_lowest (p : Proc) {file : Str} {mode : Mode} {cloexec : Bool} :
    (p.withFile file mode cloexec).fds.get p.fds.lowest =
      some ⟨.file p.opened file mode, cloexec⟩ :=
  Slots.get_put_self _ _ _

/-- The output in the lowest free descriptor and in 1. -/
theorem get_salida (p : Proc) (file : Str) (m : Nat) :
    (dup2 (p.withFile file .wr true) p.fds.lowest 1).fds.get m =
      if m = p.fds.lowest then some ⟨.file p.opened file .wr, true⟩
      else if m = 1 then some ⟨.file p.opened file .wr, false⟩ else p.fds.get m := by
  rw [get_dup2 (get_withFile_lowest p), get_withFile]
  by_cases hl : m = p.fds.lowest
  · subst hl
    by_cases h1 : p.fds.lowest = 1 <;> simp [h1]
  · by_cases h1 : m = 1
    · simp [h1, Ne.symm (h1 ▸ hl), (h1 ▸ hl : 1 ≠ p.fds.lowest)]
    · simp [h1, hl]

theorem blockContains_isSome {s : Str} {c : Char} : (blockContains s c).isSome = true ↔ c ∈ s := by
  simp [blockContains]

section

variable {canOpen : Str → Mode → Bool}

/-- `redir_entrada`: the input goes to the lowest free descriptor and to 0. -/
theorem redirEntrada_eq {r : Execcmd} (p : Proc) (ho : canOpen r.inFile .rd = true) :
    ∃ x, redirEntrada canOpen r p = [x] ∧ x.argv = r.argv ∧ x.environ = p.environ ∧
      ∀ m, x.fds.get m = if m = 0 ∨ m = p.fds.lowest
        then some ⟨.file p.opened r.inFile .rd, false⟩ else p.fds.get m := by
  have hcall : redirEntrada canOpen r p
      = execvp (dup2 (p.withFile r.inFile .rd false) p.fds.lowest 0) r.argv := by
    simp only [redirEntrada, openRedirFd, openFile, ho, if_true]
  refine ⟨_, hcall, rfl, environ_dup2 _ _ _, ?_⟩
  intro m
  dsimp only
  rw [get_dup2 (get_withFile_lowest p), get_withFile]
  by_cases h0 : m = 0
  · by_cases hl : p.fds.lowest = 0 <;> simp [h0, hl]
  · simp [h0]

/-- `redir_salida`: the output goes to the lowest free descriptor, until `execvp`, and to 1. -/
theorem redirSalida_eq {r : Execcmd} (p : Proc) (ho : canOpen r.outFile .wr = true) :
    ∃ x, redirSalida canOpen r p = [x] ∧ x.argv = r.argv ∧ x.environ = p.environ ∧
      ∀ m, x.fds.get m =
        if m = p.fds.lowest then some ⟨.file p.opened r.outFile .wr, true⟩
        else if m = 1 then some ⟨.file p.opened r.outFile .wr, false⟩ else p.fds.get m := by
  have hcall : redirSalida canOpen r p
      = execvp (dup2 (p.withFile r.outFile .wr true) p.fds.lowest 1) r.argv := by
    simp only [redirSalida, openRedirFd, openFile, ho, if_true]
  refine ⟨_, hcall, rfl, environ_dup2 _ _ _, ?_⟩
  intro m
  exact get_salida p r.outFile m

/-- `redir_error_salida` with a `'&'`: descriptor 2 is one more copy of the output. -/
theorem redirErrorSalida_amp {r : Execcmd} (p : Proc) (ho : canOpen r.outFile .wr = true)
    (hamp : '&' ∈ r.errFile) :
    ∃ x, redirErrorSalida canOpen r p = [x] ∧ x.argv = r.argv ∧ x.environ = p.environ ∧
      ∀ m, x.fds.get m =
        if m = p.fds.lowest then some ⟨.file p.opened r.outFile .wr, true⟩
        else if m = 1 ∨ m = 2 then some ⟨.file p.opened r.outFile .wr, false⟩
        else p.fds.get m := by
  have hb := blockContains_isSome.mpr hamp
  have hcall : redirErrorSalida canOpen r p
      = execvp (dup2 (dup2 (p.withFile r.outFile .wr true) p.fds.lowest 1) p.fds.lowest 2)
          r.argv := by
    simp only [redirErrorSalida, openRedirFd, openFile, ho, hb, if_true]
  have hl : (dup2 (p.withFile r.outFile .wr true) p.fds.lowest 1).fds.get p.fds.lowest
      = some ⟨.file p.opened r.outFile .wr, true⟩ := by
    rw [get_salida, if_pos rfl]
  refine ⟨_, hcall, rfl, ?_, ?_⟩
  · dsimp only
    rw [environ_dup2, environ_dup2]
    rfl
  · intro m
    dsimp only
    rw [get_dup2 hl, get_salida]
    by_cases hm : m = p.fds.lowest
    · subst hm
      by_cases h2 : p.fds.lowest = 2 <;> simp [h2]
    · by_cases h2 : m = 2
      · simp [h2, Ne.symm (h2 ▸ hm), (h2 ▸ hm : 2 ≠ p.fds.lowest)]
      · simp [h2, hm]

/-- `redir_error_salida` without a `'&'`: the error file is opened after the output. -/
theorem redirErrorSalida_file {r : Execcmd} (p : Proc) (ho : canOpen r.outFile .wr = true)
    (he : canOpen r.errFile .wr = true) (hamp : '&' ∉ r.errFile) :
    ∃ x l, redirErrorSalida canOpen r p = [x] ∧ x.argv = r.argv ∧ x.environ = p.environ ∧
      p.fds.lowest < l ∧ l ≠ 1 ∧
      ∀ m, x.fds.get m =
        if m = l then some ⟨.file (p.opened + 1) r.errFile .wr, true⟩
        else if m = 2 then some ⟨.file (p.opened + 1) r.errFile .wr, false⟩
        else if m = p.fds.lowest then some ⟨.file p.opened r.outFile .wr, true⟩
        else if m = 1 then some ⟨.file p.opened r.outFile .wr, false⟩
        else p.fds.get m := by
  have hb : (blockContains r.errFile '&').isSome = false :=
    Bool.eq_false_iff.mpr fun h => hamp (blockContains_isSome.mp h)
  let q := dup2 (p.withFile r.outFile .wr true) p.fds.lowest 1
  have hcall : redirErrorSalida canOpen r p
      = execvp (dup2 (q.withFile r.errFile .wr true) q.fds.lowest 2) r.argv := by
    simp only [redirErrorSalida, openRedirFd, openFile, ho, he, hb, if_true, Bool.false_eq_true,
      if_false]
    rfl
  have hopened : q.opened = p.opened + 1 := opened_dup2 _ _ _
  have hfree : q.fds.get q.fds.lowest = none := Slots.get_lowest _
  have hq : ∀ m, q.fds.get m = _ := get_salida p r.outFile
  have hne : q.fds.lowest ≠ p.fds.lowest := by
    intro heq
    rw [hq, if_pos heq] at hfree
    cases hfree
  have hne1 : q.fds.lowest ≠ 1 := by
    intro heq
    rw [hq, if_neg hne, if_pos heq] at hfree
    cases hfree
  have hlt : p.fds.lowest < q.fds.lowest := by
    rw [hq, if_neg hne, if_neg hne1] at hfree
    by_contra hle
    have hsome := Slots.isSome_of_lt_lowest (lt_of_le_of_ne (Nat.le_of_not_lt hle) hne)
    rw [hfree] at hsome
    cases hsome
  refine ⟨_, q.fds.lowest, hcall, rfl, ?_, hlt, hne1, ?_⟩
  · dsimp only
    rw [environ_dup2]
    exact environ_dup2 _ _ _
  · intro m
    dsimp only
    rw [get_dup2 (get_withFile_lowest q), get_withFile, hopened, hq]
    by_cases hm : m = q.fds.lowest
    · subst hm
      by_cases h2 : q.fds.lowest = 2 <;> simp [h2]
    · by_cases h2 : m = 2
      · simp [h2, Ne.symm (h2 ▸ hm), (h2 ▸ hm : 2 ≠ q.fds.lowest)]
      · simp [h2, hm]

end

/-! ## The commands that are honoured -/

/-- The assignments change nothing. -/
def AssignsNothing (eargv : List Str) (env : Environ) : Prop :=
  ∀ key value, assigned eargv key = some value → env key = some value

/-- The redirections of a command of type `REDIR` that `redir_command` performs: only the input,
only the output, or the output with the error.  A descriptor of 0, 1 and 2 that is closed
is taken by the file that is opened first. -/
def RedirsKept (e : Execcmd) (t : Slots Entry) : Prop :=
  (e.inFile ≠ [] ∧ e.outFile = [] ∧ e.errFile = [] ∧ (t.lowest = 0 ∨ 3 ≤ t.lowest)) ∨
  (e.inFile ≠ [] ∧ e.outFile = [] ∧ e.errFile = ['&', '1'] ∧ ErrIsOut t) ∨
  (e.inFile = [] ∧ e.outFile ≠ [] ∧ e.errFile = [] ∧ 3 ≤ t.lowest) ∨
  (e.inFile = [] ∧ e.outFile ≠ [] ∧ '&' ∈ e.errFile ∧
    (e.errFile = ['&', '1'] ∨ e.errFile = e.outFile) ∧ 3 ≤ t.lowest) ∨
  (e.inFile = [] ∧ e.outFile ≠ [] ∧ e.errFile ≠ [] ∧ '&' ∉ e.errFile ∧ 2 ≤ t.lowest)

/-- No descriptor of the table is open on a file that was named. -/
def AllInherited (t : Slots Entry) : Prop :=
  ∀ n e, t.get n = some e → ∃ id, e.chan = .inherited id

theorem allInherited_start (fds : Slots (Nat × Bool)) (env : Environ) :
    AllInherited (Proc.start fds env).fds := by
  intro n e h
  rw [Proc.start, Slots.get_mapVal] at h
  obtain ⟨a, _, rfl⟩ := Option.map_eq_some_iff.mp h
  exact ⟨_, rfl⟩

theorem not_openOn_of_inherited {t t' : Slots Entry} (hi : AllInherited t) {n : Nat}
    (h : t'.get n = t.get n) (name : Str) (mode : Mode) : ¬ OpenOn t' n name mode := by
  rintro ⟨id, hid⟩
  rw [h] at hid
  obtain ⟨_, hc⟩ := hi n _ hid
  cases hc

theorem openOn_iff {t : Slots Entry} {n id : Nat} {name file : Str} {mode mode' : Mode}
    {cloexec : Bool} (h : t.get n = some ⟨.file id file mode', cloexec⟩) :
    OpenOn t n name mode ↔ file = name ∧ mode' = mode ∧ cloexec = false := by
  constructor
  · rintro ⟨id', hid⟩
    rw [h] at hid
    cases hid
    exact ⟨rfl, rfl, rfl⟩
  · rintro ⟨rfl, rfl, rfl⟩
    exact ⟨id, h⟩

theorem redirected_iff (e : Execcmd) (t t' : Slots Entry) :
    Redirected e t t' ↔
      (if e.inFile = [] then t'.get 0 = t.get 0 else OpenOn t' 0 e.inFile .rd) ∧
      (if e.outFile = [] then t'.get 1 = t.get 1 else OpenOn t' 1 e.outFile .wr) ∧
      (if e.errFile = [] then t'.get 2 = t.get 2
        else if e.errFile = ['&', '1'] then ErrIsOut t' else OpenOn t' 2 e.errFile .wr) :=
  ⟨fun h => ⟨h.input, h.output, h.error⟩, fun h => ⟨h.1, h.2.1, h.2.2⟩⟩

/-- A slot that got a file is not as before when it was free. -/
theorem get_ne_of_eq_lowest {t : Slots Entry} {n : Nat} (h : n = t.lowest) (a : Entry) :
    ¬ some a = t.get n := by
  rw [h, Slots.get_lowest]
  intro hc
  cases hc

theorem three_le_iff (l : Nat) : 3 ≤ l ↔ 0 ≠ l ∧ 1 ≠ l ∧ 2 ≠ l := by omega

theorem redirected_entrada {e : Execcmd} {t t' : Slots Entry} (hi : AllInherited t) {id : Nat}
    (hin : e.inFile ≠ []) (hout : e.outFile = [])
    (htab : ∀ m, t'.get m =
      if m = 0 ∨ m = t.lowest then some ⟨.file id e.inFile .rd, false⟩ else t.get m) :
    Redirected e t t' ↔ RedirsKept e t := by
  have h0 := htab 0
  have h1 := htab 1
  have h2 := htab 2
  simp only [true_or, if_true] at h0
  have hin0 : OpenOn t' 0 e.inFile .rd := ⟨id, h0⟩
  have hopen : ∀ n, ErrIsOut t → n = 1 ∨ n = 2 → n ≠ t.lowest := by
    rintro n ⟨a, ha1, ha2⟩ (rfl | rfl) heq
    · rw [heq, Slots.get_lowest] at ha1
      cases ha1
    · rw [heq, Slots.get_lowest] at ha2
      cases ha2
  have hkept : RedirsKept e t ↔
      (e.errFile = [] ∧ (t.lowest = 0 ∨ 3 ≤ t.lowest)) ∨
        (e.errFile = ['&', '1'] ∧ ErrIsOut t) := by
    simp [RedirsKept, hin, hout]
  rw [redirected_iff, hkept, if_neg hin, if_pos hout]
  by_cases hl1 : 1 = t.lowest
  · refine iff_of_false ?_ ?_
    · rintro ⟨_, hc, _⟩
      rw [h1, if_pos (Or.inr hl1)] at hc
      exact get_ne_of_eq_lowest hl1 _ hc
    · rintro (⟨_, hl⟩ | ⟨_, hee⟩)
      · omega
      · exact hopen 1 hee (Or.inl rfl) hl1
  · rw [if_neg (by omega)] at h1
    by_cases hl2 : 2 = t.lowest
    · rw [if_pos (Or.inr hl2)] at h2
      refine iff_of_false ?_ ?_
      · rintro ⟨_, _, hc⟩
        split at hc
        · rw [h2] at hc
          exact get_ne_of_eq_lowest hl2 _ hc
        · split at hc
          · obtain ⟨⟨chan, _⟩, ha1, ha2⟩ := hc
            rw [h1] at ha1
            rw [h2] at ha2
            obtain ⟨_, hia⟩ := hi 1 _ ha1
            cases ha2
            cases hia
          · cases ((openOn_iff h2).mp hc).2.1
      · rintro (⟨_, hl⟩ | ⟨_, hee⟩)
        · omega
        · exact hopen 2 hee (Or.inr rfl) hl2
    · rw [if_neg (by omega)] at h2
      have hee : ErrIsOut t' ↔ ErrIsOut t := by
        unfold ErrIsOut
        rw [h1, h2]
      have hno := not_openOn_of_inherited hi h2 e.errFile .wr
      by_cases herr : e.errFile = []
      · simp only [herr, if_true, h1, h2, hin0, true_and, true_iff]
        exact Or.inl (by omega)
      · by_cases hamp : e.errFile = ['&', '1']
        · simp [hamp, h1, hin0, hee]
        · simp [herr, hamp, hno]

/-- With the output redirected, the input must be as before. -/
theorem input_salida {e : Execcmd} {t t' : Slots Entry} (hi : AllInherited t) {id : Nat}
    {cloexec : Bool} (h0 : t'.get 0 = if 0 = t.lowest
      then some ⟨.file id e.outFile .wr, cloexec⟩ else t.get 0) :
    (if e.inFile = [] then t'.get 0 = t.get 0 else OpenOn t' 0 e.inFile .rd) ↔
      e.inFile = [] ∧ 0 ≠ t.lowest := by
  by_cases hl : 0 = t.lowest
  · rw [if_pos hl] at h0
    refine iff_of_false ?_ (fun h => h.2 hl)
    intro hc
    split at hc
    · rw [h0] at hc
      exact get_ne_of_eq_lowest hl _ hc
    · cases ((openOn_iff h0).mp hc).2.1
  · rw [if_neg hl] at h0
    by_cases hin : e.inFile = []
    · simp [hin, h0, hl]
    · simp [hin, not_openOn_of_inherited hi h0]

/-- With the output redirected, descriptor 1 survives `execvp` unless the file was opened there. -/
theorem output_salida {e : Execcmd} {t t' : Slots Entry} {id : Nat} (hout : e.outFile ≠ [])
    (h1 : t'.get 1 = if 1 = t.lowest then some ⟨.file id e.outFile .wr, true⟩
      else some ⟨.file id e.outFile .wr, false⟩) :
    (if e.outFile = [] then t'.get 1 = t.get 1 else OpenOn t' 1 e.outFile .wr) ↔
      1 ≠ t.lowest := by
  rw [if_neg hout]
  by_cases hl : 1 = t.lowest
  · rw [if_pos hl] at h1
    rw [openOn_iff h1]
    simp [hl]
  · rw [if_neg hl] at h1
    rw [openOn_iff h1]
    simp [hl]

theorem redirected_salida {e : Execcmd} {t t' : Slots Entry} (hi : AllInherited t) {id : Nat}
    (hout : e.outFile ≠ []) (herr : e.errFile = [])
    (htab : ∀ m, t'.get m = if m = t.lowest then some ⟨.file id e.outFile .wr, true⟩
      else if m = 1 then some ⟨.file id e.outFile .wr, false⟩ else t.get m) :
    Redirected e t t' ↔ RedirsKept e t := by
  have h2 := htab 2
  have herr2 : t'.get 2 = t.get 2 ↔ 2 ≠ t.lowest := by
    by_cases hl : 2 = t.lowest
    · rw [h2, if_pos hl]
      exact iff_of_false (get_ne_of_eq_lowest hl _) (fun h => h hl)
    · rw [h2, if_neg hl]
      exact iff_of_true rfl hl
  have hkept : RedirsKept e t ↔ e.inFile = [] ∧ 3 ≤ t.lowest := by
    simp [RedirsKept, hout, herr]
  rw [redirected_iff, hkept, input_salida hi (htab 0), output_salida hout (htab 1), if_pos herr,
    herr2, three_le_iff, and_assoc]

theorem redirected_amp {e : Execcmd} {t t' : Slots Entry} (hi : AllInherited t) {id : Nat}
    (hout : e.outFile ≠ []) (hamp : '&' ∈ e.errFile)
    (htab : ∀ m, t'.get m = if m = t.lowest then some ⟨.file id e.outFile .wr, true⟩
      else if m = 1 ∨ m = 2 then some ⟨.file id e.outFile .wr, false⟩ else t.get m) :
    Redirected e t t' ↔ RedirsKept e t := by
  have herr : e.errFile ≠ [] := List.ne_nil_of_mem hamp
  have h1 := htab 1
  have h2 := htab 2
  have hkept : RedirsKept e t ↔ e.inFile = [] ∧
      (e.errFile = ['&', '1'] ∨ e.errFile = e.outFile) ∧ 3 ≤ t.lowest := by
    simp [RedirsKept, hout, herr, hamp]
  rw [redirected_iff, hkept, input_salida hi (htab 0), output_salida hout h1, if_neg herr]
  by_cases hl2 : 2 = t.lowest
  · rw [if_pos hl2] at h2
    refine iff_of_false ?_ (by omega)
    rintro ⟨_, hl1, hc⟩
    split at hc
    · obtain ⟨⟨chan, _⟩, ha1, ha2⟩ := hc
      rw [h2] at ha2
      cases ha2
    · cases ((openOn_iff h2).mp hc).2.2
  · rw [if_neg hl2, if_pos (Or.inr rfl)] at h2
    have hname : OpenOn t' 2 e.errFile .wr ↔ e.errFile = e.outFile := by
      rw [openOn_iff h2]
      simp [eq_comm]
    by_cases hl1 : 1 = t.lowest
    · exact iff_of_false (fun h => h.2.1 hl1) (by omega)
    · rw [if_neg hl1, if_pos (Or.inl rfl)] at h1
      have hcopy : ErrIsOut t' := ⟨_, h1, h2⟩
      rw [three_le_iff]
      by_cases h11 : e.errFile = ['&', '1']
      · simp [h11, hcopy, hl1, hl2]
      · simp only [h11, if_false, hname, false_or]
        constructor
        · rintro ⟨⟨hin, hl0⟩, _, hname⟩
          exact ⟨hin, hname, hl0, hl1, hl2⟩
        · rintro ⟨hin, hname, hl0, _, _⟩
          exact ⟨⟨hin, hl0⟩, hl1, hname⟩

theorem redirected_file {e : Execcmd} {t t' : Slots Entry} (hi : AllInherited t) {id id' l : Nat}
    (hout : e.outFile ≠ []) (herr : e.errFile ≠ []) (hamp : '&' ∉ e.errFile)
    (hlt : t.lowest < l) (hl : l ≠ 1)
    (htab : ∀ m, t'.get m = if m = l then some ⟨.file id' e.errFile .wr, true⟩
      else if m = 2 then some ⟨.file id' e.errFile .wr, false⟩
      else if m = t.lowest then some ⟨.file id e.outFile .wr, true⟩
      else if m = 1 then some ⟨.file id e.outFile .wr, false⟩ else t.get m) :
    Redirected e t t' ↔ RedirsKept e t := by
  have h0 := htab 0
  have h1 := htab 1
  have h2 := htab 2
  rw [if_neg (by omega), if_neg (by omega)] at h0
  rw [if_neg (by omega), if_neg (by omega)] at h1
  have hkept : RedirsKept e t ↔ e.inFile = [] ∧ 2 ≤ t.lowest := by
    simp [RedirsKept, hout, herr, hamp]
  have h11 : e.errFile ≠ ['&', '1'] := by
    intro h
    rw [h] at hamp
    exact hamp List.mem_cons_self
  rw [redirected_iff, hkept, input_salida hi h0, output_salida hout h1, if_neg herr, if_neg h11]
  by_cases hl2 : 2 = l
  · rw [if_pos hl2] at h2
    rw [openOn_iff h2]
    refine iff_of_false ?_ ?_
    · rintro ⟨_, _, _, _, hc⟩
      cases hc
    · rintro ⟨_, hc⟩
      omega
  · rw [if_neg hl2, if_pos rfl] at h2
    rw [openOn_iff h2]
    simp only [and_true, and_assoc]
    refine and_congr_right fun _ => ?_
    omega

section

variable {canOpen : Str → Mode → Bool}

/-- A call made with the environment of the process. -/
theorem honours_iff_of_call {e : Execcmd} {p : Proc} {x : Execvp} (hargv : x.argv = e.argv)
    (henv : x.environ = p.environ) :
    Honours e p x ↔ AssignsNothing e.eargv p.environ ∧ Redirected e p.fds x.fds := by
  have hassign : (∀ key, x.environ key = (assigned e.eargv key).or (p.environ key)) ↔
      AssignsNothing e.eargv p.environ := by
    rw [henv]
    refine forall_congr' fun key => ?_
    cases ha : assigned e.eargv key with
    | none => simp
    | some value => simp [eq_comm]
  rw [← hassign]
  exact ⟨fun h => ⟨h.environ, h.fds⟩, fun h => ⟨hargv, h.1, h.2⟩⟩

/-- `redir_command` honours a command exactly when the assignments change nothing and the
redirections are among the ones it performs. -/
theorem redirCommand_iff {e : Execcmd} {p : Proc} (hi : AllInherited p.fds)
    (ho : FilesOpen canOpen e) :
    (∃ x, redirCommand canOpen e p = [x] ∧ Honours e p x) ↔
      AssignsNothing e.eargv p.environ ∧ RedirsKept e p.fds := by
  have hcall : ∀ {x : Execvp}, redirCommand canOpen e p = [x] → x.argv = e.argv →
      x.environ = p.environ → (Redirected e p.fds x.fds ↔ RedirsKept e p.fds) →
      ((∃ x, redirCommand canOpen e p = [x] ∧ Honours e p x) ↔
        AssignsNothing e.eargv p.environ ∧ RedirsKept e p.fds) := by
    intro x hx hargv henv hfds
    rw [← hfds, ← honours_iff_of_call hargv henv, hx]
    constructor
    · rintro ⟨y, hy, hh⟩
      cases hy
      exact hh
    · exact fun hh => ⟨x, rfl, hh⟩
  by_cases hout : e.outFile = []
  · by_cases hin : e.inFile = []
    · have hnone : redirCommand canOpen e p = [] := by simp [redirCommand, hout, hin]
      rw [hnone]
      refine iff_of_false (by simp) ?_
      rintro ⟨_, hkept⟩
      simp [RedirsKept, hout, hin] at hkept
    · have heq : redirCommand canOpen e p = redirEntrada canOpen e p := by
        simp [redirCommand, hout, List.length_pos_iff, hin]
      obtain ⟨x, hx, hargv, henv, htab⟩ := redirEntrada_eq (r := e) p (ho.input hin)
      exact hcall (heq.trans hx) hargv henv (redirected_entrada hi hin hout htab)
  · have hwr := ho.output hout
    by_cases herr : e.errFile = []
    · have heq : redirCommand canOpen e p = redirSalida canOpen e p := by
        simp [redirCommand, herr, List.length_pos_iff, hout]
      obtain ⟨x, hx, hargv, henv, htab⟩ := redirSalida_eq (r := e) p hwr
      exact hcall (heq.trans hx) hargv henv (redirected_salida hi hout herr htab)
    · have heq : redirCommand canOpen e p = redirErrorSalida canOpen e p := by
        simp [redirCommand, List.length_pos_iff, herr, hout]
      by_cases hamp : '&' ∈ e.errFile
      · obtain ⟨x, hx, hargv, henv, htab⟩ := redirErrorSalida_amp (r := e) p hwr hamp
        exact hcall (heq.trans hx) hargv henv (redirected_amp hi hout hamp htab)
      · have h11 : e.errFile ≠ ['&', '1'] := by
          intro h
          rw [h] at hamp
          exact hamp List.mem_cons_self
        obtain ⟨x, l, hx, hargv, henv, hlt, hl, htab⟩ :=
          redirErrorSalida_file (r := e) p hwr (ho.error herr h11) hamp
        exact hcall (heq.trans hx) hargv henv (redirected_file hi hout herr hamp hlt hl htab)

/-- Every command `parse_exec` makes, in a process with any descriptors and any environment, with
files that can be opened: `exec_cmd` calls `execvp` once and with everything that was parsed
exactly when the command has no redirection, or has assignments that change nothing and
redirections that `redir_command` performs. -/
theorem honours_iff {v : Vars} {bufCmd : Str} {e : Execcmd} (h : parseExec v bufCmd = some e)
    (ho : FilesOpen canOpen e) (fds : Slots (Nat × Bool)) (env : Environ) :
    (∃ x, execCmd canOpen e (.start fds env) = [x] ∧ Honours e (.start fds env) x) ↔
      e.type = .EXEC ∨ e.type = .REDIR ∧ AssignsNothing e.eargv env ∧
        RedirsKept e (Proc.start fds env).fds := by
  have hp := parsed_parseExec h
  cases hp.type with
  | inl hexec =>
    obtain ⟨htype, hin, hout, herr⟩ := hexec
    refine iff_of_true ?_ (Or.inl htype)
    refine ⟨⟨e.argv, setEnvironVars env e.eargv, (Proc.start fds env).fds⟩, ?_, rfl, ?_, ?_⟩
    · simp only [execCmd, htype, execCommand, execvp]
      rfl
    · exact setEnvironVars_apply e.eargv hp.eargv env
    · rw [redirected_iff, if_pos hin, if_pos hout, if_pos herr]
      exact ⟨rfl, rfl, rfl⟩
  | inr hredir =>
    have hcmd : execCmd canOpen e (.start fds env) = redirCommand canOpen e (.start fds env) := by
      simp only [execCmd, hredir]
    rw [hcmd, redirCommand_iff (allInherited_start fds env) ho, hredir]
    simp [Proc.start]

end

/-- Descriptors 0, 1 and 2 open on the terminal. -/
def stdio : Slots (Nat × Bool) := [some (0, false), some (0, false), some (0, false)]

/-- `wc <in`. -/
theorem honours_wc :
    ∃ e, parseExec ⟨fun _ => none, 0⟩ "wc <in".toList = some e ∧
      ∃ x, execCmd (fun _ _ => true) e (.start stdio fun _ => none) = [x] ∧
        Honours e (.start stdio fun _ => none) x := by
  have hloop : parseTokens ⟨fun _ => none, 0⟩
      ⟨.EXEC, "wc <in".toList, [], [], [], [], []⟩ "wc <in".toList = some
        ⟨.REDIR, "wc <in".toList, ["wc".toList], [], [], "in".toList, []⟩ :=
    (parseTokens_of_ne _ _ (by decide)).trans
      ((parseTokens_of_ne _ ⟨.EXEC, "wc <in".toList, ["wc".toList], [], [], [], []⟩
        (show "<in".toList ≠ [] by decide)).trans (parseTokens_nil _ _))
  have hparse := parseExec_of_parseTokens (by decide) hloop (by decide)
  refine ⟨_, hparse, (honours_iff hparse ⟨fun _ => rfl, fun _ => rfl, fun _ _ => rfl⟩ stdio
    fun _ => none).mpr (Or.inr ⟨rfl, ?_, Or.inl ?_⟩)⟩
  · intro key value h
    cases h
  · decide

/-- `sort <in >out`: the input is not redirected. -/
theorem not_honours_in_out :
    ∃ e, parseExec ⟨fun _ => none, 0⟩ "sort <in >out".toList = some e ∧
      FilesOpen (fun _ _ => true) e ∧
      ¬ ∃ x, execCmd (fun _ _ => true) e (.start stdio fun _ => none) = [x] ∧
        Honours e (.start stdio fun _ => none) x := by
  have hloop : parseTokens ⟨fun _ => none, 0⟩
      ⟨.EXEC, "sort <in >out".toList, [], [], [], [], []⟩ "sort <in >out".toList = some
        ⟨.REDIR, "sort <in >out".toList, ["sort".toList], [], "out".toList, "in".toList, []⟩ :=
    (parseTokens_of_ne _ _ (by decide)).trans
      ((parseTokens_of_ne _ ⟨.EXEC, "sort <in >out".toList, ["sort".toList], [], [], [], []⟩
        (show "<in >out".toList ≠ [] by decide)).trans
        ((parseTokens_of_ne _
          ⟨.REDIR, "sort <in >out".toList, ["sort".toList], [], [], "in".toList, []⟩
          (show ">out".toList ≠ [] by decide)).trans (parseTokens_nil _ _)))
  have ho : FilesOpen (fun _ _ => true)
      ⟨.REDIR, "sort <in >out".toList, ["sort".toList], [], "out".toList, "in".toList, []⟩ :=
    ⟨fun _ => rfl, fun _ => rfl, fun _ _ => rfl⟩
  refine ⟨_, parseExec_of_parseTokens (by decide) hloop (by decide), ho, ?_⟩
  intro hx
  have hkept := ((redirCommand_iff (allInherited_start stdio fun _ => none) ho).mp hx).2
  simp [RedirsKept] at hkept

end SisOp.Shell
