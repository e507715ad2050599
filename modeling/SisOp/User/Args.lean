/-
# `SisOp.User.Args` — argument parsing in the JOS user library

`argstart`, `argnext`, `argvalue` and `argnextvalue` (`lib/args.c`), and the loop of
`inc/args.h` that calls them.  The functions consume the `argv` array in place, one
shift at a time; `options` is what they compute, on the list of the arguments, and
`flags_options` says that the loop agrees with it on every command line.  Read the other
way, a command line made of flags, values and operands is parsed back into them
(`flags_render`).
-/
import SisOp.User.Gettoken
import Mathlib.Algebra.BigOperators.Group.List.Basic

namespace SisOp.User

open SisOp.Jos (Byte)

/-! ## The code -/

/-- `'-'`. -/
def DASH : Byte := 0x2D

/-- `struct Argstate`, with what its pointers point at; an argument past the last one is null. -/
structure Argstate where
  argc : Nat
  argv : Nat → Option Text
  curarg : Option Text
  argvalue : Option Text

/-- `argstart(&argc, argv, args)`. -/
def argstart (argc : Nat) (argv : Nat → Option Text) : Argstate where
  argc := argc
  argv := argv
  curarg := if argc > 1 then some [] else none
  argvalue := none

/-- `memmove(argv + 1, argv + 2, sizeof(const char *) * (argc - 1))`, and `argc--`. -/
def Argstate.shift (a : Argstate) : Argstate :=
  { a with
    argc := a.argc - 1
    argv := fun i => if 1 ≤ i ∧ i < a.argc then a.argv (i + 1) else a.argv i }

/-- `argnext(args)`: no result where a null argument is read, `none` for -1. -/
def argnext (a : Argstate) : Option (Option Byte × Argstate) :=
  match a.curarg with
  | none => some (none, { a with argvalue := none })
  | some (c :: cs) => some (some c, { a with argvalue := none, curarg := some cs })
  | some [] =>
    let endofargs (a : Argstate) := some (none, { a with argvalue := none, curarg := none })
    if a.argc = 1 then endofargs a
    else match a.argv 1 with
      | none => none
      | some arg =>
        if charAt arg 0 ≠ DASH ∨ charAt arg 1 = 0 then endofargs a
        else if charAt arg 1 = DASH ∧ charAt arg 2 = 0 then endofargs a.shift
        else some (some (charAt arg 1), { a.shift with argvalue := none, curarg := some (arg.drop 2) })

/-- `argnextvalue(args)`. -/
def argnextvalue (a : Argstate) : Option Text × Argstate :=
  match a.curarg with
  | none => (none, a)
  | some (c :: cs) => (some (c :: cs), { a with argvalue := some (c :: cs), curarg := some [] })
  | some [] =>
    if a.argc > 1 then (a.argv 1, { a.shift with argvalue := a.argv 1 })
    else (none, { a with argvalue := none, curarg := none })

/-- `argvalue(args)`. -/
def argvalue (a : Argstate) : Option Text × Argstate :=
  match a.argvalue with
  | some v => (some v, a)
  | none => argnextvalue a

/-- `while ((i = argnext(&args)) >= 0)`, at most `n` turns, asking for the value of the flags
that `takes` one. -/
def flags (takes : Byte → Bool) : Nat → Argstate → Option (List (Byte × Option Text) × Argstate)
  | 0, _ => none
  | n + 1, a =>
    match argnext a with
    | none => none
    | some (none, a') => some ([], a')
    | some (some c, a') =>
      let r := if takes c then argvalue a' else (none, a')
      (flags takes n r.2).map fun (fs, a'') => ((c, r.1) :: fs, a'')

/-! ## What it computes -/

/-- The bytes of the arguments. -/
def weight (cur : Text) (rest : List Text) : Nat := cur.length + (rest.map List.length).sum

/-- The flags, with the values of those that take one, and the operands: `cur` is what is
left of the argument being read. -/
def options (takes : Byte → Bool) (cur : Text) (rest : List Text) :
    List (Byte × Option Text) × List Text :=
  match cur, rest with
  | c :: cs, rest =>
    if takes c then
      match cs, rest with
      | d :: ds, rest => ((options takes [] rest).map ((c, some (d :: ds)) :: ·) id)
      | [], v :: rest => (options takes [] rest).map ((c, some v) :: ·) id
      | [], [] => ([(c, none)], [])
    else (options takes cs rest).map ((c, none) :: ·) id
  | [], [] => ([], [])
  | [], arg :: rest =>
    match arg with
    | a :: b :: bs =>
      if a ≠ DASH then ([], arg :: rest)
      else if b = DASH ∧ bs = [] then ([], rest)
      else options takes (b :: bs) rest
    | _ => ([], arg :: rest)
termination_by weight cur rest
decreasing_by all_goals simp [weight] <;> omega

/-- `a` is in the argument of which `cur` is left, with the arguments `rest` behind it. -/
structure Reading (a : Argstate) (cur : Text) (rest : List Text) : Prop where
  curarg : a.curarg = some cur
  argc : a.argc = rest.length + 1
  argv : ∀ i ≤ rest.length, a.argv (i + 1) = rest[i]?

/-- `a` has stopped, with the operands `rest` left in `argv`. -/
structure Done (a : Argstate) (rest : List Text) : Prop where
  curarg : a.curarg = none
  argc : a.argc = rest.length + 1
  argv : ∀ i ≤ rest.length, a.argv (i + 1) = rest[i]?

theorem shift_argv {a : Argstate} {arg : Text} {rest : List Text} (hargc : a.argc = (arg :: rest).length + 1)
    (hargv : ∀ i ≤ (arg :: rest).length, a.argv (i + 1) = (arg :: rest)[i]?) :
    a.shift.argc = rest.length + 1 ∧ ∀ i ≤ rest.length, a.shift.argv (i + 1) = rest[i]? := by
  rw [List.length_cons] at hargc
  refine ⟨by simp only [Argstate.shift]; omega, fun i hi => ?_⟩
  have hin : 1 ≤ i + 1 ∧ i + 1 < a.argc := by omega
  simp only [Argstate.shift, if_pos hin]
  rw [hargv (i + 1) (by rw [List.length_cons]; omega), List.getElem?_cons_succ]

theorem charAt_cons_zero (b : Byte) (t : Text) : charAt (b :: t) 0 = b := rfl

theorem charAt_cons_succ (b : Byte) (t : Text) (i : Nat) : charAt (b :: t) (i + 1) = charAt t i := rfl

theorem charAt_zero_eq {t : Text} (h : ∀ b ∈ t, b ≠ 0) : charAt t 0 = 0 ↔ t = [] := by
  cases t with
  | nil => exact iff_of_true rfl rfl
  | cons b t => exact iff_of_false (h b List.mem_cons_self) (List.cons_ne_nil b t)

section

variable {takes : Byte → Bool} {a : Argstate} {cur : Text} {rest : List Text}

/-! ## One call -/

theorem Reading.argnext_cons {c : Byte} {cs : Text} (h : Reading a (c :: cs) rest) :
    ∃ a', argnext a = some (some c, a') ∧ a'.argvalue = none ∧ Reading a' cs rest :=
  ⟨{ a with argvalue := none, curarg := some cs }, by simp only [argnext, h.curarg], rfl, rfl, h.argc, h.argv⟩

theorem Reading.argnext_last (h : Reading a [] []) :
    ∃ a', argnext a = some (none, a') ∧ Done a' [] :=
  ⟨{ a with argvalue := none, curarg := none }, by
    simp only [argnext, h.curarg, h.argc, List.length_nil, Nat.zero_add, if_pos], rfl, h.argc, h.argv⟩

/-- The next argument is not one of flags. -/
theorem Reading.argnext_operand {arg : Text} (h : Reading a [] (arg :: rest))
    (harg : charAt arg 0 ≠ DASH ∨ charAt arg 1 = 0) :
    ∃ a', argnext a = some (none, a') ∧ Done a' (arg :: rest) := by
  have hargc : a.argc ≠ 1 := by rw [h.argc, List.length_cons]; omega
  have hnext : a.argv 1 = some arg := h.argv 0 (Nat.zero_le _)
  exact ⟨{ a with argvalue := none, curarg := none }, by
    simp only [argnext, h.curarg, if_neg hargc, hnext, if_pos harg], rfl, h.argc, h.argv⟩

/-- The next argument is `--`. -/
theorem Reading.argnext_dashes (h : Reading a [] ([DASH, DASH] :: rest)) :
    ∃ a', argnext a = some (none, a') ∧ Done a' rest := by
  have hargc : a.argc ≠ 1 := by rw [h.argc, List.length_cons]; omega
  have hnext : a.argv 1 = some [DASH, DASH] := h.argv 0 (Nat.zero_le _)
  have hflag : ¬ (charAt [DASH, DASH] 0 ≠ DASH ∨ charAt [DASH, DASH] 1 = 0) := by decide
  have hend : charAt [DASH, DASH] 1 = DASH ∧ charAt [DASH, DASH] 2 = 0 := by decide
  obtain ⟨hc, hv⟩ := shift_argv h.argc h.argv
  exact ⟨{ a.shift with argvalue := none, curarg := none }, by
    simp only [argnext, h.curarg, if_neg hargc, hnext, if_neg hflag, if_pos hend], rfl, hc, hv⟩

/-- The next argument is one of flags: the call reads it as if it were in it already. -/
theorem Reading.argnext_flags {b : Byte} {bs : Text} (h : Reading a [] ((DASH :: b :: bs) :: rest))
    (hb : b ≠ 0) (hbs : ∀ x ∈ bs, x ≠ 0) (hend : ¬ (b = DASH ∧ bs = [])) :
    ∃ a', argnext a = argnext a' ∧ Reading a' (b :: bs) rest := by
  have hargc : a.argc ≠ 1 := by rw [h.argc, List.length_cons]; omega
  have hnext : a.argv 1 = some (DASH :: b :: bs) := h.argv 0 (Nat.zero_le _)
  have hflag : ¬ (charAt (DASH :: b :: bs) 0 ≠ DASH ∨ charAt (DASH :: b :: bs) 1 = 0) := by
    rw [charAt_cons_zero, charAt_cons_succ, charAt_cons_zero]
    exact fun hor => hor.elim (fun hne => hne rfl) hb
  have hend' : ¬ (charAt (DASH :: b :: bs) 1 = DASH ∧ charAt (DASH :: b :: bs) 2 = 0) := by
    rwa [charAt_cons_succ, charAt_cons_succ, charAt_cons_zero, charAt_cons_succ, charAt_zero_eq hbs]
  obtain ⟨hc, hv⟩ := shift_argv h.argc h.argv
  exact ⟨{ a.shift with curarg := some (b :: bs) }, by
    simp only [argnext, h.curarg, if_neg hargc, hnext, if_neg hflag, if_neg hend']
    rfl, rfl, hc, hv⟩

theorem Reading.argvalue_cons {c : Byte} {cs : Text} (h : Reading a (c :: cs) rest)
    (hv : a.argvalue = none) :
    ∃ a', argvalue a = (some (c :: cs), a') ∧ Reading a' [] rest :=
  ⟨{ a with argvalue := some (c :: cs), curarg := some [] }, by
    simp only [argvalue, hv, argnextvalue, h.curarg], rfl, h.argc, h.argv⟩

theorem Reading.argvalue_next {v : Text} (h : Reading a [] (v :: rest)) (hv : a.argvalue = none) :
    ∃ a', argvalue a = (some v, a') ∧ Reading a' [] rest := by
  have hargc : a.argc > 1 := by rw [h.argc, List.length_cons]; omega
  have hnext : a.argv 1 = some v := h.argv 0 (Nat.zero_le _)
  obtain ⟨hc, hs⟩ := shift_argv h.argc h.argv
  exact ⟨{ a.shift with argvalue := some v }, by
    simp only [argvalue, hv, argnextvalue, h.curarg, if_pos hargc, hnext], h.curarg, hc, hs⟩

theorem Reading.argvalue_none (h : Reading a [] []) (hv : a.argvalue = none) :
    ∃ a', argvalue a = (none, a') ∧ Done a' [] := by
  have hargc : ¬ a.argc > 1 := by rw [h.argc]; simp
  exact ⟨{ a with argvalue := none, curarg := none }, by
    simp only [argvalue, hv, argnextvalue, h.curarg, if_neg hargc], rfl, h.argc, h.argv⟩

theorem Done.argnext (h : Done a rest) : ∃ a', argnext a = some (none, a') ∧ Done a' rest :=
  ⟨{ a with argvalue := none }, by simp only [User.argnext, h.curarg], h.curarg, h.argc, h.argv⟩

/-! ## The loop -/

/-- No string has a NUL in it. -/
def NulFree (rest : List Text) : Prop := ∀ arg ∈ rest, ∀ b ∈ arg, b ≠ 0

instance : DecidablePred NulFree := fun rest =>
  inferInstanceAs (Decidable (∀ arg ∈ rest, ∀ b ∈ arg, b ≠ 0))

theorem flags_congr {a' : Argstate} (h : argnext a = argnext a') (n : Nat) :
    flags takes n a = flags takes n a' := by
  cases n with
  | zero => rfl
  | succ n => rw [flags, flags, h]

theorem flags_stop {n : Nat} {ops : List Text} (hn : 0 < n)
    (h : ∃ a', argnext a = some (none, a') ∧ Done a' ops) :
    ∃ a', flags takes n a = some ([], a') ∧ Done a' ops := by
  obtain ⟨n, rfl⟩ := Nat.exists_eq_add_one_of_ne_zero hn.ne'
  obtain ⟨a', hnext, hdone⟩ := h
  exact ⟨a', by rw [flags, hnext], hdone⟩

/-- One turn of the loop, for a flag that leads to `a''` with the value `v`. -/
theorem flags_turn {n : Nat} {c : Byte} {v : Option Text} {a' a'' : Argstate}
    {r : List (Byte × Option Text) × List Text} (hnext : argnext a = some (some c, a'))
    (hval : (if takes c then argvalue a' else (none, a')) = (v, a''))
    (h : ∃ b, flags takes n a'' = some (r.1, b) ∧ Done b r.2) :
    ∃ b, flags takes (n + 1) a = some ((c, v) :: r.1, b) ∧ Done b r.2 := by
  obtain ⟨b, hrun, hdone⟩ := h
  refine ⟨b, ?_, hdone⟩
  rw [flags, hnext]
  simp only [hval, hrun, Option.map_some]

/-- The loop returns the flags and leaves the operands in `argv`. -/
theorem Reading.flags_eq (hcur : ∀ b ∈ cur, b ≠ 0) (hrest : NulFree rest) (h : Reading a cur rest) {n : Nat}
    (hn : weight cur rest < n) :
    ∃ a', flags takes n a = some ((options takes cur rest).1, a') ∧ Done a' (options takes cur rest).2 := by
  induction cur, rest using options.induct takes generalizing a n with
  | case1 c htakes d ds rest ih =>
    obtain ⟨a', hnext, hval, h'⟩ := h.argnext_cons
    obtain ⟨a'', hvalue, h''⟩ := h'.argvalue_cons hval
    obtain ⟨n, rfl⟩ := Nat.exists_eq_add_one_of_ne_zero (Nat.ne_zero_of_lt hn)
    rw [options, if_pos htakes]
    refine flags_turn hnext (by rw [if_pos htakes, hvalue]) (ih (by simp) hrest h'' ?_)
    simp [weight] at hn ⊢
    omega
  | case2 c htakes v rest ih =>
    obtain ⟨a', hnext, hval, h'⟩ := h.argnext_cons
    obtain ⟨a'', hvalue, h''⟩ := h'.argvalue_next hval
    obtain ⟨n, rfl⟩ := Nat.exists_eq_add_one_of_ne_zero (Nat.ne_zero_of_lt hn)
    rw [options, if_pos htakes]
    refine flags_turn hnext (by rw [if_pos htakes, hvalue])
      (ih (by simp) (fun arg harg => hrest arg (List.mem_cons_of_mem _ harg)) h'' ?_)
    simp [weight] at hn ⊢
    omega
  | case3 c htakes =>
    obtain ⟨a', hnext, hval, h'⟩ := h.argnext_cons
    obtain ⟨a'', hvalue, h''⟩ := h'.argvalue_none hval
    obtain ⟨n, rfl⟩ := Nat.exists_eq_add_one_of_ne_zero (Nat.ne_zero_of_lt hn)
    rw [options, if_pos htakes]
    refine flags_turn hnext (r := ([], [])) (by rw [if_pos htakes, hvalue])
      (flags_stop ?_ h''.argnext)
    simp [weight] at hn
    omega
  | case4 rest c cs htakes ih =>
    obtain ⟨a', hnext, -, h'⟩ := h.argnext_cons
    obtain ⟨n, rfl⟩ := Nat.exists_eq_add_one_of_ne_zero (Nat.ne_zero_of_lt hn)
    rw [options.eq_def]
    simp only [if_neg htakes]
    refine flags_turn hnext (by rw [if_neg htakes])
      (ih (fun b hb => hcur b (List.mem_cons_of_mem _ hb)) hrest h' ?_)
    simp [weight] at hn ⊢
    omega
  | case5 =>
    simp only [options]
    exact flags_stop (by omega) h.argnext_last
  | case6 rest b c bs hb =>
    rw [options, if_pos hb]
    exact flags_stop (by omega) (h.argnext_operand (.inl hb))
  | case7 rest b c bs hb hend =>
    obtain ⟨rfl, rfl⟩ := hend
    obtain rfl : b = DASH := not_not.mp hb
    rw [options, if_neg hb, if_pos ⟨rfl, rfl⟩]
    exact flags_stop (by omega) h.argnext_dashes
  | case8 rest b c bs hb hend ih =>
    obtain rfl : b = DASH := not_not.mp hb
    have hbytes := hrest _ List.mem_cons_self
    obtain ⟨a', hsame, h'⟩ := h.argnext_flags (hbytes c (by simp)) (fun x hx => hbytes x (by simp [hx])) hend
    rw [options, if_neg hb, if_neg hend, flags_congr hsame]
    refine ih (fun x hx => hbytes x (List.mem_cons_of_mem _ hx))
      (fun arg harg => hrest arg (List.mem_cons_of_mem _ harg)) h' ?_
    simp [weight] at hn ⊢
    omega
  | case9 arg rest hshort =>
    have hop : options takes [] (arg :: rest) = ([], arg :: rest) := by
      rw [options]
      exact hshort
    rw [hop]
    refine flags_stop (by omega) (h.argnext_operand ?_)
    match arg, hshort with
    | [], _ => exact .inl (by decide)
    | [b], _ => exact .inr rfl
    | b :: c :: bs, hshort => exact absurd rfl (hshort b c bs)

end

/-- From `argstart` on, the loop of `inc/args.h` is `options`, on every command line. -/
theorem flags_options {takes : Byte → Bool} {args : List Text} {argv : Nat → Option Text}
    (hargv : ∀ i ≤ args.length, argv (i + 1) = args[i]?) (hnul : NulFree args) {n : Nat}
    (hn : weight [] args < n) :
    ∃ a', flags takes n (argstart (args.length + 1) argv) = some ((options takes [] args).1, a') ∧
      Done a' (options takes [] args).2 := by
  cases args with
  | nil =>
    have hdone : Done (argstart 1 argv) [] := ⟨rfl, rfl, hargv⟩
    simp only [options]
    exact flags_stop (by omega) hdone.argnext
  | cons arg args =>
    have hargc : (arg :: args).length + 1 > 1 := by rw [List.length_cons]; omega
    have hread : Reading (argstart ((arg :: args).length + 1) argv) [] (arg :: args) :=
      { curarg := by simp only [argstart, if_pos hargc], argc := rfl, argv := hargv }
    exact hread.flags_eq (by simp) hnul hn

/-- The array of a command's name and its arguments. -/
def argvOf (args : List Text) : Nat → Option Text
  | 0 => some []
  | i + 1 => args[i]?

/-- `-rx -f foo -- -r duh`. -/
def rxArgs : List Text :=
  [[DASH, 0x72, 0x78], [DASH, 0x66], [0x66, 0x6F, 0x6F], [DASH, DASH], [DASH, 0x72], [0x64, 0x75, 0x68]]

theorem flags_options_rx : ∃ a', flags (· == 0x66) 20 (argstart 7 (argvOf rxArgs)) =
    some ((options (· == 0x66) [] rxArgs).1, a') ∧ Done a' (options (· == 0x66) [] rxArgs).2 :=
  @flags_options (· == 0x66) rxArgs _ (fun _ _ => rfl) (by decide) 20 (by decide)

/-! ## Command lines -/

/-- A part of a command line: flags in one argument, the last of them perhaps with a value, in
the same argument or in the next. -/
inductive Item
  | cluster (fs : Text)
  | attached (fs : Text) (c : Byte) (v : Text)
  | detached (fs : Text) (c : Byte) (v : Text)

namespace Item

/-- The arguments it is written as. -/
def args : Item → List Text
  | cluster fs => [DASH :: fs]
  | attached fs c v => [DASH :: (fs ++ c :: v)]
  | detached fs c v => [DASH :: (fs ++ [c]), v]

/-- The flags in it, with their values. -/
def parsed : Item → List (Byte × Option Text)
  | cluster fs => fs.map fun f => (f, none)
  | attached fs c v | detached fs c v => fs.map (fun f => (f, none)) ++ [(c, some v)]

/-- The flags are of their kinds, and it does not read as `-` or `--`. -/
def Ok (takes : Byte → Bool) : Item → Prop
  | cluster fs => (∀ f ∈ fs, takes f = false) ∧ fs ≠ [] ∧ fs ≠ [DASH]
  | attached fs c v => (∀ f ∈ fs, takes f = false) ∧ takes c = true ∧ v ≠ []
  | detached fs c _ => (∀ f ∈ fs, takes f = false) ∧ takes c = true ∧ fs ++ [c] ≠ [DASH]

end Item

/-- An argument at which `argnext` stops. -/
def Operand (arg : Text) : Prop := ∀ b bs, arg ≠ DASH :: b :: bs

/-- The operands, after a `--` or as they are. -/
def operands (dashes : Bool) (ops : List Text) : List Text :=
  if dashes then [DASH, DASH] :: ops else ops

section

variable {takes : Byte → Bool}

theorem options_nil (takes : Byte → Bool) : options takes [] [] = ([], []) := by rw [options]

theorem options_flag {c : Byte} (hc : takes c = false) (cs : Text) (rest : List Text) :
    options takes (c :: cs) rest = (options takes cs rest).map ((c, none) :: ·) id := by
  rw [options.eq_def]
  simp only [hc, Bool.false_eq_true, if_false]

theorem options_flags {fs : Text} (h : ∀ f ∈ fs, takes f = false) (cs : Text) (rest : List Text) :
    options takes (fs ++ cs) rest =
      (options takes cs rest).map (fs.map (fun f => (f, none)) ++ ·) id := by
  induction fs with
  | nil => rfl
  | cons f fs ih =>
    rw [List.cons_append, options_flag (h f List.mem_cons_self),
      ih fun g hg => h g (List.mem_cons_of_mem _ hg)]
    rfl

/-- An argument of flags is read from its second byte on. -/
theorem options_dash {cs : Text} (hne : cs ≠ []) (hend : cs ≠ [DASH]) (rest : List Text) :
    options takes [] ((DASH :: cs) :: rest) = options takes cs rest := by
  obtain ⟨b, bs, rfl⟩ := List.exists_cons_of_ne_nil hne
  rw [options, if_neg (not_not.mpr rfl), if_neg]
  rintro ⟨rfl, rfl⟩
  exact hend rfl

theorem options_operands {dashes : Bool} {ops : List Text}
    (h : dashes = false → ∀ arg ∈ ops.head?, Operand arg) :
    options takes [] (operands dashes ops) = ([], ops) := by
  cases dashes with
  | true => rw [operands, if_pos rfl, options, if_neg (not_not.mpr rfl), if_pos ⟨rfl, rfl⟩]
  | false =>
    rw [operands, if_neg Bool.false_ne_true]
    match ops, h rfl with
    | [], _ => exact options_nil takes
    | [] :: ops, _ | [_] :: ops, _ => rw [options.eq_def]
    | (b :: c :: bs) :: ops, hop =>
      have hb : b ≠ DASH := fun hb => hop _ rfl c bs (by rw [hb])
      rw [options, if_pos hb]

/-- One part of the command line is parsed, whatever follows. -/
theorem options_item {it : Item} (h : it.Ok takes) (rest : List Text) :
    options takes [] (it.args ++ rest) = (options takes [] rest).map (it.parsed ++ ·) id := by
  cases it with
  | cluster fs =>
    obtain ⟨hfs, hne, hend⟩ := h
    have hrest := options_flags hfs [] rest
    rw [List.append_nil] at hrest
    rw [Item.args, List.singleton_append, options_dash hne hend, hrest]
    rfl
  | attached fs c v =>
    obtain ⟨hfs, hc, hv⟩ := h
    obtain ⟨d, ds, rfl⟩ := List.exists_cons_of_ne_nil hv
    have hend : fs ++ c :: d :: ds ≠ [DASH] := fun heq => by
      have hlen := congrArg List.length heq
      simp only [List.length_append, List.length_cons, List.length_nil] at hlen
      omega
    rw [Item.args, List.singleton_append, options_dash (by simp) hend, options_flags hfs, options,
      if_pos hc]
    simp only [Item.parsed, Prod.map, List.append_assoc, List.singleton_append, id_eq]
  | detached fs c v =>
    obtain ⟨hfs, hc, hend⟩ := h
    rw [Item.args, List.cons_append, List.singleton_append, options_dash (by simp) hend,
      options_flags hfs, options, if_pos hc]
    simp only [Item.parsed, Prod.map, List.append_assoc, List.singleton_append, id_eq]

theorem options_render {items : List Item} (hitems : ∀ it ∈ items, it.Ok takes) {dashes : Bool}
    {ops : List Text} (hops : dashes = false → ∀ arg ∈ ops.head?, Operand arg) :
    options takes [] (items.flatMap Item.args ++ operands dashes ops) = (items.flatMap Item.parsed, ops) := by
  induction items with
  | nil => exact options_operands hops
  | cons it items ih =>
    rw [List.flatMap_cons, List.append_assoc, options_item (hitems it List.mem_cons_self),
      ih fun i hi => hitems i (List.mem_cons_of_mem _ hi), List.flatMap_cons]
    rfl

/-- A command line written from flags, values and operands is parsed back into them. -/
theorem flags_render {items : List Item} (hitems : ∀ it ∈ items, it.Ok takes) {dashes : Bool}
    {ops : List Text} (hops : dashes = false → ∀ arg ∈ ops.head?, Operand arg)
    {args : List Text} (hargs : args = items.flatMap Item.args ++ operands dashes ops)
    {argv : Nat → Option Text} (hargv : ∀ i ≤ args.length, argv (i + 1) = args[i]?)
    (hnul : NulFree args) {n : Nat} (hn : weight [] args < n) :
    ∃ a', flags takes n (argstart (args.length + 1) argv) = some (items.flatMap Item.parsed, a') ∧
      Done a' ops := by
  have hrun := @flags_options takes args argv hargv hnul n hn
  rwa [hargs, options_render hitems hops, ← hargs] at hrun

end

/-- `-rx -f foo -- -r duh` is the flags r, x and f with a value, and the operands -r and duh. -/
theorem flags_render_rx : ∃ a', flags (· == 0x66) 20 (argstart 7 (argvOf rxArgs)) =
    some ([(0x72, none), (0x78, none), (0x66, some [0x66, 0x6F, 0x6F])], a') ∧
      Done a' [[DASH, 0x72], [0x64, 0x75, 0x68]] :=
  @flags_render (· == 0x66) [.cluster [0x72, 0x78], .detached [] 0x66 [0x66, 0x6F, 0x6F]]
    (List.forall_mem_cons.mpr ⟨⟨by decide, by decide, by decide⟩, List.forall_mem_singleton.mpr
      ⟨by decide, by decide, by decide⟩⟩)
    true [[DASH, 0x72], [0x64, 0x75, 0x68]] (fun h => absurd h (by decide)) rxArgs rfl (argvOf rxArgs)
    (fun _ _ => rfl) (by decide) 20 (by decide)

end SisOp.User
