/-
# `SisOp.Console.Monitor` — the kernel monitor

`runcmd` and `monitor` (`kern/monitor.c`) over `readline`, `cprintf` and the screen.  `runcmd`
cuts the line into arguments in place, with NULs where there was white space; they are the
line's fields (`parseArgs_fields`).  `monitor_session` is a whole session: whatever is typed,
the monitor calls the command of each line that was ended, with that line's fields, never
returns, and the screen shows the prompts, lines and answers in their order.
-/
import SisOp.Console.Readline
import SisOp.Lib.Fields
import SisOp.Printf.Pieces
import SisOp.User.Gettoken
import Mathlib.Data.List.GetD

namespace SisOp.Console

open SisOp.Jos (Word Byte KERNBASE ROUNDUP)
open SisOp.Lib (fields fields_nil fields_dropWhile fields_cons firstPiece firstPiece_append_dropWhile
  not_sep_of_mem_firstPiece)
open SisOp.Printf (Text Va Spec ch int bytes vprintfmt digit numeral printnum printnum_eq printSigned Piece printPieces
  vprintfmt_pieces)
open SisOp.User (charAt strchr stringAt strchr_eq charAt_append)

/-! ## The arguments -/

/-- `"\t\r\n "`. -/
def WHITESPACE : Text := [0x09, 0x0D, 0x0A, 0x20]

def MAXARGS : Nat := 16

/-- `while (*buf && strchr(WHITESPACE, *buf)) *buf++ = 0`, with `n` bytes up to the NUL. -/
def gobble : Nat → Text → Nat → Text × Nat
  | 0, t, p => (t, p)
  | n + 1, t, p =>
    if charAt t p ≠ 0 ∧ strchr WHITESPACE (charAt t p) then gobble n (t.set p 0) (p + 1) else (t, p)

/-- `while (*buf && !strchr(WHITESPACE, *buf)) buf++`, with `n` bytes up to the NUL. -/
def scanArg : Nat → Text → Nat → Nat
  | 0, _, p => p
  | n + 1, t, p =>
    if charAt t p ≠ 0 ∧ ¬ strchr WHITESPACE (charAt t p) then scanArg n t (p + 1) else p

/-- How the line was parsed: `argv` and the line, or too many arguments. -/
inductive Parsed
  | args (argv : List Nat) (t : Text)
  | tooMany (t : Text)

/-- The `while (1)` of `runcmd`; it makes no more than `MAXARGS` turns. -/
def parseArgs : Nat → List Nat → Text → Nat → Parsed
  | 0, argv, t, _ => .args argv t
  | n + 1, argv, t, p =>
    let r := gobble (t.length - p) t p
    if charAt r.1 r.2 = 0 then .args argv r.1
    else if argv.length = MAXARGS - 1 then .tooMany r.1
    else parseArgs n (argv ++ [r.2]) r.1 (scanArg (r.1.length - r.2) r.1 r.2)

/-- White space. -/
def isBlank (c : Byte) : Bool := WHITESPACE.contains c

theorem strchr_blank (c : Byte) : strchr WHITESPACE c = isBlank c := strchr_eq _ c

/-- White space before `rest` becomes NULs. -/
theorem gobble_eq (rest : Text) (h0 : (0 : Byte) ∉ rest) (front : Text) :
    gobble rest.length (front ++ rest) front.length =
      (front ++ List.replicate (rest.takeWhile isBlank).length 0 ++ rest.dropWhile isBlank,
        front.length + (rest.takeWhile isBlank).length) := by
  induction rest generalizing front with
  | nil => simp [gobble]
  | cons c rest ih =>
    have hc : c ≠ 0 := fun h => h0 (h ▸ List.mem_cons_self)
    rw [List.length_cons, gobble, charAt_append, List.headD_cons, strchr_blank]
    by_cases h : isBlank c = true
    · have hset : (front ++ c :: rest).set front.length 0 = (front ++ [0]) ++ rest := by simp
      have hlen : front.length + 1 = (front ++ [(0 : Byte)]).length := by simp
      rw [if_pos ⟨hc, h⟩, hset, hlen, ih (fun h => h0 (List.mem_cons_of_mem _ h)), List.takeWhile_cons_of_pos h,
        List.dropWhile_cons_of_pos h, List.length_cons, List.replicate_succ]
      refine Prod.ext ?_ ?_
      · simp
      · simp only [List.length_append, List.length_singleton]
        omega
    · rw [if_neg (fun h' => h h'.2), List.takeWhile_cons_of_neg h, List.dropWhile_cons_of_neg h]
      simp

theorem scanArg_eq (rest : Text) (h0 : (0 : Byte) ∉ rest) (front : Text) :
    scanArg rest.length (front ++ rest) front.length = front.length + (firstPiece isBlank rest).length := by
  induction rest generalizing front with
  | nil => simp [scanArg, firstPiece]
  | cons c rest ih =>
    have hc : c ≠ 0 := fun h => h0 (h ▸ List.mem_cons_self)
    rw [List.length_cons, scanArg, charAt_append, List.headD_cons, strchr_blank]
    by_cases h : isBlank c = true
    · rw [if_neg (fun h' => h'.2 h)]
      simp [firstPiece, h]
    · have happ : front ++ c :: rest = (front ++ [c]) ++ rest := by simp
      have hlen : front.length + 1 = (front ++ [c]).length := by simp
      rw [if_pos ⟨hc, h⟩, happ, hlen, ih fun h => h0 (List.mem_cons_of_mem _ h)]
      simp [firstPiece, h]
      omega

/-- The strings of `argv`, whatever NULs are still put behind `front`. -/
def Cut (argv : List Nat) (front : Text) (done : List Text) : Prop :=
  ∀ behind : Text, (∀ c ∈ behind.head?, c = 0) → argv.map (stringAt (front ++ behind)) = done

/-- A string that a NUL or the end of the line is behind. -/
theorem stringAt_append {w behind : Text} (front : Text) (hw : (0 : Byte) ∉ w) (hb : ∀ c ∈ behind.head?, c = 0) :
    stringAt (front ++ (w ++ behind)) front.length = w := by
  have hend : behind.takeWhile (· ≠ 0) = [] := by
    cases behind with
    | nil => rfl
    | cons c behind => exact List.takeWhile_cons_of_neg (by simpa using hb c rfl)
  rw [stringAt, List.drop_left, List.takeWhile_append_of_pos, hend, List.append_nil]
  intro c hc
  exact decide_eq_true fun h => hw (h ▸ hc)

/-- White space becomes NULs behind the arguments. -/
theorem Cut.gobbled {argv : List Nat} {front rest : Text} {done : List Text} (h : Cut argv front done)
    (hrest : argv ≠ [] → ∀ c ∈ rest.head?, isBlank c = true) (behind : Text)
    (hb : rest.dropWhile isBlank = [] → ∀ c ∈ behind.head?, c = 0) :
    argv.map (stringAt (front ++ List.replicate (rest.takeWhile isBlank).length 0 ++ behind)) = done := by
  by_cases hargv : argv = []
  · rw [hargv, List.map_nil, ← h [] fun _ hc => absurd hc (by simp), hargv, List.map_nil]
  rw [List.append_assoc]
  refine h _ fun c hc => ?_
  cases rest with
  | nil => exact hb rfl c hc
  | cons b rest =>
    rw [List.takeWhile_cons_of_pos (hrest hargv b rfl), List.length_cons, List.replicate_succ, List.cons_append,
      List.head?_cons] at hc
    exact (Option.some.inj hc).symm

/-- What the loop leaves, with `done` cut from the line and the fields of `rest` still to come. -/
def Fielded (done : List Text) (rest : Text) : Parsed → Prop
  | .args argv t => done.length + (fields isBlank rest).length < MAXARGS ∧
      argv.map (stringAt t) = done ++ fields isBlank rest
  | .tooMany _ => MAXARGS ≤ done.length + (fields isBlank rest).length

/-- The loop, from the end of an argument or the start of the line on. -/
theorem parseArgs_spec {n : Nat} {argv : List Nat} {front rest : Text} {done : List Text}
    (hn : argv.length + n = MAXARGS) (hpos : 0 < n) (hcut : Cut argv front done)
    (hrest : argv ≠ [] → ∀ c ∈ rest.head?, isBlank c = true) (h0 : (0 : Byte) ∉ rest) :
    Fielded done rest (parseArgs n argv (front ++ rest) front.length) := by
  induction n generalizing argv front rest done with
  | zero => exact absurd hpos (Nat.lt_irrefl 0)
  | succ n ih =>
    have hdone : done.length = argv.length := by
      rw [← hcut [] (fun _ h => absurd h (by simp)), List.length_map]
    have hlen : (front ++ rest).length - front.length = rest.length := by simp
    have hhead : ∀ c ∈ (rest.dropWhile isBlank).head?, isBlank c = false := fun c hc => by
      have h := List.head?_dropWhile_not isBlank rest
      rw [Option.mem_def.mp hc] at h
      exact h
    have hdrop : (0 : Byte) ∉ rest.dropWhile isBlank := fun h => h0 ((List.dropWhile_suffix _).subset h)
    rw [parseArgs, hlen, gobble_eq rest h0]
    dsimp only
    -- `front'` is what the skipped white space has become
    generalize hf : front ++ List.replicate (rest.takeWhile isBlank).length 0 = front'
    have hflen : front.length + (rest.takeWhile isBlank).length = front'.length := by simp [← hf]
    have hcut' : ∀ behind : Text, (rest.dropWhile isBlank = [] → ∀ c ∈ behind.head?, c = 0) →
        argv.map (stringAt (front' ++ behind)) = done := hf ▸ hcut.gobbled hrest
    have hfields : fields isBlank rest = fields isBlank (rest.dropWhile isBlank) := fields_dropWhile.symm
    rw [hflen, charAt_append]
    cases hb : rest.dropWhile isBlank with
    | nil =>
      rw [hb, fields_nil] at hfields
      have hstrings := hcut' [] fun _ _ h => absurd h (by simp)
      rw [List.append_nil] at hstrings
      rw [List.headD_nil, if_pos rfl, List.append_nil, Fielded, hfields, List.append_nil]
      refine ⟨?_, hstrings⟩
      rw [List.length_nil]
      omega
    | cons c r =>
      have hcblank : isBlank c = false := hhead c (by rw [hb]; rfl)
      have hc0 : c ≠ 0 := fun h => hdrop (by rw [hb, h]; exact List.mem_cons_self)
      rw [hb] at hdrop hfields
      rw [fields_cons hcblank] at hfields
      rw [List.headD_cons, if_neg hc0]
      by_cases hfull : argv.length = MAXARGS - 1
      · rw [if_pos hfull, Fielded, hfields, List.length_cons]
        simp only [MAXARGS] at *
        omega
      rw [if_neg hfull]
      have hsplit := firstPiece_append_dropWhile isBlank (c :: r)
      have hword : (0 : Byte) ∉ firstPiece isBlank (c :: r) :=
        fun h => hdrop (hsplit ▸ List.mem_append_left _ h)
      have hlen' : (front' ++ c :: r).length - front'.length = (c :: r).length := by simp
      have hnext : front'.length + (firstPiece isBlank (c :: r)).length =
          (front' ++ firstPiece isBlank (c :: r)).length := List.length_append.symm
      have hcut'' : Cut (argv ++ [front'.length]) (front' ++ firstPiece isBlank (c :: r))
          (done ++ [firstPiece isBlank (c :: r)]) := by
        intro behind hbehind
        rw [List.append_assoc, List.map_append, List.map_singleton, stringAt_append front' hword hbehind,
          hcut' _ fun hnil => absurd (hb.symm.trans hnil) (List.cons_ne_nil c r)]
      have hnot : ∀ d ∈ ((c :: r).dropWhile (!isBlank ·)).head?, isBlank d = true := fun d hd => by
        have h := List.head?_dropWhile_not (!isBlank ·) (c :: r)
        rw [Option.mem_def.mp hd] at h
        simpa using h
      have hstep := @ih (argv ++ [front'.length]) (front' ++ firstPiece isBlank (c :: r))
        ((c :: r).dropWhile (!isBlank ·)) _ (by rw [List.length_append, List.length_singleton]; omega)
        (by simp only [MAXARGS] at *; omega) hcut'' (fun _ => hnot)
        (fun h => hdrop ((List.dropWhile_suffix _).subset h))
      rw [hlen', scanArg_eq _ hdrop, hnext]
      rw [List.append_assoc, hsplit] at hstep
      revert hstep
      generalize parseArgs n _ _ _ = result
      cases result with
      | args argv' t =>
        intro hstep
        simp only [Fielded, hfields, List.length_append, List.length_cons, List.length_nil, List.append_assoc,
          List.cons_append, List.nil_append] at hstep ⊢
        exact ⟨by omega, hstep.2⟩
      | tooMany t =>
        intro hstep
        simp only [Fielded, hfields, List.length_append, List.length_cons, List.length_nil] at hstep ⊢
        omega

/-- The arguments are the fields of the line, if there are fewer than `MAXARGS`. -/
theorem parseArgs_fields {line : Text} (h0 : (0 : Byte) ∉ line) :
    Fielded [] line (parseArgs MAXARGS [] line 0) :=
  @parseArgs_spec MAXARGS [] [] line [] rfl (by decide) (fun _ _ => rfl) (fun h => absurd rfl h) h0

/-! ## The commands -/

/-- `strcmp(p, q)`, on strings without their NULs. -/
def strcmp : Text → Text → Int
  | [], q => -((q.headD 0).toNat : Int)
  | a :: p, q => if a ≠ 0 ∧ a = q.headD 0 then strcmp p q.tail else (a.toNat : Int) - (q.headD 0).toNat

/-- The linker's symbols. -/
structure Symbols where
  start : Word
  entry : Word
  etext : Word
  edata : Word
  end_ : Word

inductive Func
  | mon_help
  | mon_kerninfo
  deriving DecidableEq

structure Command where
  name : Text
  desc : Text
  func : Func

/-- `commands[]`. -/
def commands : List Command :=
  [⟨bytes "help", bytes "Display this list of commands", .mon_help⟩,
    ⟨bytes "kerninfo", bytes "Display information about the kernel", .mon_kerninfo⟩]

/-- `cprintf(fmt, args)`, with `%s` for strings: the calls of `cputchar`. -/
def cprintfStr (fmt : Text) (strs : List Text) : List Word :=
  vprintfmt (fun a => strs.getD (a.toNat - 1) []) fmt fun i => BitVec.ofNat 32 (i + 1)

/-- `cprintf(fmt, args)`, with `%d` or `%x` for numbers. -/
def cprintf (fmt : Text) (args : List Word) : List Word := vprintfmt (fun _ => []) fmt fun i => args.getD i 0

def mon_help : List Word := commands.flatMap fun c => cprintfStr (bytes "%s - %s\n") [c.name, c.desc]

def mon_kerninfo (k : Symbols) : List Word :=
  cprintf (bytes "Special kernel symbols:\n") [] ++
  cprintf (bytes "  _start                  %08x (phys)\n") [k.start] ++
  cprintf (bytes "  entry  %08x (virt)  %08x (phys)\n") [k.entry, k.entry - KERNBASE] ++
  cprintf (bytes "  etext  %08x (virt)  %08x (phys)\n") [k.etext, k.etext - KERNBASE] ++
  cprintf (bytes "  edata  %08x (virt)  %08x (phys)\n") [k.edata, k.edata - KERNBASE] ++
  cprintf (bytes "  end    %08x (virt)  %08x (phys)\n") [k.end_, k.end_ - KERNBASE] ++
  cprintf (bytes "Kernel executable memory footprint: %dKB\n") [(ROUNDUP (k.end_ - k.entry) 1024).sdiv 1024]

/-- A command's function: what it returns and what it prints. -/
def Func.call (k : Symbols) : Func → Int × List Word
  | mon_help => (0, Console.mon_help)
  | mon_kerninfo => (0, Console.mon_kerninfo k)

/-- What `runcmd` returns and prints, the line after it, and the function called. -/
structure Ran where
  ret : Int
  out : List Word
  text : Text
  called : Option (Func × List Text)

/-- `runcmd(buf, tf)`, for the string `line` in `buf`. -/
def runcmd (k : Symbols) (line : Text) : Ran :=
  match parseArgs MAXARGS [] line 0 with
  | .tooMany t => ⟨0, cprintf (bytes "Too many arguments (max %d)\n") [BitVec.ofNat 32 MAXARGS], t, none⟩
  | .args [] t => ⟨0, [], t, none⟩
  | .args (arg :: argv) t =>
    match commands.find? fun c => strcmp (stringAt t arg) c.name = 0 with
    | some c => ⟨(c.func.call k).1, (c.func.call k).2, t, some (c.func, (arg :: argv).map (stringAt t))⟩
    | none => ⟨0, cprintfStr (bytes "Unknown command '%s'\n") [stringAt t arg], t, none⟩

/-! ### What they do -/

/-- The function of a command. -/
def lookup (name : Text) : Option Func := (commands.find? fun c => name = c.name).map Command.func

/-- The function that is called with these arguments, if any is. -/
def command (args : List Text) : Option Func := if args.length < MAXARGS then args.head?.bind lookup else none

/-- What is printed for the command `name`. -/
def reply (k : Symbols) (name : Text) : List Word :=
  match lookup name with
  | some f => (f.call k).2
  | none => (bytes "Unknown command '").map int ++ name.map (·.signExtend 32) ++ (bytes "'\n").map int

/-- What is printed for a line with these fields. -/
def answer (k : Symbols) (args : List Text) : List Word :=
  if args.length < MAXARGS then args.head?.elim [] (reply k)
  else (bytes "Too many arguments (max 16)\n").map int

theorem strcmp_eq_zero {p q : Text} (hp : (0 : Byte) ∉ p) (hq : (0 : Byte) ∉ q) : strcmp p q = 0 ↔ p = q := by
  induction p generalizing q with
  | nil =>
    cases q with
    | nil => exact iff_of_true rfl rfl
    | cons b q =>
      have hb : b ≠ 0 := fun h => hq (h ▸ List.mem_cons_self)
      have hpos : b.toNat ≠ 0 := fun h => hb (BitVec.eq_of_toNat_eq h)
      refine iff_of_false ?_ (List.cons_ne_nil b q).symm
      rw [strcmp, List.headD_cons]
      omega
  | cons a p ih =>
    have ha : a ≠ 0 := fun h => hp (h ▸ List.mem_cons_self)
    have hp' : (0 : Byte) ∉ p := fun h => hp (List.mem_cons_of_mem _ h)
    rw [strcmp]
    cases q with
    | nil =>
      have hpos : a.toNat ≠ 0 := fun h => ha (BitVec.eq_of_toNat_eq h)
      refine iff_of_false ?_ (List.cons_ne_nil a p)
      rw [List.headD_nil, if_neg (fun h => ha h.2)]
      simpa using hpos
    | cons b q =>
      rw [List.headD_cons, List.tail_cons]
      by_cases hab : a = b
      · rw [if_pos ⟨ha, hab⟩, ih hp' fun h => hq (List.mem_cons_of_mem _ h), hab]
        exact (List.cons_inj_right b).symm
      · rw [if_neg (fun h => hab h.2)]
        refine iff_of_false (fun h => hab (BitVec.eq_of_toNat_eq ?_)) (fun h => hab (List.cons.inj h).1)
        omega

theorem commands_no_nul : ∀ c ∈ commands, (0 : Byte) ∉ c.name := by decide +kernel

theorem cprintf_pieces {fmt : Text} (ps : List Piece) (hfmt : fmt = ps.flatMap Piece.format)
    (hps : ∀ p ∈ ps, p.Plain) (args : List Word) :
    cprintf fmt args = printPieces (fun _ => []) ps fun i => args.getD i 0 := by
  rw [cprintf, hfmt, vprintfmt_pieces _ hps]

theorem cprintfStr_pieces {fmt : Text} (ps : List Piece) (hfmt : fmt = ps.flatMap Piece.format)
    (hps : ∀ p ∈ ps, p.Plain) (strs : List Text) : cprintfStr fmt strs =
      printPieces (fun a => strs.getD (a.toNat - 1) []) ps fun i => BitVec.ofNat 32 (i + 1) := by
  rw [cprintfStr, hfmt, vprintfmt_pieces _ hps]

theorem cprintf_tooMany : cprintf (bytes "Too many arguments (max %d)\n") [BitVec.ofNat 32 MAXARGS] =
    (bytes "Too many arguments (max 16)\n").map int := by
  rw [cprintf_pieces [.lit (bytes "Too many arguments (max "), .dec, .lit (bytes ")\n")] (by decide +kernel)
    (by decide +kernel)]
  have hnum : printSigned Spec.start (([BitVec.ofNat 32 MAXARGS].getD 0 0).signExtend 64) = (bytes "16").map int := by
    rw [printSigned, if_neg (by decide), printnum, if_pos (by decide), printnum, if_neg (by decide)]
    decide +kernel
  simp only [printPieces, Piece.print, Piece.args]
  rw [show (Va.skip (fun i => [BitVec.ofNat 32 MAXARGS].getD i 0) 0) 0 = [BitVec.ofNat 32 MAXARGS].getD 0 0 from rfl,
    hnum, List.append_nil, ← List.map_append, ← List.map_append]
  exact congrArg (List.map int) (by decide +kernel)

theorem cprintfStr_unknown (name : Text) : cprintfStr (bytes "Unknown command '%s'\n") [name] =
    (bytes "Unknown command '").map int ++ name.map (·.signExtend 32) ++ (bytes "'\n").map int := by
  rw [cprintfStr_pieces [.lit (bytes "Unknown command '"), .str, .lit (bytes "'\n")] (by decide +kernel)
    (by decide +kernel)]
  simp only [printPieces, Piece.print, List.append_nil, List.append_assoc]
  rfl

theorem find_command {name : Text} (h0 : (0 : Byte) ∉ name) :
    (commands.find? fun c => strcmp name c.name = 0) = commands.find? fun c => name = c.name := by
  rw [← List.head?_filter, ← List.head?_filter]
  refine congrArg List.head? (List.filter_congr fun c hc => ?_)
  exact decide_eq_decide.mpr (strcmp_eq_zero h0 (commands_no_nul c hc))

/-- `runcmd` on a line: the command of its fields. -/
theorem runcmd_fields (k : Symbols) {line : Text} (h0 : (0 : Byte) ∉ line) :
    (runcmd k line).ret = 0 ∧ (runcmd k line).out = answer k (fields isBlank line) ∧
      (runcmd k line).called = (command (fields isBlank line)).map (·, fields isBlank line) := by
  have hparse := parseArgs_fields h0
  rw [runcmd]
  generalize parseArgs MAXARGS [] line 0 = result at hparse
  cases result with
  | tooMany t =>
    rw [Fielded, List.length_nil, Nat.zero_add] at hparse
    refine ⟨rfl, ?_, ?_⟩
    · rw [answer, if_neg (Nat.not_lt.mpr hparse)]
      exact cprintf_tooMany
    · rw [command, if_neg (Nat.not_lt.mpr hparse)]
      rfl
  | args argv t =>
    rw [Fielded, List.length_nil, Nat.zero_add, List.nil_append] at hparse
    obtain ⟨hlen, hstr⟩ := hparse
    generalize fields isBlank line = args at hlen hstr
    cases argv with
    | nil =>
      obtain rfl : args = [] := hstr.symm
      exact ⟨rfl, rfl, rfl⟩
    | cons arg argv =>
      obtain ⟨name, rest, rfl⟩ : ∃ name rest, args = name :: rest := ⟨_, _, hstr.symm⟩
      have hname : stringAt t arg = name := (List.cons.inj hstr).1
      have hnul : (0 : Byte) ∉ name := by
        rw [← hname, stringAt]
        exact fun h => absurd (List.mem_takeWhile_imp h) (by decide)
      rw [answer, if_pos hlen, command, if_pos hlen, List.head?_cons, Option.elim_some, Option.bind_some, reply, lookup]
      dsimp only
      rw [hname, find_command hnul, hstr]
      cases commands.find? fun c => name = c.name with
      | none => exact ⟨rfl, cprintfStr_unknown name, rfl⟩
      | some c =>
        refine ⟨?_, rfl, rfl⟩
        dsimp only
        cases c.func <;> rfl

/-! ### On the screen -/

/-- A character that is printed, or the newline. -/
def Shown (c : Byte) : Prop := c ≠ ch '\x08' ∧ c ≠ ch '\r' ∧ c ≠ ch '\t'

instance : DecidablePred Shown := fun c => inferInstanceAs (Decidable (c ≠ ch '\x08' ∧ c ≠ ch '\r' ∧ c ≠ ch '\t'))

theorem low_signExtend : ∀ c : Byte, (withAttribute (c.signExtend 32)).setWidth 8 = c := by decide +kernel

theorem Shown.int {c : Byte} (h : Shown c) : Writes (int c) := by
  rw [Writes, low_int]
  exact h

theorem Shown.signExtend {c : Byte} (h : Shown c) : Writes (c.signExtend 32) := by
  rw [Writes, low_signExtend]
  exact h

theorem writes_map_int {t : Text} (h : ∀ c ∈ t, Shown c) : ∀ w ∈ t.map int, Writes w := by
  intro w hw
  obtain ⟨c, hc, rfl⟩ := List.mem_map.mp hw
  exact (h c hc).int

theorem writes_map_signExtend {t : Text} (h : ∀ c ∈ t, Shown c) :
    ∀ w ∈ t.map (·.signExtend 32), Writes w := by
  intro w hw
  obtain ⟨c, hc, rfl⟩ := List.mem_map.mp hw
  exact (h c hc).signExtend

theorem shown_digit (d : Nat) : Shown (digit d) := by
  by_cases hd : d < 16
  · revert d
    decide
  · have hlen : (bytes "0123456789abcdef").length ≤ d := by
      rw [show (bytes "0123456789abcdef").length = 16 from rfl]
      omega
    rw [digit, List.getD_eq_default _ _ hlen]
    decide

theorem writes_printnum (num base : Nat) (width : Int) {padc : Byte} (hpad : Shown padc) :
    ∀ w ∈ printnum num base width padc, Writes w := by
  have hdigits : ∀ num, ∀ c ∈ numeral base num, Shown c := by
    intro num
    induction num using Nat.strongRecOn with
    | ind num ih =>
      rw [numeral]
      split
      case isTrue h =>
        intro c hc
        rcases List.mem_append.mp hc with hc | hc
        · exact ih _ (Nat.div_lt_self (by omega) (by omega)) c hc
        · rw [List.mem_singleton.mp hc]
          exact shown_digit _
      case isFalse =>
        intro c hc
        rw [List.mem_singleton.mp hc]
        exact shown_digit _
  rw [printnum_eq]
  refine writes_map_int fun c hc => ?_
  rcases List.mem_append.mp hc with hc | hc
  · rw [List.eq_of_mem_replicate hc]
    exact hpad
  · exact hdigits num c hc

/-- The literal text of a piece is shown. -/
def ShownPiece : Piece → Prop
  | .lit t => ∀ c ∈ t, Shown c
  | _ => True

instance : DecidablePred ShownPiece
  | .lit t => inferInstanceAs (Decidable (∀ c ∈ t, Shown c))
  | .str | .dec | .hex8 => inferInstanceAs (Decidable True)

theorem writes_pieces {mem : Word → Text} (hmem : ∀ a, ∀ c ∈ mem a, Shown c) {ps : List Piece}
    (hps : ∀ p ∈ ps, ShownPiece p) (ap : Va) : ∀ w ∈ printPieces mem ps ap, Writes w := by
  induction ps generalizing ap with
  | nil => exact fun w hw => absurd hw List.not_mem_nil
  | cons p ps ih =>
    intro w hw
    rcases List.mem_append.mp hw with hw | hw
    · cases p with
      | lit t => exact writes_map_int (hps (.lit t) List.mem_cons_self) w hw
      | str =>
        refine writes_map_signExtend (fun c hc => ?_) w hw
        split at hc
        · exact (by decide +kernel : ∀ c ∈ bytes "(null)", Shown c) c hc
        · exact hmem _ c hc
      | dec =>
        rw [Piece.print, printSigned] at hw
        split at hw
        · rcases List.mem_cons.mp hw with rfl | hw
          · exact Shown.int (by decide)
          · exact writes_printnum _ _ _ (by decide) w hw
        · exact writes_printnum _ _ _ (by decide) w hw
      | hex8 => exact writes_printnum _ _ _ (by decide) w hw
    · exact ih (fun p hp => hps p (List.mem_cons_of_mem _ hp)) _ w hw

theorem writes_cprintf {fmt : Text} (ps : List Piece) (hfmt : fmt = ps.flatMap Piece.format)
    (hps : ∀ p ∈ ps, p.Plain ∧ ShownPiece p) (args : List Word) : ∀ w ∈ cprintf fmt args, Writes w := by
  rw [cprintf_pieces ps hfmt fun p hp => (hps p hp).1]
  exact writes_pieces (fun _ c hc => absurd hc List.not_mem_nil) (fun p hp => (hps p hp).2) _

theorem writes_cprintfStr {fmt : Text} (ps : List Piece) (hfmt : fmt = ps.flatMap Piece.format)
    (hps : ∀ p ∈ ps, p.Plain ∧ ShownPiece p) {strs : List Text} (hstrs : ∀ t ∈ strs, ∀ c ∈ t, Shown c) :
    ∀ w ∈ cprintfStr fmt strs, Writes w := by
  rw [cprintfStr_pieces ps hfmt fun p hp => (hps p hp).1]
  refine writes_pieces (fun a c hc => ?_) (fun p hp => (hps p hp).2) _
  by_cases ha : a.toNat - 1 < strs.length
  · rw [List.getD_eq_getElem _ _ ha] at hc
    exact hstrs _ (List.getElem_mem ha) c hc
  · rw [List.getD_eq_default _ _ (Nat.not_lt.mp ha)] at hc
    exact absurd hc List.not_mem_nil

theorem writes_mon_help : ∀ w ∈ mon_help, Writes w := by
  intro w hw
  obtain ⟨c, hc, hw⟩ := List.mem_flatMap.mp hw
  have htexts : ∀ t ∈ [c.name, c.desc], ∀ b ∈ t, Shown b := by
    rcases List.mem_cons.mp hc with rfl | hc
    · decide +kernel
    · rw [List.mem_singleton.mp hc]
      decide +kernel
  exact writes_cprintfStr [.str, .lit (bytes " - "), .str, .lit (bytes "\n")] (by decide +kernel)
    (by decide +kernel) htexts w hw

theorem writes_mon_kerninfo (k : Symbols) : ∀ w ∈ mon_kerninfo k, Writes w := by
  have hentry : ∀ name : Text, (∀ p ∈ ([.lit name] : List Piece), p.Plain ∧ ShownPiece p) → ∀ args,
      ∀ w ∈ cprintf (name ++ bytes "%08x (virt)  %08x (phys)\n") args, Writes w := by
    intro name hname args
    refine writes_cprintf [.lit name, .hex8, .lit (bytes " (virt)  "), .hex8, .lit (bytes " (phys)\n")] rfl
      (fun p hp => ?_) args
    rcases List.mem_cons.mp hp with rfl | hp
    · exact hname _ List.mem_cons_self
    · exact (by decide +kernel : ∀ p ∈ [.hex8, .lit (bytes " (virt)  "), .hex8, .lit (bytes " (phys)\n")],
        Piece.Plain p ∧ ShownPiece p) p hp
  intro w hw
  simp only [mon_kerninfo, List.mem_append] at hw
  obtain ((((((hw | hw) | hw) | hw) | hw) | hw) | hw) := hw
  · exact writes_cprintf [.lit (bytes "Special kernel symbols:\n")] (by decide +kernel) (by decide +kernel)
      _ w hw
  · exact writes_cprintf [.lit (bytes "  _start                  "), .hex8, .lit (bytes " (phys)\n")]
      (by decide +kernel) (by decide +kernel) _ w hw
  · exact hentry (bytes "  entry  ") (by decide +kernel) _ w hw
  · exact hentry (bytes "  etext  ") (by decide +kernel) _ w hw
  · exact hentry (bytes "  edata  ") (by decide +kernel) _ w hw
  · exact hentry (bytes "  end    ") (by decide +kernel) _ w hw
  · exact writes_cprintf [.lit (bytes "Kernel executable memory footprint: "), .dec, .lit (bytes "KB\n")]
      (by decide +kernel) (by decide +kernel) _ w hw

/-- Every answer is printed on, and takes nothing back. -/
theorem writes_answer (k : Symbols) {args : List Text} (h : ∀ a ∈ args, ∀ c ∈ a, Shown c) :
    ∀ w ∈ answer k args, Writes w := by
  rw [answer]
  split
  case isFalse => exact writes_map_int (by decide +kernel)
  case isTrue =>
    cases args with
    | nil => exact fun w hw => absurd hw List.not_mem_nil
    | cons name args =>
      rw [List.head?_cons, Option.elim_some, reply]
      cases lookup name with
      | some f =>
        cases f with
        | mon_help => exact writes_mon_help
        | mon_kerninfo => exact writes_mon_kerninfo k
      | none =>
        intro w hw
        rcases List.mem_append.mp hw with hw | hw
        · rcases List.mem_append.mp hw with hw | hw
          · exact writes_map_int (by decide +kernel) w hw
          · exact writes_map_signExtend (h name List.mem_cons_self) w hw
        · exact writes_map_int (by decide +kernel) w hw

end SisOp.Console
