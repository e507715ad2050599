/-
# `SisOp.User.Spawn` — what a failed `spawn` leaves behind

`spawn` is a program of system calls, named by the place they are made at.  What it can
leave behind is the caller's: open descriptors, the page at `UTEMP` and the environments
that are taken.  The calls fail as the kernel and the file server please; the program
headers are whatever the file has, and the words around `elf_buf` are read if a header
lies there.  Loops carry the number of turns they may take.
-/
import SisOp.Lib.Prog
import SisOp.User.Descriptors
import SisOp.User.InitStack

namespace SisOp.User.Spawn

open SisOp.Jos SisOp.Lib

def E_MAX_OPEN : Int := 10
def E_NOT_EXEC : Int := 14
def ELF_MAGIC : Word := 0x464C457F
def ELF_PROG_LOAD : Word := 1

/-- The length of `elf_buf`. -/
def ELF_BUF : Nat := 512

/-! ## System calls -/

inductive Call
  | open
  | readHeader (fdnum : Nat)
  | close (fdnum : Nat)
  | exofork
  | stackAlloc
  | stackMap (child : Nat)
  | stackUnmap
  | segAllocTemp
  | segAlloc (child : Nat) (va : Word)
  | seek (fdnum : Nat) (offset : Word)
  | readSegment (fdnum : Nat) (n : Word)
  | segMap (child : Nat) (va : Word)
  | segUnmap
  | destroy (child : Nat)
  | copyShared (child : Nat)
  | setTrapframe (child : Nat)
  | setStatus (child : Nat)

/-- What is mapped at `UTEMP`. -/
inductive Temp
  | empty
  | before
  /-- A page that was allocated during the call. -/
  | new
  deriving DecidableEq

/-- What the caller has. -/
structure Caller where
  fds : Nat → Bool
  utemp : Temp
  /-- `env_free_list`. -/
  envFree : List Nat

/-- What a call comes to: an error, or a number of bytes. -/
structure Answer where
  err : Option { e : Int // e < 0 }
  count : Nat

/-- The call fails, or does what it should. -/
def Answer.either (a : Answer) (c : Caller) (done : Int × Caller) : Int × Caller :=
  match a.err with
  | some e => (e, c)
  | none => done

/-- `fd_alloc`. -/
def fdAlloc (fds : Nat → Bool) : Option Nat := (List.range MAXFD).find? fun i => !fds i

/-- What a call returns and leaves.  `seek` and `sys_page_unmap` only look at their arguments. -/
def Caller.call (c : Caller) (a : Answer) : Call → Int × Caller
  | .open =>
      match fdAlloc c.fds with
      | none => (-E_MAX_OPEN, c)
      | some fdnum => a.either c (fdnum, { c with fds := Function.update c.fds fdnum true })
  | .readHeader _ | .readSegment _ _ => a.either c (a.count, c)
  | .close fdnum => (0, { c with fds := Function.update c.fds fdnum false })
  | .exofork =>
      match c.envFree with
      | [] => (-E_NO_FREE_ENV, c)
      | e :: rest => a.either c (e, { c with envFree := rest })
  | .stackAlloc | .segAllocTemp => a.either c (0, { c with utemp := .new })
  | .stackUnmap | .segUnmap => (0, { c with utemp := .empty })
  | .segAlloc _ va | .segMap _ va => if UTOP ≤ va then (-E_INVAL, c) else a.either c (0, c)
  | .seek fdnum _ => if c.fds fdnum then (0, c) else (-E_INVAL, c)
  | .destroy child => (0, { c with envFree := child :: c.envFree })
  | .stackMap _ | .copyShared _ | .setTrapframe _ | .setStatus _ => a.either c (0, c)

structure Event where
  call : Call
  ret : Int

structure World where
  caller : Caller
  /-- The calls, latest first. -/
  events : List Event
  /-- The offsets from `elf_buf` of the words that were read. -/
  reads : List Word
  /-- The turns of the loop over the program headers. -/
  turns : Nat

/-- What does not depend on `spawn`. -/
structure Given where
  /-- `elf_buf` after `readn`. -/
  buf : Nat → Byte
  /-- The words elsewhere, by offset. -/
  outside : Word → Word
  /-- What the calls come to, in the order they are made. -/
  answers : Nat → Answer

/-- The word lies in `elf_buf`. -/
def InBuf (o : Word) : Prop := o.toNat + 4 ≤ ELF_BUF

instance (o : Word) : Decidable (InBuf o) := Nat.decLe ..

/-- The word at an offset. -/
def Given.word (x : Given) (o : Word) : Word :=
  if InBuf o then bytesWord [x.buf o.toNat, x.buf (o.toNat + 1), x.buf (o.toNat + 2), x.buf (o.toNat + 3)]
  else x.outside o

inductive Cmd
  | sys (c : Call)
  | word (o : Word)
  | turn
  | panic (msg : String)

def Cmd.Ans : Cmd → Type
  | .sys _ => Int
  | .word _ => Word
  | .turn => Unit
  | .panic _ => Empty

abbrev SpawnM := Prog Cmd Cmd.Ans

def sys (c : Call) : SpawnM Int := Prog.cmd (C := Cmd) (.sys c)
def word (o : Word) : SpawnM Word := Prog.cmd (C := Cmd) (.word o)
def turn : SpawnM Unit := Prog.cmd (C := Cmd) .turn
def panic {α : Type} (msg : String) : SpawnM α := .call (.panic msg) fun x => nomatch x

/-- The next call. -/
def World.ret (x : Given) (w : World) (c : Call) : Int := (w.caller.call (x.answers w.events.length) c).1

def World.after (x : Given) (w : World) (c : Call) : World :=
  { w with
    caller := (w.caller.call (x.answers w.events.length) c).2
    events := ⟨c, w.ret x c⟩ :: w.events }

def kernel (x : Given) : Handler Cmd Cmd.Ans World
  | .sys c, w => (.ok (w.ret x c), w.after x c)
  | .word o, w => (.ok (x.word o), { w with reads := o :: w.reads })
  | .turn, w => (.ok (), { w with turns := w.turns + 1 })
  | .panic msg, w => (.error msg, w)

/-! ## `lib/spawn.c` -/

/-- `init_stack` does not take the arguments. -/
def Refused (argv : List CStr) : Prop := InitStack.argvStore argv - 8 < UTEMP

/-- The stores of `init_stack` fault. -/
def Faults (argv : List CStr) : Prop := (InitStack.initStack ⟨0, 0, 0⟩ argv).isNone = true

-- the unifier is not to evaluate the tests
@[irreducible] instance decidableRefused (argv : List CStr) : Decidable (Refused argv) :=
  inferInstanceAs (Decidable (InitStack.argvStore argv - 8 < UTEMP))

@[irreducible] instance decidableFaults (argv : List CStr) : Decidable (Faults argv) :=
  inferInstanceAs (Decidable (_ = true))

/-- The system calls of `init_stack`. -/
def initStackCalls (child : Nat) (argv : List CStr) : SpawnM Int := do
  if Refused argv then return -E_NO_MEM
  else
    let r ← sys .stackAlloc
    if r < 0 then return r
    else if Faults argv then panic "user fault"
    else
      let r ← sys (.stackMap child)
      if r < 0 then
        let _ ← sys .stackUnmap
        return r
      else
        let r ← sys .stackUnmap
        if r < 0 then
          let _ ← sys .stackUnmap
          return r
        else return 0

/-- The loop of `map_segment`; `i` is compared as an unsigned number. -/
def mapPages (child fdnum : Nat) (va memsz filesz fileoffset : Word) : Nat → Word → SpawnM Int
  | 0, _ => panic "too many turns"
  | n + 1, i =>
      if i < memsz then
        if filesz ≤ i then do
          -- a blank page
          let r ← sys (.segAlloc child (va + i))
          if r < 0 then return r
          else mapPages child fdnum va memsz filesz fileoffset n (i + PGSIZE)
        else do
          -- from the file
          let r ← sys .segAllocTemp
          if r < 0 then return r
          else
            let r ← sys (.seek fdnum (fileoffset + i))
            if r < 0 then return r
            else
              let r ← sys (.readSegment fdnum (if PGSIZE ≤ filesz - i then PGSIZE else filesz - i))
              if r < 0 then return r
              else
                let r ← sys (.segMap child (va + i))
                if r < 0 then panic "spawn: sys_page_map data"
                else
                  let _ ← sys .segUnmap
                  mapPages child fdnum va memsz filesz fileoffset n (i + PGSIZE)
      else return 0

def mapSegment (fuel child : Nat) (va memsz : Word) (fdnum : Nat) (filesz fileoffset : Word) : SpawnM Int :=
  let i := va &&& (PGSIZE - 1)
  mapPages child fdnum (va - i) (memsz + i) (filesz + i) (fileoffset - i) fuel 0

/-- The loop over the program headers, with `n` of them left from `ph` on. -/
def mapHeaders (fuel child fdnum : Nat) : Nat → Word → SpawnM Int
  | 0, _ => return 0
  | n + 1, ph => do
      turn
      let type ← word ph
      if type ≠ ELF_PROG_LOAD then mapHeaders fuel child fdnum n (ph + 32)
      else
        let _ ← word (ph + 24)
        let va ← word (ph + 8)
        let memsz ← word (ph + 20)
        let filesz ← word (ph + 16)
        let offset ← word (ph + 4)
        let r ← mapSegment fuel child va memsz fdnum filesz offset
        if r < 0 then return r
        else mapHeaders fuel child fdnum n (ph + 32)

/-- The way out of a file that is no program. -/
def notExec (fdnum : Nat) : SpawnM Int := do
  let _ ← sys (.close fdnum)
  let _ ← word 0
  return -E_NOT_EXEC

/-- `spawn` from `sys_exofork` on. -/
def spawnChild (fuel : Nat) (argv : List CStr) (fdnum : Nat) : SpawnM Int := do
  let e ← sys .exofork
  if e < 0 then return e
  else
    let child := e.toNat
    let _ ← word 24
    let r ← initStackCalls child argv
    if r < 0 then return r
    else
      let phoff ← word 28
      let phnum ← word 44
      let r ← mapHeaders fuel child fdnum (phnum.toNat % 2 ^ 16) phoff
      if r < 0 then
        let _ ← sys (.destroy child)
        let _ ← sys (.close fdnum)
        return r
      else
        let _ ← sys (.close fdnum)
        if (← sys (.copyShared child)) < 0 then panic "copy_shared_pages"
        else if (← sys (.setTrapframe child)) < 0 then panic "sys_env_set_trapframe"
        else if (← sys (.setStatus child)) < 0 then panic "sys_env_set_status"
        else return child

def spawn (fuel : Nat) (argv : List CStr) : SpawnM Int := do
  let r ← sys .open
  if r < 0 then return r
  else
    let fdnum := r.toNat
    if (← sys (.readHeader fdnum)) ≠ ELF_BUF then notExec fdnum
    else if (← word 0) ≠ ELF_MAGIC then notExec fdnum
    else spawnChild fuel argv fdnum

/-! ## What a run leaves -/

/-- The calls after whose failure something stays behind. -/
def Call.Harmful : Call → Prop
  | .exofork | .stackAlloc | .stackMap _ | .stackUnmap | .seek _ _ | .readSegment _ _ => True
  | _ => False

/-- The calls that get a page for a segment. -/
def Call.Segment : Call → Prop
  | .segAlloc _ _ | .segAllocTemp => True
  | _ => False

/-- No harmful call has failed. -/
def Quiet (w : World) : Prop := ∀ ev ∈ w.events, ev.call.Harmful → 0 ≤ ev.ret

/-- There was no page for a segment. -/
def NoPage (w : World) : Prop := ∃ ev ∈ w.events, ev.call.Segment ∧ ev.ret < 0

def Forked (w : World) : Prop := ∃ ev ∈ w.events, ev.call = .exofork

/-- The words of a program header that are looked at lie in `elf_buf`. -/
def HeaderFits (x : Given) (ph : Word) : Prop :=
  InBuf ph ∧ (x.word ph = ELF_PROG_LOAD → ph.toNat + 28 ≤ ELF_BUF)

/-- So they do in every turn of the loop. -/
def HeadersFit (x : Given) (w : World) : Prop :=
  ∀ i < w.turns, HeaderFits x (x.word 28 + 32 * BitVec.ofNat 32 i)

/-- The reads of headers are in `elf_buf`. -/
def ReadsInside (w : World) : Prop := ∀ o ∈ w.reads, InBuf o

/-- Nothing stays behind. -/
structure TidyExit (argv : List CStr) (c : Caller) (w : World) : Prop where
  quiet : Quiet w
  args : Forked w → ¬ Refused argv
  temp : NoPage w → c.utemp = .empty

section

variable {x : Given} {w w' : World} {c : Caller} {α : Type} {Q : α → World → Prop} {E : World → Prop}

theorem sat_sys {call : Call} {f : Int → SpawnM α} : (sys call >>= f).Sat (kernel x) w Q E ↔
    (f (w.ret x call)).Sat (kernel x) (w.after x call) Q E := Iff.rfl

theorem sat_word {o : Word} {f : Word → SpawnM α} : (word o >>= f).Sat (kernel x) w Q E ↔
    (f (x.word o)).Sat (kernel x) { w with reads := o :: w.reads } Q E := Iff.rfl

theorem sat_turn {f : Unit → SpawnM α} : (turn >>= f).Sat (kernel x) w Q E ↔
    (f ()).Sat (kernel x) { w with turns := w.turns + 1 } Q E := Iff.rfl

theorem sat_panic {msg : String} : (panic msg : SpawnM α).Sat (kernel x) w Q E ↔ E w := Iff.rfl

theorem quiet_after (call : Call) : Quiet (w.after x call) ↔ (call.Harmful → 0 ≤ w.ret x call) ∧ Quiet w :=
  List.forall_mem_cons

theorem noPage_after (call : Call) : NoPage (w.after x call) ↔ call.Segment ∧ w.ret x call < 0 ∨ NoPage w := by
  simp [NoPage, World.after]

theorem forked_after (call : Call) : Forked (w.after x call) ↔ call = .exofork ∨ Forked w := by
  simp [Forked, World.after]

/-- `Calm`: nothing has failed since the environment was made. -/
structure Calm (c : Caller) (w : World) : Prop where
  caller : w.caller = c
  quiet : Quiet w
  pages : ¬ NoPage w
  forked : Forked w

/-- The calls do not touch the headers. -/
structure Same (w w' : World) : Prop where
  reads : w'.reads = w.reads
  turns : w'.turns = w.turns

theorem Same.trans {w'' : World} (h : Same w w') (h' : Same w' w'') : Same w w'' :=
  ⟨h'.reads.trans h.reads, h'.turns.trans h.turns⟩

theorem same_after (w : World) (call : Call) : Same w (w.after x call) := ⟨rfl, rfl⟩

/-- How the segments end: all of them are there, there is no page for one, or it cannot be read. -/
inductive Ended (c : Caller) : Int → World → Prop
  | done {r : Int} {w : World} (h0 : 0 ≤ r) (h : Calm c w) : Ended c r w
  | noPage {r : Int} {w : World} (h0 : r < 0) (hc : w.caller = c) (hq : Quiet w) (hp : NoPage w) (hf : Forked w) :
      Ended c r w
  | unread {r : Int} {w : World} (h0 : r < 0) (ht : w.caller.utemp = .new) (hq : ¬ Quiet w) : Ended c r w

/-- A call fails and changes nothing, or does what it should. -/
theorem either_cases (a : Answer) (c : Caller) (done : Int × Caller) :
    (∃ e < 0, a.either c done = (e, c)) ∨ a.either c done = done := by
  unfold Answer.either
  cases a.err with
  | none => exact .inr rfl
  | some e => exact .inl ⟨e, e.2, rfl⟩

/-- A call that cannot fail. -/
theorem Calm.after (call : Call) {c' : Caller} (h : Calm c w) (hret : call.Harmful ∨ call.Segment → 0 ≤ w.ret x call)
    (hc : (w.after x call).caller = c') : Calm c' (w.after x call) where
  caller := hc
  quiet := (quiet_after call).mpr ⟨fun hh => hret (.inl hh), h.quiet⟩
  pages := fun hp => ((noPage_after call).mp hp).elim (fun hs => (hret (.inr hs.1)).not_gt hs.2) h.pages
  forked := (forked_after call).mpr (.inr h.forked)

/-- The call for a page of a segment. -/
theorem Calm.segment (call : Call) {done : Int × Caller} (h : Calm c w) (hseg : call.Segment) (hno : ¬ call.Harmful)
    (hcall : ∀ a, (∃ e < 0, w.caller.call a call = (e, w.caller)) ∨ w.caller.call a call = done) (hdone : done.1 = 0) :
    (w.ret x call < 0 ∧ Ended c (w.ret x call) (w.after x call)) ∨
      w.ret x call = 0 ∧ Calm done.2 (w.after x call) := by
  have hquiet : Quiet (w.after x call) := (quiet_after call).mpr ⟨fun hh => absurd hh hno, h.quiet⟩
  have hforked : Forked (w.after x call) := (forked_after call).mpr (.inr h.forked)
  rcases hcall (x.answers w.events.length) with ⟨e, he, heq⟩ | heq
  · have hret : w.ret x call = e := congrArg Prod.fst heq
    have hcaller : (w.after x call).caller = w.caller := congrArg Prod.snd heq
    refine .inl ⟨hret ▸ he, .noPage (hret ▸ he) (hcaller.trans h.caller) hquiet ?_ hforked⟩
    exact (noPage_after call).mpr (.inl ⟨hseg, hret ▸ he⟩)
  · have hret : w.ret x call = 0 := (congrArg Prod.fst heq).trans hdone
    refine .inr ⟨hret, congrArg Prod.snd heq, hquiet, fun hp => ?_, hforked⟩
    rcases (noPage_after call).mp hp with ⟨-, hlt⟩ | hp
    · omega
    · exact h.pages hp

/-- The descriptor is open. -/
theorem Calm.seek {fdnum : Nat} (h : Calm c w) (o : Word) (hfd : c.fds fdnum = true) :
    w.ret x (.seek fdnum o) = 0 ∧ Calm c (w.after x (.seek fdnum o)) := by
  have hcall : ∀ a, w.caller.call a (.seek fdnum o) = (0, c) := by
    intro a
    rw [h.caller]
    exact if_pos hfd
  have hret : w.ret x (.seek fdnum o) = 0 := congrArg Prod.fst (hcall _)
  exact ⟨hret, h.after _ (fun _ => Int.le_of_eq hret.symm) (congrArg Prod.snd (hcall _))⟩

/-- A call that changes nothing. -/
theorem Calm.either {call : Call} (h : Calm c w)
    (hcall : ∀ a, (∃ e < 0, c.call a call = (e, c)) ∨ ∃ r ≥ 0, c.call a call = (r, c)) :
    w.ret x call < 0 ∧ (w.after x call).caller = c ∨ 0 ≤ w.ret x call ∧ Calm c (w.after x call) := by
  have hw := h.caller
  rcases hcall (x.answers w.events.length) with ⟨e, he, heq⟩ | ⟨r, hr, heq⟩
  all_goals rw [← hw] at heq
  · have hret : w.ret x call = e := congrArg Prod.fst heq
    exact .inl ⟨hret ▸ he, (congrArg Prod.snd heq).trans hw⟩
  · have hret : w.ret x call = r := congrArg Prod.fst heq
    exact .inr ⟨hret ▸ hr, h.after _ (fun _ => hret ▸ hr) ((congrArg Prod.snd heq).trans hw)⟩

theorem call_readSegment (a : Answer) (c : Caller) (fdnum : Nat) (n : Word) :
    (∃ e < 0, c.call a (.readSegment fdnum n) = (e, c)) ∨ ∃ r ≥ 0, c.call a (.readSegment fdnum n) = (r, c) :=
  (either_cases a c (a.count, c)).imp id fun h => ⟨a.count, Int.natCast_nonneg _, h⟩

theorem call_segMap (a : Answer) (c : Caller) (child : Nat) (va : Word) :
    (∃ e < 0, c.call a (.segMap child va) = (e, c)) ∨ ∃ r ≥ 0, c.call a (.segMap child va) = (r, c) := by
  unfold Caller.call
  simp only
  split
  · exact .inl ⟨-E_INVAL, by decide, rfl⟩
  · exact (either_cases a c (0, c)).imp id fun h => ⟨0, Int.le_refl 0, h⟩

theorem call_stackMap (a : Answer) (c : Caller) (child : Nat) :
    (∃ e < 0, c.call a (.stackMap child) = (e, c)) ∨ ∃ r ≥ 0, c.call a (.stackMap child) = (r, c) :=
  (either_cases a c (0, c)).imp id fun h => ⟨0, Int.le_refl 0, h⟩

theorem mapPages_sat {child fdnum : Nat} {va memsz filesz fileoffset i : Word} {n : Nat} (h : Calm c w)
    (hfd : c.fds fdnum = true) (ht : c.utemp = .empty) :
    (mapPages child fdnum va memsz filesz fileoffset n i).Sat (kernel x) w
      (fun r w' => Ended c r w' ∧ Same w w') fun w' => Quiet w' ∧ ¬ NoPage w' ∧ Same w w' := by
  induction n generalizing i w with
  | zero => exact ⟨h.quiet, h.pages, rfl, rfl⟩
  | succ n ih =>
      rw [mapPages]
      split
      · split
        · -- a blank page
          rw [sat_sys]
          have hcall : ∀ a, (∃ e < 0, w.caller.call a (.segAlloc child (va + i)) = (e, w.caller)) ∨
              w.caller.call a (.segAlloc child (va + i)) = (0, w.caller) := by
            intro a
            unfold Caller.call
            simp only
            split
            · exact .inl ⟨-E_INVAL, by decide, rfl⟩
            · exact either_cases ..
          rcases h.segment (.segAlloc child (va + i)) trivial id hcall rfl with ⟨hlt, hend⟩ | ⟨hret, h1⟩
          · rw [if_pos hlt]
            exact ⟨hend, same_after ..⟩
          · rw [hret, if_neg (by decide)]
            rw [h.caller] at h1
            exact (ih h1).mono (fun r w' hw => ⟨hw.1, (same_after ..).trans hw.2⟩)
              fun w' hw => ⟨hw.1, hw.2.1, (same_after ..).trans hw.2.2⟩
        · -- from the file
          rw [sat_sys]
          have hcall : ∀ a, (∃ e < 0, w.caller.call a .segAllocTemp = (e, w.caller)) ∨
              w.caller.call a .segAllocTemp = (0, { w.caller with utemp := .new }) := fun a => either_cases ..
          rcases h.segment .segAllocTemp trivial id hcall rfl with ⟨hlt, hend⟩ | ⟨hret, h1⟩
          · rw [if_pos hlt]
            exact ⟨hend, same_after ..⟩
          · rw [h.caller] at h1
            rw [hret, if_neg (by decide), sat_sys]
            obtain ⟨hseek, h2⟩ := h1.seek (x := x) (fileoffset + i) hfd
            rw [hseek, if_neg (by decide), sat_sys]
            generalize (if PGSIZE ≤ filesz - i then PGSIZE else filesz - i) = len
            rcases h2.either fun a => call_readSegment a _ fdnum len with ⟨hlt, hw3⟩ | ⟨hge, h3⟩
            · rw [if_pos hlt]
              refine ⟨.unread hlt (congrArg Caller.utemp hw3) fun hq => ?_, rfl, rfl⟩
              exact (((quiet_after _).mp hq).1 trivial).not_gt hlt
            · rw [if_neg hge.not_gt, sat_sys]
              rcases h3.either fun a => call_segMap a _ child (va + i) with ⟨hlt, -⟩ | ⟨hge, h4⟩
              · rw [if_pos hlt, sat_panic]
                refine ⟨(quiet_after _).mpr ⟨fun hh => hh.elim, h3.quiet⟩, fun hp => ?_, rfl, rfl⟩
                exact ((noPage_after _).mp hp).elim (fun hs => hs.1.elim) h3.pages
              · rw [if_neg hge.not_gt, sat_sys]
                have hempty : { c with utemp := .empty } = c := by rw [← ht]
                have h5 := h4.after (x := x) .segUnmap (fun hh => (hh.elim id id).elim)
                  ((congrArg (fun k : Caller => { k with utemp := .empty }) h4.caller).trans hempty)
                exact (ih h5).mono (fun r w' hw => ⟨hw.1, hw.2.reads, hw.2.turns⟩)
                  fun w' hw => ⟨hw.1, hw.2.1, hw.2.2.reads, hw.2.2.turns⟩
      · exact ⟨.done (Int.le_refl 0) h, rfl, rfl⟩

/-- The reads of the headers up to a turn. -/
theorem headersFit_turn {ph : Word} {w' : World} (hph : ph = x.word 28 + 32 * BitVec.ofNat 32 w.turns)
    (hturns : w'.turns = w.turns + 1) (hin : ReadsInside w ↔ HeadersFit x w)
    (hreads : ReadsInside w' ↔ HeaderFits x ph ∧ ReadsInside w) : ReadsInside w' ↔ HeadersFit x w' := by
  rw [hreads, hin, HeadersFit, HeadersFit, hturns, hph]
  constructor
  · rintro ⟨hlast, hall⟩ i hi
    rcases Nat.lt_succ_iff_lt_or_eq.mp hi with hlt | rfl
    · exact hall i hlt
    · exact hlast
  · intro hall
    exact ⟨hall _ (Nat.lt_succ_self _), fun i hi => hall i (Nat.lt_succ_of_lt hi)⟩

theorem Same.inside {w' : World} (h : Same w w') : (ReadsInside w' ↔ HeadersFit x w') ↔ (ReadsInside w ↔ HeadersFit x w) := by
  unfold ReadsInside HeadersFit
  rw [h.reads, h.turns]

/-- The fields of a loadable segment. -/
theorem inBuf_fields {ph : Word} (h : InBuf ph) : ph.toNat + 28 ≤ ELF_BUF ↔
    InBuf (ph + 4) ∧ InBuf (ph + 16) ∧ InBuf (ph + 20) ∧ InBuf (ph + 8) ∧ InBuf (ph + 24) := by
  unfold InBuf ELF_BUF at *
  have hadd : ∀ k : Word, k.toNat ≤ 24 → (ph + k).toNat = ph.toNat + k.toNat := fun k hk => by
    rw [BitVec.toNat_add, Nat.mod_eq_of_lt (by omega)]
  rw [hadd 4 (by decide), hadd 16 (by decide), hadd 20 (by decide), hadd 8 (by decide), hadd 24 (by decide),
    show (4 : Word).toNat = 4 from rfl, show (16 : Word).toNat = 16 from rfl, show (20 : Word).toNat = 20 from rfl,
    show (8 : Word).toNat = 8 from rfl, show (24 : Word).toNat = 24 from rfl]
  omega

theorem mapHeaders_sat {fuel child fdnum n : Nat} {ph : Word} (h : Calm c w) (hfd : c.fds fdnum = true)
    (ht : c.utemp = .empty) (hph : ph = x.word 28 + 32 * BitVec.ofNat 32 w.turns)
    (hin : ReadsInside w ↔ HeadersFit x w) :
    (mapHeaders fuel child fdnum n ph).Sat (kernel x) w
      (fun r w' => Ended c r w' ∧ (ReadsInside w' ↔ HeadersFit x w'))
      fun w' => Quiet w' ∧ ¬ NoPage w' ∧ (ReadsInside w' ↔ HeadersFit x w') := by
  induction n generalizing ph w with
  | zero => exact ⟨.done (Int.le_refl 0) h, hin⟩
  | succ n ih =>
      rw [mapHeaders, sat_turn, sat_word]
      have hnext : ph + 32 = x.word 28 + 32 * BitVec.ofNat 32 (w.turns + 1) := by
        rw [hph, BitVec.ofNat_add, BitVec.mul_add, BitVec.add_assoc]
        rfl
      split
      · -- not loaded
        rename_i hskip
        refine ih ⟨h.caller, h.quiet, h.pages, h.forked⟩ hnext (headersFit_turn (w := w) hph rfl hin ?_)
        exact List.forall_mem_cons.trans (and_congr_left' ⟨fun hb => ⟨hb, fun heq => absurd heq hskip⟩, And.left⟩)
      · rename_i hload
        rw [ne_eq, not_not] at hload
        simp only [sat_word]
        generalize x.word (ph + 8) = va
        generalize x.word (ph + 20) = memsz
        generalize x.word (ph + 16) = filesz
        generalize x.word (ph + 4) = offset
        generalize hw1 : World.mk w.caller w.events ((ph + 4) :: (ph + 16) :: (ph + 20) :: (ph + 8) :: (ph + 24) ::
          ph :: w.reads) (w.turns + 1) = w1
        have h1 : Calm c w1 := by
          subst hw1
          exact ⟨h.caller, h.quiet, h.pages, h.forked⟩
        have hin1 : ReadsInside w1 ↔ HeadersFit x w1 := by
          subst hw1
          refine headersFit_turn (w := w) hph rfl hin ?_
          simp only [ReadsInside, HeaderFits, List.forall_mem_cons, hload, true_imp_iff]
          constructor
          · rintro ⟨h4, h16, h20, h8, h24, h0, hrest⟩
            exact ⟨⟨h0, (inBuf_fields h0).mpr ⟨h4, h16, h20, h8, h24⟩⟩, hrest⟩
          · rintro ⟨⟨h0, hall⟩, hrest⟩
            obtain ⟨h4, h16, h20, h8, h24⟩ := (inBuf_fields h0).mp hall
            exact ⟨h4, h16, h20, h8, h24, h0, hrest⟩
        have hturns : w1.turns = w.turns + 1 := hw1 ▸ rfl
        refine Prog.Sat.bind ((mapPages_sat h1 hfd ht).mono (fun _ _ => id) fun w' hw => ?_) fun r w' hw => ?_
        · exact ⟨hw.1, hw.2.1, hw.2.2.inside.mpr hin1⟩
        · obtain ⟨hend, hsame⟩ := hw
          have hin' := hsame.inside.mpr hin1
          cases hend with
          | done h0 hcalm =>
              rw [if_neg h0.not_gt]
              exact ih hcalm (by rw [hsame.turns, hturns, hnext]) hin'
          | noPage h0 hc hq hp hf =>
              rw [if_pos h0]
              exact ⟨.noPage h0 hc hq hp hf, hin'⟩
          | unread h0 hu hq =>
              rw [if_pos h0]
              exact ⟨.unread h0 hu hq, hin'⟩

theorem ret_stackUnmap (w : World) : w.ret x .stackUnmap = 0 := rfl

/-- `init_stack`: it refuses the arguments, a call fails, or `UTEMP` is free again. -/
theorem initStackCalls_sat {child : Nat} {argv : List CStr} (h : Calm c w) :
    (initStackCalls child argv).Sat (kernel x) w
      (fun r w' => Same w w' ∧ (r < 0 ∧ (Refused argv ∨ ¬ Quiet w') ∧ Forked w' ∧ w'.caller.fds = c.fds ∨
        r = 0 ∧ ¬ Refused argv ∧ Calm { c with utemp := .empty } w'))
      fun w' => Same w w' ∧ Quiet w' ∧ ¬ NoPage w' ∧ ¬ Refused argv := by
  by_cases href : Refused argv
  · rw [initStackCalls, if_pos href]
    have hneg : -E_NO_MEM < 0 := by decide
    have hf := congrArg Caller.fds h.caller
    exact ⟨⟨rfl, rfl⟩, .inl ⟨hneg, .inl href, h.forked, hf⟩⟩
  · rw [initStackCalls, if_neg href, sat_sys]
    rcases either_cases (x.answers w.events.length) w.caller (0, { w.caller with utemp := .new }) with
      ⟨e, he, heq⟩ | heq
    · -- no page for the stack
      have hret : w.ret x .stackAlloc = e := congrArg Prod.fst heq
      have hcaller : (w.after x .stackAlloc).caller = w.caller := congrArg Prod.snd heq
      rw [hret, if_pos he]
      refine ⟨⟨rfl, rfl⟩, .inl ⟨he, .inr fun hq => ?_, (forked_after _).mpr (.inr h.forked), ?_⟩⟩
      · exact ((((quiet_after _).mp hq).1 trivial).trans_eq hret).not_gt he
      · rw [hcaller, h.caller]
    · have hret : w.ret x .stackAlloc = 0 := congrArg Prod.fst heq
      have h1 : Calm { c with utemp := .new } (w.after x .stackAlloc) := by
        refine h.after _ (fun _ => Int.le_of_eq hret.symm) ((congrArg Prod.snd heq).trans ?_)
        rw [h.caller]
      rw [hret, if_neg (by decide)]
      by_cases hfault : Faults argv
      · rw [if_pos hfault]
        exact ⟨⟨rfl, rfl⟩, h1.quiet, h1.pages, href⟩
      · rw [if_neg hfault, sat_sys]
        rcases h1.either fun a => call_stackMap a _ child with ⟨hlt, hc⟩ | ⟨hge, h2⟩
        · rw [if_pos hlt, sat_sys]
          have hfds := congrArg Caller.fds hc
          refine ⟨⟨rfl, rfl⟩, .inl ⟨hlt, .inr fun hq => ?_, ?_, hfds⟩⟩
          · exact (((quiet_after _).mp ((quiet_after _).mp hq).2).1 trivial).not_gt hlt
          · exact (forked_after _).mpr (.inr ((forked_after _).mpr (.inr h1.forked)))
        · rw [if_neg hge.not_gt, sat_sys, ret_stackUnmap, if_neg (by decide)]
          have h3 := h2.after (x := x) .stackUnmap (fun _ => Int.le_refl 0)
            (congrArg (fun k : Caller => { k with utemp := .empty }) h2.caller)
          exact ⟨⟨rfl, rfl⟩, .inr ⟨rfl, href, h3⟩⟩

end

/-! ## `spawn` -/

/-- The world before the call. -/
def World.start (fds : Nat → Bool) (mapped : Bool) (envFree : List Nat) : World :=
  ⟨⟨fds, if mapped then .before else .empty, envFree⟩, [], [], 0⟩

/-- Headers are read from `elf_buf` only, and after a negative return value the caller has what it had. -/
def Tidy (c : Caller) (r : Except String Int) (w : World) : Prop :=
  ReadsInside w ∧ ∀ e, r = .ok e → e < 0 → w.caller = c

/-- A run that returns is tidy when its exit is. -/
structure Returned (x : Given) (argv : List CStr) (c : Caller) (r : Int) (w : World) : Prop where
  reads : ReadsInside w ↔ HeadersFit x w
  failed : r < 0 → (w.caller = c ↔ TidyExit argv c w)
  done : 0 ≤ r → TidyExit argv c w

/-- A run that panics. -/
structure Panicked (x : Given) (argv : List CStr) (c : Caller) (w : World) : Prop where
  reads : ReadsInside w ↔ HeadersFit x w
  tidy : TidyExit argv c w

section

variable {x : Given} {w w' : World} {c : Caller} {fuel : Nat} {argv : List CStr}

/-- The descriptor of the program is still open. -/
theorem Returned.of_leak {r : Int} {fdnum : Nat} (h0 : r < 0) (hin : ReadsInside w ↔ HeadersFit x w)
    (hfd : c.fds fdnum = false) (hopen : w.caller.fds fdnum = true) (hleft : ¬ TidyExit argv c w) :
    Returned x argv c r w where
  reads := hin
  failed := fun _ => iff_of_false (fun heq => by rw [heq, hfd] at hopen; cases hopen) hleft
  done := fun h => absurd h0 h.not_gt

theorem TidyExit.after (h : TidyExit argv c w) (call : Call) (hh : ¬ call.Harmful) (hs : ¬ call.Segment)
    (hf : call ≠ .exofork) : TidyExit argv c (w.after x call) where
  quiet := (quiet_after call).mpr ⟨fun h => absurd h hh, h.quiet⟩
  args := fun hf' => h.args (((forked_after call).mp hf').resolve_left hf)
  temp := fun hp => h.temp (((noPage_after call).mp hp).resolve_left fun h => hs h.1)

/-- The calls that follow the segments. -/
theorem finish_sat {child : Nat} (hfit : ReadsInside w ↔ HeadersFit x w) (htidy : TidyExit argv c w) :
    (do
      if (← sys (.copyShared child)) < 0 then panic "copy_shared_pages"
      else if (← sys (.setTrapframe child)) < 0 then panic "sys_env_set_trapframe"
      else if (← sys (.setStatus child)) < 0 then panic "sys_env_set_status"
      else return (child : Int) : SpawnM Int).Sat (kernel x) w (Returned x argv c) (Panicked x argv c) := by
  have h1 := htidy.after (x := x) (.copyShared child) id id Call.noConfusion
  have h2 := h1.after (x := x) (.setTrapframe child) id id Call.noConfusion
  have h3 := h2.after (x := x) (.setStatus child) id id Call.noConfusion
  rw [sat_sys]
  split
  · exact ⟨hfit, h1⟩
  · rw [sat_sys]
    split
    · exact ⟨hfit, h2⟩
    · rw [sat_sys]
      split
      · exact ⟨hfit, h3⟩
      · exact ⟨hfit, fun h => absurd h (Int.natCast_nonneg child).not_gt, fun _ => h3⟩

theorem spawnChild_sat {fdnum : Nat} (hc : w.caller = { c with fds := Function.update c.fds fdnum true })
    (hfd : c.fds fdnum = false) (ht : c.utemp ≠ .new) (hq : Quiet w) (hp : ¬ NoPage w)
    (hin : ReadsInside w) (hturns : w.turns = 0) :
    (spawnChild fuel argv fdnum).Sat (kernel x) w (Returned x argv c) (Panicked x argv c) := by
  have hin0 : ReadsInside w ↔ HeadersFit x w :=
    iff_of_true hin fun i hi => absurd (hturns ▸ hi) (Nat.not_lt_zero i)
  have hopen : w.caller.fds fdnum = true := by
    rw [hc]
    exact Function.update_self ..
  unfold spawnChild
  rw [sat_sys]
  have hfork : (∃ e < 0, w.caller.call (x.answers w.events.length) .exofork = (e, w.caller)) ∨
      ∃ (e : Nat) (rest : List Nat), c.envFree = e :: rest ∧ w.caller.call (x.answers w.events.length) .exofork =
        ((e : Int), { w.caller with envFree := rest }) := by
    have hfree : w.caller.envFree = c.envFree := by rw [hc]
    unfold Caller.call
    simp only
    rw [hfree]
    cases c.envFree with
    | nil => exact .inl ⟨-E_NO_FREE_ENV, by decide, rfl⟩
    | cons e rest => exact (either_cases _ _ _).imp id fun h => ⟨e, rest, rfl, h⟩
  rcases hfork with ⟨e, he, heq⟩ | ⟨e, rest, hfree, heq⟩
  · -- no environment
    have hret : w.ret x .exofork = e := congrArg Prod.fst heq
    rw [hret, if_pos he]
    refine .of_leak he hin0 hfd ((congrArg (fun k => k.2.fds fdnum) heq).trans hopen) fun htidy => ?_
    exact ((((quiet_after _).mp htidy.quiet).1 trivial).trans_eq hret).not_gt he
  · have hret : w.ret x .exofork = e := congrArg Prod.fst heq
    have hge : 0 ≤ w.ret x .exofork := hret ▸ Int.natCast_nonneg e
    have hcalm : Calm { fds := Function.update c.fds fdnum true, utemp := c.utemp, envFree := rest }
        (w.after x .exofork) := by
      refine ⟨(congrArg Prod.snd heq).trans (by rw [hc]), ?_, fun h => ?_, (forked_after _).mpr (.inl rfl)⟩
      · exact (quiet_after _).mpr ⟨fun _ => hge, hq⟩
      · exact ((noPage_after _).mp h).elim (fun hs => hs.1) hp
    rw [if_neg hge.not_gt, sat_word]
    have hcalm1 : Calm { fds := Function.update c.fds fdnum true, utemp := c.utemp, envFree := rest }
        { w.after x .exofork with reads := 24 :: (w.after x .exofork).reads } :=
      ⟨hcalm.caller, hcalm.quiet, hcalm.pages, hcalm.forked⟩
    have hin1 : ReadsInside { w.after x .exofork with reads := 24 :: (w.after x .exofork).reads } :=
      List.forall_mem_cons.mpr ⟨by decide, hin⟩
    rw [hret]
    refine Prog.Sat.bind ((initStackCalls_sat hcalm1).mono (fun _ _ => id) fun w1 h1 => ?_) fun r w1 h1 => ?_
    · obtain ⟨hsame, hq1, hp1, href⟩ := h1
      refine ⟨hsame.inside.mpr (iff_of_true hin1 fun i hi => ?_), hq1, fun _ => href, fun h => absurd h hp1⟩
      exact absurd (hturns ▸ hi) (Nat.not_lt_zero i)
    · obtain ⟨hsame, ⟨hneg, hwhy, hfork1, hfds⟩ | ⟨rfl, href, hcalm2⟩⟩ := h1
      · -- the stack
        rw [if_pos hneg]
        refine .of_leak hneg (hsame.inside.mpr (iff_of_true hin1 fun i hi => ?_)) hfd ?_ fun htidy => ?_
        · exact absurd (hturns ▸ hi) (Nat.not_lt_zero i)
        · rw [hfds]
          exact Function.update_self ..
        · exact hwhy.elim (htidy.args hfork1) fun hno => hno htidy.quiet
      · rw [if_neg (by decide), sat_word, sat_word]
        have hturns1 : w1.turns = 0 := hsame.turns.trans hturns
        have hin2 : ReadsInside w1 := fun o ho => hin1 o (hsame.reads ▸ ho)
        generalize hw2 : World.mk w1.caller w1.events (44 :: 28 :: w1.reads) w1.turns = w2
        have hcalm3 : Calm { fds := Function.update c.fds fdnum true, utemp := .empty, envFree := rest } w2 := by
          subst hw2
          exact ⟨hcalm2.caller, hcalm2.quiet, hcalm2.pages, hcalm2.forked⟩
        have hturns2 : w2.turns = 0 := hw2 ▸ hturns1
        have hin3 : ReadsInside w2 := by
          subst hw2
          exact List.forall_mem_cons.mpr ⟨by decide, List.forall_mem_cons.mpr ⟨by decide, hin2⟩⟩
        have hstart : x.word 28 = x.word 28 + 32 * BitVec.ofNat 32 w2.turns := by
          rw [hturns2]
          simp
        have hfit : ReadsInside w2 ↔ HeadersFit x w2 :=
          iff_of_true hin3 fun i hi => absurd (hturns2 ▸ hi) (Nat.not_lt_zero i)
        refine Prog.Sat.bind ((mapHeaders_sat hcalm3 (Function.update_self ..) rfl hstart hfit).mono (fun _ _ => id)
          fun w3 h3 => ?_) fun r w3 h3 => ?_
        · exact ⟨h3.2.2, h3.1, fun _ => href, fun h => absurd h h3.2.1⟩
        · obtain ⟨hend, hfit3⟩ := h3
          cases hend with
          | done h0 hcalm4 =>
              rw [if_neg h0.not_gt, sat_sys]
              have htidy : TidyExit argv c w3 := ⟨hcalm4.quiet, fun _ => href, fun h => absurd h hcalm4.pages⟩
              exact finish_sat hfit3 (htidy.after _ id id Call.noConfusion)
          | noPage h0 hc3 hq3 hp3 hf3 =>
              rw [if_pos h0, sat_sys, sat_sys]
              generalize hw5 : (w3.after x (.destroy (e : Int).toNat)).after x (.close fdnum) = w5
              have hcaller : w5.caller = { c with utemp := .empty } := by
                have hclose : Function.update (Function.update c.fds fdnum true) fdnum false = c.fds := by
                  rw [Function.update_idem, ← hfd, Function.update_eq_self]
                rw [← hw5]
                simp only [World.after, Caller.call, hc3, hclose, Int.toNat_natCast, ← hfree]
              have hpage : NoPage w5 := hw5 ▸ (noPage_after _).mpr (.inr ((noPage_after _).mpr (.inr hp3)))
              have htidy : TidyExit argv c w5 ↔ c.utemp = .empty := by
                refine ⟨fun h => h.temp hpage, fun h => ?_⟩
                have h3 : TidyExit argv c w3 := ⟨hq3, fun _ => href, fun _ => h⟩
                exact hw5 ▸ (h3.after _ id id Call.noConfusion).after _ id id Call.noConfusion
              refine ⟨hw5 ▸ hfit3, fun _ => ?_, fun h => absurd h0 h.not_gt⟩
              rw [hcaller, htidy]
              exact ⟨fun h => (congrArg Caller.utemp h).symm, fun h => by rw [← h]⟩
          | unread h0 hu hq3 =>
              rw [if_pos h0, sat_sys, sat_sys]
              refine ⟨hfit3, fun _ => iff_of_false (fun heq => ?_) fun htidy => ?_, fun h => absurd h0 h.not_gt⟩
              · exact ht ((congrArg Caller.utemp heq).symm.trans hu)
              · exact hq3 ((quiet_after _).mp ((quiet_after _).mp htidy.quiet).2).2

theorem fdAlloc_some {fds : Nat → Bool} {fdnum : Nat} (h : fdAlloc fds = some fdnum) : fds fdnum = false := by
  simpa using List.find?_some h

/-- A file that is no program is closed again. -/
theorem notExec_sat {fdnum : Nat} (hc : w.caller = { c with fds := Function.update c.fds fdnum true })
    (hfd : c.fds fdnum = false) (hin : ReadsInside w) (hturns : w.turns = 0) (htidy : TidyExit argv c w) :
    (notExec fdnum).Sat (kernel x) w (Returned x argv c) (Panicked x argv c) := by
  have hneg : -E_NOT_EXEC < 0 := by decide
  unfold notExec
  rw [sat_sys, sat_word]
  have htidy1 := htidy.after (x := x) (.close fdnum) id id Call.noConfusion
  have hclose : Function.update (Function.update c.fds fdnum true) fdnum false = c.fds := by
    rw [Function.update_idem, ← hfd, Function.update_eq_self]
  refine ⟨iff_of_true (List.forall_mem_cons.mpr ⟨by decide, hin⟩) fun i hi => ?_, fun _ => iff_of_true ?_ ?_,
    fun h => absurd h hneg.not_ge⟩
  · exact absurd (hturns ▸ hi) (Nat.not_lt_zero i)
  · simp only [World.after, Caller.call, hc, hclose]
  · exact ⟨htidy1.quiet, htidy1.args, htidy1.temp⟩

theorem spawn_sat (x : Given) (fuel : Nat) (argv : List CStr) (fds : Nat → Bool) (mapped : Bool) (envFree : List Nat) :
    (spawn fuel argv).Sat (kernel x) (World.start fds mapped envFree)
      (Returned x argv (World.start fds mapped envFree).caller)
      (Panicked x argv (World.start fds mapped envFree).caller) := by
  have ht : (World.start fds mapped envFree).caller.utemp ≠ .new := by
    cases mapped <;> exact Temp.noConfusion
  generalize hw : World.start fds mapped envFree = w at ht
  have hevents : w.events = [] := hw ▸ rfl
  have hreads : w.reads = [] := hw ▸ rfl
  have hturns : w.turns = 0 := hw ▸ rfl
  have hfit : ∀ {w' : World}, w'.turns = 0 → HeadersFit x w' := fun h0 i hi => absurd (h0 ▸ hi) (Nat.not_lt_zero i)
  have hin : ReadsInside w := fun o ho => by
    rw [hreads] at ho
    cases ho
  have hquiet : Quiet w := fun ev hev => by
    rw [hevents] at hev
    cases hev
  have hpage : ¬ NoPage w := by
    rintro ⟨ev, hev, -⟩
    rw [hevents] at hev
    cases hev
  have hfork : ¬ Forked w := by
    rintro ⟨ev, hev, -⟩
    rw [hevents] at hev
    cases hev
  have htidy : TidyExit argv w.caller w := ⟨hquiet, fun h => absurd h hfork, fun h => absurd h hpage⟩
  have hopen : (∃ e < 0, w.caller.call (x.answers w.events.length) .open = (e, w.caller)) ∨
      ∃ fdnum : Nat, w.caller.fds fdnum = false ∧ w.caller.call (x.answers w.events.length) .open =
        ((fdnum : Int), { w.caller with fds := Function.update w.caller.fds fdnum true }) := by
    unfold Caller.call
    simp only
    cases hfd : fdAlloc w.caller.fds with
    | none => exact .inl ⟨-E_MAX_OPEN, by decide, rfl⟩
    | some fdnum => exact (either_cases _ _ _).imp id fun h => ⟨fdnum, fdAlloc_some hfd, h⟩
  have htidy1 := htidy.after (x := x) .open id id Call.noConfusion
  unfold spawn
  rw [sat_sys]
  rcases hopen with ⟨e, he, heq⟩ | ⟨fdnum, hfd, heq⟩
  · have hret : w.ret x .open = e := congrArg Prod.fst heq
    rw [hret, if_pos he]
    exact ⟨iff_of_true hin (hfit hturns), fun _ => iff_of_true (congrArg Prod.snd heq) htidy1, fun _ => htidy1⟩
  · have hret : w.ret x .open = fdnum := congrArg Prod.fst heq
    have hcaller : (w.after x .open).caller = { w.caller with fds := Function.update w.caller.fds fdnum true } :=
      congrArg Prod.snd heq
    rw [hret, if_neg (Int.natCast_nonneg fdnum).not_gt, sat_sys, Int.toNat_natCast]
    have hkeep : ((w.after x .open).after x (.readHeader fdnum)).caller =
        { w.caller with fds := Function.update w.caller.fds fdnum true } := by
      rcases either_cases (x.answers (w.after x .open).events.length) (w.after x .open).caller
        ((x.answers (w.after x .open).events.length).count, (w.after x .open).caller) with ⟨e, -, hread⟩ | hread
      all_goals exact (congrArg Prod.snd hread).trans hcaller
    have htidy2 := htidy1.after (x := x) (.readHeader fdnum) id id Call.noConfusion
    split
    · exact notExec_sat hkeep hfd hin hturns htidy2
    · rw [sat_word]
      split
      · exact notExec_sat hkeep hfd (List.forall_mem_cons.mpr ⟨by decide, hin⟩) hturns
          ⟨htidy2.quiet, htidy2.args, htidy2.temp⟩
      · refine spawnChild_sat hkeep hfd ht htidy2.quiet (fun hp => ?_) (List.forall_mem_cons.mpr ⟨by decide, hin⟩) hturns
        rcases (noPage_after _).mp hp with ⟨hs, -⟩ | hp
        · exact hs
        · exact ((noPage_after _).mp hp).elim And.left hpage

/-- Nothing is left behind, and no header is read outside `elf_buf`, exactly when the headers that the
loop looks at lie there, no harmful call fails, the arguments fit once there is an environment, and
`UTEMP` was not in use when there is no page for a segment. -/
theorem spawn_tidy_iff (x : Given) (fuel : Nat) (argv : List CStr) (fds : Nat → Bool) (mapped : Bool) (envFree : List Nat) :
    Tidy (World.start fds mapped envFree).caller ((spawn fuel argv).run (kernel x) (World.start fds mapped envFree)).1
        ((spawn fuel argv).run (kernel x) (World.start fds mapped envFree)).2 ↔
      HeadersFit x ((spawn fuel argv).run (kernel x) (World.start fds mapped envFree)).2 ∧
        TidyExit argv (World.start fds mapped envFree).caller
          ((spawn fuel argv).run (kernel x) (World.start fds mapped envFree)).2 := by
  have hsat := spawn_sat x fuel argv fds mapped envFree
  rcases hrun : (spawn fuel argv).run (kernel x) (World.start fds mapped envFree) with ⟨msg | r, w'⟩
  · have h := Prog.sat_error hsat hrun
    exact and_congr h.reads (iff_of_true (fun e he => by cases he) h.tidy)
  · have h := Prog.sat_ok hsat hrun
    refine and_congr h.reads ⟨fun hall => ?_, fun htidy e he hlt => ?_⟩
    · rcases lt_or_ge r 0 with hlt | hge
      · exact (h.failed hlt).mp (hall r rfl hlt)
      · exact h.done hge
    · cases he
      exact (h.failed hlt).mpr htidy

end

/-- A header of a program, and calls that succeed. -/
def sampleGiven : Given where
  buf := fun i => if i = 0 then 0x7F else if i = 1 then 0x45 else if i = 2 then 0x4C else if i = 3 then 0x46 else 0
  outside := fun _ => 0
  answers := fun _ => ⟨none, 512⟩

/-- Without a free environment the descriptor of the program stays open. -/
theorem spawn_leaks_descriptor : ¬ ∀ (x : Given) (fuel : Nat) (argv : List CStr) (fds : Nat → Bool) (mapped : Bool)
    (envFree : List Nat), Tidy (World.start fds mapped envFree).caller
      ((spawn fuel argv).run (kernel x) (World.start fds mapped envFree)).1
      ((spawn fuel argv).run (kernel x) (World.start fds mapped envFree)).2 := by
  intro hall
  have htidy := hall sampleGiven 0 [] (fun _ => false) false []
  have hrun : ((spawn 0 []).run (kernel sampleGiven) (World.start (fun _ => false) false [])).1 =
      .ok (-E_NO_FREE_ENV) := rfl
  have hopen : ((spawn 0 []).run (kernel sampleGiven) (World.start (fun _ => false) false [])).2.caller.fds 0 = true :=
    rfl
  have hsame := htidy.2 _ hrun (by decide)
  rw [hsame] at hopen
  cases hopen

end SisOp.User.Spawn
