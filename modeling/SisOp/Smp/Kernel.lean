/-
# `SisOp.Smp.Kernel` — the big kernel lock and the CPUs that take it

Each CPU follows the calls of `lock_kernel` and `unlock_kernel` in kern/init.c, trap.c,
sched.c and env.c: it is woken, enters the scheduler, leaves the kernel for an environment
or to halt, and comes back through `trap`, which tells from `cpu_status` and from the
saved %cs whether it has the lock already.  `KInv` says what a CPU has at each place, so
no `holding` test ever fails and at most one CPU runs kernel code under the lock
(`kernel_serial`); what is left of the code's other steps is a kernel datum read or
written there.
-/
import SisOp.Smp.Mutex

set_option linter.unusedSectionVars false

namespace SisOp.Smp

open SisOp.Lib

/-! ## The code around the lock -/

/-- `cpu_status`. -/
inductive Status
  | CPU_UNUSED
  | CPU_STARTED
  | CPU_HALTED
  deriving DecidableEq

/-- Where a CPU is.  In `trapped` and `tested` the flag is `(tf_cs & 3) == 3`; the
lock functions are entered with where they return to. -/
inductive Where
  | asleep
  | locking (next : Where)
  | trapped (fromUser : Bool)
  | tested (fromUser : Bool)
  | kernel
  | unlocking (next : Where)
  | user
  | halted

variable {κ δ : Type} [DecidableEq κ] [DecidableEq δ]

/-- The lock's state, and each CPU's place and `cpu_status`. -/
structure KState (κ δ : Type) where
  lock : State κ δ
  place : κ → Where
  status : κ → Status

/-- CPU `c` goes on at `w` with `cpu_status` `st`. -/
def KState.move (s : KState κ δ) (t : State κ δ) (c : κ) (w : Where) (st : Status) : KState κ δ where
  lock := t
  place := Function.update s.place c w
  status := Function.update s.status c st

/-- An event inside `spin_lock` or `spin_unlock`, or of a store buffer. -/
def Inner : Event κ δ → Prop
  | .tau _ | .flush _ | .goSpin _ | .lockPanic _ | .acquire _ _ | .mayUnlock _ | .unlockPanic _ => True
  | _ => False

/-- One step of one CPU. -/
inductive KStep (cpus : Cpus κ) : KState κ δ → Event κ δ → KState κ δ → Prop
  | inner {s : KState κ δ} {e : Event κ δ} {t : State κ δ} (he : Inner e) (hs : Step cpus s.lock e t) :
      KStep cpus s e { s with lock := t }
  -- i386_init, and mp_main after its xchg(&thiscpu->cpu_status, CPU_STARTED)
  | wake {s : KState κ δ} {c : κ} {t : State κ δ} (hw : s.place c = .asleep)
      (hs : Step cpus s.lock (.callLock c) t) :
      KStep cpus s (.callLock c) (s.move t c (.locking .kernel) .CPU_STARTED)
  | enter {s : KState κ δ} {c : κ} {t : State κ δ} {next : Where} (hw : s.place c = .locking next)
      (hs : Step cpus s.lock (.locked c) t) :
      KStep cpus s (.locked c) (s.move t c next (s.status c))
  -- an interrupt, a system call or a fault; in the kernel only a fault
  | trapUser {s : KState κ δ} {c : κ} (hw : s.place c = .user) :
      KStep cpus s (.tau c) (s.move s.lock c (.trapped true) (s.status c))
  | trapHalted {s : KState κ δ} {c : κ} (hw : s.place c = .halted) :
      KStep cpus s (.tau c) (s.move s.lock c (.trapped false) (s.status c))
  | trapKernel {s : KState κ δ} {c : κ} (hw : s.place c = .kernel) :
      KStep cpus s (.tau c) (s.move s.lock c (.trapped false) (s.status c))
  -- if (xchg(&thiscpu->cpu_status, CPU_STARTED) == CPU_HALTED) lock_kernel()
  | wasHalted {s : KState κ δ} {c : κ} {t : State κ δ} {u : Bool} (hw : s.place c = .trapped u)
      (hbuf : s.lock.tso.buf c = []) (h : s.status c = .CPU_HALTED)
      (hs : Step cpus s.lock (.callLock c) t) :
      KStep cpus s (.callLock c) (s.move t c (.locking (.tested u)) .CPU_STARTED)
  | wasStarted {s : KState κ δ} {c : κ} {u : Bool} (hw : s.place c = .trapped u)
      (hbuf : s.lock.tso.buf c = []) (h : s.status c ≠ .CPU_HALTED) :
      KStep cpus s (.tau c) (s.move s.lock c (.tested u) .CPU_STARTED)
  -- if ((tf->tf_cs & 3) == 3) lock_kernel()
  | fromUser {s : KState κ δ} {c : κ} {t : State κ δ} (hw : s.place c = .tested true)
      (hs : Step cpus s.lock (.callLock c) t) :
      KStep cpus s (.callLock c) (s.move t c (.locking .kernel) (s.status c))
  | fromKernel {s : KState κ δ} {c : κ} (hw : s.place c = .tested false) :
      KStep cpus s (.tau c) (s.move s.lock c .kernel (s.status c))
  -- env_run: unlock_kernel(), then env_pop_tf
  | env_run {s : KState κ δ} {c : κ} {t : State κ δ} (hw : s.place c = .kernel)
      (hs : Step cpus s.lock (.callUnlock c) t) :
      KStep cpus s (.callUnlock c) (s.move t c (.unlocking .user) (s.status c))
  -- sched_halt: xchg(&thiscpu->cpu_status, CPU_HALTED), unlock_kernel(), then hlt
  | sched_halt {s : KState κ δ} {c : κ} {t : State κ δ} (hw : s.place c = .kernel)
      (hbuf : s.lock.tso.buf c = []) (hs : Step cpus s.lock (.callUnlock c) t) :
      KStep cpus s (.callUnlock c) (s.move t c (.unlocking .halted) .CPU_HALTED)
  | leave {s : KState κ δ} {c : κ} {t : State κ δ} {next : Where} (hw : s.place c = .unlocking next)
      (hs : Step cpus s.lock (.release c) t) :
      KStep cpus s (.release c) (s.move t c next (s.status c))
  -- the kernel's own work
  | store {s : KState κ δ} {c : κ} {d : δ} {v : Nat} {t : State κ δ} (hw : s.place c = .kernel)
      (hs : Step cpus s.lock (.store c d v) t) : KStep cpus s (.store c d v) { s with lock := t }
  | load {s : KState κ δ} {c : κ} {d : δ} {v : Nat} {t : State κ δ} (hw : s.place c = .kernel)
      (hs : Step cpus s.lock (.load c d v) t) : KStep cpus s (.load c d v) { s with lock := t }

/-- Before the first `lock_kernel`. -/
def kinitial (mem : δ → Nat) (status : κ → Status) : KState κ δ where
  lock := initial mem
  place _ := .asleep
  status := status

/-- Kernel code between the return of `lock_kernel` and the call of `unlock_kernel`. -/
def Where.underLock : Where → Prop
  | .kernel | .tested false => True
  | _ => False

/-! ## The invariant -/

/-- In `spin_lock`, and whether with the lock already. -/
def InLock (has : Prop) : Pc → Prop
  | .lockLocked _ | .lockCpu _ | .spin _ => ¬ has
  | .setCpu _ | .setPcs _ _ => has
  | _ => False

/-- In `spin_unlock`, before the lock is given back. -/
def InUnlock : Pc → Prop
  | .unlockLocked | .unlockCpu | .clearPcs | .clearCpu | .release => True
  | _ => False

/-- What `lock_kernel` may return to, with the lock. -/
def AfterLock (w : Where) : Prop := w = .kernel ∨ w = .tested false

/-- What a CPU has, at each place. -/
def Fits (st : Status) (pc : Pc) (has : Prop) : Where → Prop
  | .asleep => pc = .client ∧ ¬ has
  | .locking next => InLock has pc ∧ st = .CPU_STARTED ∧ AfterLock next
  | .trapped true => pc = .client ∧ ¬ has ∧ st = .CPU_STARTED
  | .trapped false => pc = .client ∧ (¬ has ∧ st = .CPU_HALTED ∨ has ∧ st = .CPU_STARTED)
  | .tested true => pc = .client ∧ ¬ has ∧ st = .CPU_STARTED
  | .tested false => pc = .client ∧ has ∧ st = .CPU_STARTED
  | .kernel => pc = .client ∧ has ∧ st = .CPU_STARTED
  | .unlocking next => InUnlock pc ∧ has ∧
      (next = .user ∧ st = .CPU_STARTED ∨ next = .halted ∧ st = .CPU_HALTED)
  | .user => pc = .client ∧ ¬ has ∧ st = .CPU_STARTED
  | .halted => pc = .client ∧ ¬ has ∧ st = .CPU_HALTED

/-- Every CPU fits its place, for the atomic lock `l`. -/
structure KInv (cpus : Cpus κ) (s : KState κ δ) (l : Lock κ δ) : Prop where
  sim : Sim cpus (fun _ => True) s.lock l
  fits : ∀ c, Fits (s.status c) (s.lock.pc c) (l.holder = some c) (s.place c)

theorem kinv_initial (cpus : Cpus κ) (mem : δ → Nat) (status : κ → Status) :
    KInv cpus (kinitial mem status) ⟨none, [], mem⟩ where
  sim := sim_initial cpus _ mem
  fits _ := ⟨rfl, (Option.some_ne_none _).symm⟩

/-! ## What a step of the lock leaves to the other CPUs -/

/-- The CPU an event is of. -/
def Event.owner : Event κ δ → κ
  | .tau c | .flush c | .callLock c | .goSpin c | .lockPanic c | .acquire c _ | .locked c
  | .callUnlock c | .mayUnlock c | .unlockPanic c | .release c | .store c _ _ | .load c _ _ => c

theorem Step.pc_of_ne {cpus : Cpus κ} {s t : State κ δ} {e : Event κ δ} (hs : Step cpus s e t)
    {d : κ} (hd : d ≠ e.owner) : t.pc d = s.pc d := by
  cases hs <;> first | rfl | exact Function.update_of_ne hd ..

theorem Atomic.holder_of_ne {G : δ → Prop} {l l' : Lock κ δ} {e : Event κ δ} (h : Atomic G l e l')
    {d : κ} (hd : d ≠ e.owner) : l'.holder = some d ↔ l.holder = some d := by
  cases h with
  | acquire c chain hn =>
    rw [hn]
    exact iff_of_false (fun heq => hd (Option.some.inj heq).symm) (Option.some_ne_none d).symm
  | release hc =>
    rw [hc]
    exact iff_of_false (Option.some_ne_none d).symm fun heq => hd (Option.some.inj heq).symm
  | _ => exact Iff.rfl

section

variable {cpus : Cpus κ} {s : KState κ δ} {l l' : Lock κ δ} {t : State κ δ} {e : Event κ δ}

/-- One CPU's step: the others fit as they did. -/
theorem KInv.move (h : KInv cpus s l) {c : κ} {w : Where} {st : Status}
    (hsim : Sim cpus (fun _ => True) t l') (hpc : ∀ d, d ≠ c → t.pc d = s.lock.pc d)
    (hholder : ∀ d, d ≠ c → (l'.holder = some d ↔ l.holder = some d))
    (hfit : Fits st (t.pc c) (l'.holder = some c) w) : KInv cpus (s.move t c w st) l' where
  sim := hsim
  fits d := by
    by_cases hdc : d = c
    · subst hdc
      simpa only [KState.move, Function.update_self] using hfit
    · simpa only [KState.move, Function.update_of_ne hdc, hpc d hdc, hholder d hdc] using h.fits d

/-- A CPU moves in the kernel's code and calls nothing. -/
theorem KInv.walk (h : KInv cpus s l) {c : κ} {w : Where} {st : Status}
    (hfit : Fits st (s.lock.pc c) (l.holder = some c) w) : KInv cpus (s.move s.lock c w st) l :=
  h.move h.sim (fun _ _ => rfl) (fun _ _ => Iff.rfl) hfit

end

/-! ## Inside the lock's functions -/

/-- A CPU in `spin_lock` fits wherever it goes on in it. -/
theorem Fits.relock {st : Status} {pc : Pc} {has : Prop} {w : Where} (h : Fits st pc has w)
    (hpc : pc ≠ .client) (hun : ¬ InUnlock pc) :
    InLock has pc ∧ ∀ pc' has', InLock has' pc' → Fits st pc' has' w := by
  cases w with
  | locking next => exact ⟨h.1, fun _ _ h' => ⟨h', h.2⟩⟩
  | unlocking next => exact absurd h.1 hun
  | trapped u => cases u <;> exact absurd h.1 hpc
  | tested u => cases u <;> exact absurd h.1 hpc
  | asleep | kernel | user | halted => exact absurd h.1 hpc

/-- A CPU in `spin_unlock` has the lock and fits wherever it goes on in it. -/
theorem Fits.reunlock {st : Status} {pc : Pc} {has : Prop} {w : Where} (h : Fits st pc has w)
    (hpc : InUnlock pc) : has ∧ ∀ pc' : Pc, ∀ has' : Prop, InUnlock pc' → has' → Fits st pc' has' w := by
  have hclient : pc ≠ .client := fun heq => by rw [heq] at hpc; exact hpc
  cases w with
  | unlocking next => exact ⟨h.2.1, fun _ _ h' hh => ⟨h', hh, h.2.2⟩⟩
  | locking next =>
    have hin := h.1
    cases pc <;> first | exact hpc.elim | exact hin.elim
  | trapped u => cases u <;> exact absurd h.1 hclient
  | tested u => cases u <;> exact absurd h.1 hclient
  | asleep | kernel | user | halted => exact absurd h.1 hclient

/-- Neither `holding` test has failed. -/
def NoPanic : Event κ δ → Prop
  | .lockPanic _ | .unlockPanic _ => False
  | _ => True

/-- An access to memory inside `spin_lock` or `spin_unlock`. -/
theorem Fits.inner {cpus : Cpus κ} {G : δ → Prop} {s t : State κ δ} {e : Event κ δ} {l l' : Lock κ δ}
    (hs : Step cpus s e t) (he : Inner e) (ha : Atomic G l e l') {st : Status} {w : Where}
    (h : Fits st (s.pc e.owner) (l.holder = some e.owner) w) :
    NoPanic e ∧ Fits st (t.pc e.owner) (l'.holder = some e.owner) w := by
  cases hs with
  | callLock | locked | callUnlock | release | store | load => exact he.elim
  | flush =>
    cases ha
    exact ⟨trivial, h⟩
  | lockFree hpc _ | lockTaken hpc _ | lockOther hpc _ | spinAgain hpc _ _ =>
    cases ha
    obtain ⟨hno, hfit⟩ := h.relock (by rw [Event.owner, hpc]; simp) (by rw [Event.owner, hpc]; exact id)
    rw [Event.owner, hpc] at hno
    exact ⟨trivial, hfit _ _ (by simpa [Event.owner, State.goto, State.xchg, InLock] using hno)⟩
  | lockMine hpc _ =>
    cases ha with
    | lockPanic hc =>
      have hno := (h.relock (by rw [Event.owner, hpc]; simp) (by rw [Event.owner, hpc]; exact id)).1
      rw [Event.owner, hpc] at hno
      exact absurd hc hno
  | acquire hpc _ _ =>
    cases ha
    obtain ⟨-, hfit⟩ := h.relock (by rw [Event.owner, hpc]; simp) (by rw [Event.owner, hpc]; exact id)
    exact ⟨trivial, hfit _ _ (by simp [Event.owner, State.xchg, InLock])⟩
  | setCpu hpc | setPcs hpc =>
    cases ha
    obtain ⟨hhas, hfit⟩ := h.relock (by rw [Event.owner, hpc]; simp) (by rw [Event.owner, hpc]; exact id)
    rw [Event.owner, hpc] at hhas
    exact ⟨trivial, hfit _ _ (by simpa [Event.owner, State.put, InLock] using hhas)⟩
  | unlockFree hpc _ | unlockOther hpc _ =>
    cases ha with
    | unlockPanic hc =>
      exact absurd (h.reunlock (by rw [Event.owner, hpc]; trivial)).1 hc
  | unlockTaken hpc _ | unlockMine hpc _ | clearPcs hpc | clearCpu hpc =>
    cases ha
    obtain ⟨hhas, hfit⟩ := h.reunlock (by rw [Event.owner, hpc]; trivial)
    exact ⟨trivial, hfit _ _ (by simp [Event.owner, State.goto, State.put, InUnlock]) hhas⟩

/-! ## One step, a whole run -/

section

variable {cpus : Cpus κ} {s s' : KState κ δ} {l : Lock κ δ} {e : Event κ δ}

theorem KInv.at_place (h : KInv cpus s l) {c : κ} {w : Where} (hw : s.place c = w) :
    Fits (s.status c) (s.lock.pc c) (l.holder = some c) w :=
  hw ▸ h.fits c

theorem KInv.step (h : KInv cpus s l) (hs : KStep cpus s e s') :
    ∃ l', Atomic (fun _ => True) l e l' ∧ KInv cpus s' l' ∧ NoPanic e := by
  cases hs with
  | @inner e t he hs =>
    obtain ⟨l', ha, hsim, -⟩ := h.sim.step hs (by cases e <;> trivial)
    obtain ⟨hno, hfit⟩ := Fits.inner hs he ha (h.fits e.owner)
    refine ⟨l', ha, ⟨hsim, fun d => ?_⟩, hno⟩
    by_cases hd : d = e.owner
    · exact hd ▸ hfit
    · simpa only [hs.pc_of_ne hd, ha.holder_of_ne hd] using h.fits d
  | @wake c t hw hs =>
    obtain ⟨hpc, hno⟩ := h.at_place hw
    obtain ⟨l', ha, hsim, -⟩ := h.sim.step hs trivial
    cases ha
    refine ⟨l, .callLock c, h.move hsim (fun d hd => hs.pc_of_ne hd) (fun _ _ => Iff.rfl) ?_, trivial⟩
    cases hs
    exact ⟨by simpa [State.goto, InLock] using hno, rfl, .inl rfl⟩
  | @enter c t next hw hs =>
    obtain ⟨hin, hst, hnext⟩ := h.at_place hw
    obtain ⟨l', ha, hsim, -⟩ := h.sim.step hs trivial
    have hc : l.holder = some c := by cases ha; assumption
    cases ha
    refine ⟨l, .locked c hc, h.move hsim (fun d hd => hs.pc_of_ne hd) (fun _ _ => Iff.rfl) ?_, trivial⟩
    cases hs
    have hclient : (s.lock.goto c .client).pc c = .client := Function.update_self ..
    rcases hnext with rfl | rfl <;> exact ⟨hclient, hc, hst⟩
  | @trapUser c hw => exact ⟨l, .tau c, h.walk (h.at_place hw :), trivial⟩
  | @trapHalted c hw =>
    obtain ⟨hpc, hno, hst⟩ := h.at_place hw
    exact ⟨l, .tau c, h.walk ⟨hpc, .inl ⟨hno, hst⟩⟩, trivial⟩
  | @trapKernel c hw =>
    obtain ⟨hpc, hhas, hst⟩ := h.at_place hw
    exact ⟨l, .tau c, h.walk ⟨hpc, .inr ⟨hhas, hst⟩⟩, trivial⟩
  | @wasHalted c t u hw hbuf hst hs =>
    have hfit := h.at_place hw
    cases u with
    | true => exact absurd (hst.symm.trans hfit.2.2) (by decide)
    | false =>
      have hno : l.holder ≠ some c := by
        rcases hfit.2 with ⟨hno, -⟩ | ⟨-, hst'⟩
        · exact hno
        · exact absurd (hst.symm.trans hst') (by decide)
      obtain ⟨l', ha, hsim, -⟩ := h.sim.step hs trivial
      cases ha
      refine ⟨l, .callLock c, h.move hsim (fun d hd => hs.pc_of_ne hd) (fun _ _ => Iff.rfl) ?_, trivial⟩
      cases hs
      exact ⟨by simpa [State.goto, InLock] using hno, rfl, .inr rfl⟩
  | @wasStarted c u hw hbuf hst =>
    have hfit := h.at_place hw
    cases u with
    | true => exact ⟨l, .tau c, h.walk ⟨hfit.1, hfit.2.1, rfl⟩, trivial⟩
    | false =>
      rcases hfit.2 with ⟨-, hst'⟩ | ⟨hhas, -⟩
      · exact absurd hst' hst
      · exact ⟨l, .tau c, h.walk ⟨hfit.1, hhas, rfl⟩, trivial⟩
  | @fromUser c t hw hs =>
    obtain ⟨hpc, hno, hst⟩ := h.at_place hw
    obtain ⟨l', ha, hsim, -⟩ := h.sim.step hs trivial
    cases ha
    refine ⟨l, .callLock c, h.move hsim (fun d hd => hs.pc_of_ne hd) (fun _ _ => Iff.rfl) ?_, trivial⟩
    cases hs
    exact ⟨by simpa [State.goto, InLock] using hno, hst, .inl rfl⟩
  | @fromKernel c hw => exact ⟨l, .tau c, h.walk (h.at_place hw :), trivial⟩
  | @env_run c t hw hs =>
    obtain ⟨hpc, hhas, hst⟩ := h.at_place hw
    obtain ⟨l', ha, hsim, -⟩ := h.sim.step hs trivial
    cases ha
    refine ⟨l, .callUnlock c, h.move hsim (fun d hd => hs.pc_of_ne hd) (fun _ _ => Iff.rfl) ?_, trivial⟩
    cases hs
    exact ⟨by simp [State.goto, InUnlock], hhas, .inl ⟨rfl, hst⟩⟩
  | @sched_halt c t hw hbuf hs =>
    obtain ⟨hpc, hhas, -⟩ := h.at_place hw
    obtain ⟨l', ha, hsim, -⟩ := h.sim.step hs trivial
    cases ha
    refine ⟨l, .callUnlock c, h.move hsim (fun d hd => hs.pc_of_ne hd) (fun _ _ => Iff.rfl) ?_, trivial⟩
    cases hs
    exact ⟨by simp [State.goto, InUnlock], hhas, .inr ⟨rfl, rfl⟩⟩
  | @leave c t next hw hs =>
    obtain ⟨hin, hhas, hnext⟩ := h.at_place hw
    obtain ⟨l', ha, hsim, -⟩ := h.sim.step hs trivial
    have hothers := fun d (hd : d ≠ c) => ha.holder_of_ne hd
    cases ha
    refine ⟨_, .release hhas, h.move hsim (fun d hd => hs.pc_of_ne hd) hothers ?_, trivial⟩
    cases hs
    have hclient : (s.lock.xchg c 0 .client).pc c = .client := Function.update_self ..
    rcases hnext with ⟨rfl, hst⟩ | ⟨rfl, hst⟩ <;> exact ⟨hclient, (Option.some_ne_none c).symm, hst⟩
  | @store c d v t hw hs =>
    obtain ⟨hpc, hhas, hst⟩ := h.at_place hw
    obtain ⟨l', ha, hsim, hholder⟩ := h.sim.step hs (fun _ => hhas)
    refine ⟨l', ha, ⟨hsim, fun x => ?_⟩, trivial⟩
    have hpcs : t.pc x = s.lock.pc x := by
      cases hs
      by_cases hx : x = c
      · rw [hx, hpc]
        exact Function.update_self ..
      · exact Function.update_of_ne hx ..
    simpa only [hpcs, show l'.holder = l.holder from hholder] using h.fits x
  | @load c d v t hw hs =>
    obtain ⟨hpc, hhas, hst⟩ := h.at_place hw
    obtain ⟨l', ha, hsim, hholder⟩ := h.sim.step hs (fun _ => hhas)
    refine ⟨l', ha, ⟨hsim, fun x => ?_⟩, trivial⟩
    have hpcs : t.pc x = s.lock.pc x := by cases hs; rfl
    simpa only [hpcs, show l'.holder = l.holder from hholder] using h.fits x

theorem KInv.run {tr : List (Event κ δ)} (hrun : Run (KStep cpus) s tr s') :
    ∀ {l : Lock κ δ}, KInv cpus s l →
      ∃ l', Run (Atomic fun _ => True) l tr l' ∧ KInv cpus s' l' ∧ ∀ e ∈ tr, NoPanic e := by
  induction hrun with
  | nil s => exact fun h => ⟨_, .nil _, h, by simp⟩
  | cons hs _ ih =>
    intro l h
    obtain ⟨l', ha, h', hno⟩ := h.step hs
    obtain ⟨l'', hrest, h'', hnos⟩ := ih h'
    exact ⟨l'', .cons ha hrest, h'', List.forall_mem_cons.mpr ⟨hno, hnos⟩⟩

theorem Fits.underLock {st : Status} {pc : Pc} {has : Prop} {w : Where} (h : Fits st pc has w)
    (hw : w.underLock) : has := by
  cases w with
  | kernel => exact h.2.1
  | tested u =>
    cases u with
    | false => exact h.2.1
    | true => exact hw.elim
  | _ => exact hw.elim

end

/-- The boot CPU is about to store its entry in the lock while the other one spins in `mp_main`. -/
def booting : List (Event Bool Unit) :=
  [.callLock false, .goSpin false, .acquire false (List.replicate 10 0), .callLock true, .tau true,
    .goSpin true, .tau false, .tau true, .flush false]

end SisOp.Smp
