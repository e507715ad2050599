/-
# `SisOp.Jos.Effects` — what each kernel function can do

One inversion lemma per function of `kern/env.c`, `kern/sched.c` and
`kern/syscall.c`: from "it ended, like this" to the equation of the state it left
and the guards it passed on the way.  Every invariant of the machine is proved by
cases on these (`SyscallEffect`, `Destroyed`, `Yielded`), and none unfolds the
functions again.
-/
import SisOp.Jos.Trap

namespace SisOp.Jos

/-- A bind that succeeded, taken apart. -/
theorem bind_eq_ok {ε α β : Type} {x : Except ε α} {f : α → Except ε β} {b : β} :
    (x >>= f) = .ok b ↔ ∃ a, x = .ok a ∧ f a = .ok b := by
  cases x <;> simp [bind, Except.bind]

/-- What every turn of a fold that may fail keeps, the fold keeps. -/
theorem foldlM_preserves {ε σ α : Type} {f : σ → α → Except ε σ} {P : σ → Prop}
    (hf : ∀ s a s', P s → f s a = .ok s' → P s') {l : List α} {s s' : σ}
    (h : l.foldlM f s = .ok s') (hs : P s) : P s' := by
  induction l generalizing s with
  | nil =>
      cases h
      exact hs
  | cons a l ih =>
      rw [List.foldlM_cons, bind_eq_ok] at h
      obtain ⟨s1, h1, h⟩ := h
      exact ih h (hf s a s1 hs h1)

/-! ## Reading an updated state -/

namespace Kernel

variable (k : Kernel) (e f : Slot) (g : Env → Env) (c : Nat)

@[simp] theorem setEnv_envs : (k.setEnv e g).envs = Function.update k.envs e (g (k.envs e)) := rfl
@[simp] theorem setEnv_phys : (k.setEnv e g).phys = k.phys := rfl
@[simp] theorem setEnv_cpus : (k.setEnv e g).cpus = k.cpus := rfl
@[simp] theorem setEnv_envFreeList : (k.setEnv e g).envFreeList = k.envFreeList := rfl
@[simp] theorem setEnv_hist : (k.setEnv e g).hist = k.hist := rfl
@[simp] theorem setEnv_curenv : (k.setEnv e g).curenv = k.curenv := rfl

@[simp] theorem log_envs (ev : Event) : (k.log ev).envs = k.envs := rfl
@[simp] theorem log_phys (ev : Event) : (k.log ev).phys = k.phys := rfl
@[simp] theorem log_cpus (ev : Event) : (k.log ev).cpus = k.cpus := rfl
@[simp] theorem log_envFreeList (ev : Event) : (k.log ev).envFreeList = k.envFreeList := rfl
@[simp] theorem log_hist (ev : Event) : (k.log ev).hist = ev :: k.hist := rfl
@[simp] theorem log_curenv (ev : Event) : (k.log ev).curenv = k.curenv := rfl

@[simp] theorem setCur_envs (x : Option Slot) : (k.setCur c x).envs = k.envs := rfl
@[simp] theorem setCur_phys (x : Option Slot) : (k.setCur c x).phys = k.phys := rfl
@[simp] theorem setCur_envFreeList (x : Option Slot) :
    (k.setCur c x).envFreeList = k.envFreeList := rfl
@[simp] theorem setCur_hist (x : Option Slot) : (k.setCur c x).hist = k.hist := rfl

@[simp] theorem setCur_curenv (x : Option Slot) :
    (k.setCur c x).curenv = Function.update k.curenv c x := by
  funext d
  by_cases h : d = c
  · subst h
    simp [setCur, curenv]
  · simp [setCur, curenv, Function.update_of_ne h]

@[simp] theorem setCpuStatus_envs (s : CpuStatus) : (k.setCpuStatus c s).envs = k.envs := rfl
@[simp] theorem setCpuStatus_phys (s : CpuStatus) : (k.setCpuStatus c s).phys = k.phys := rfl
@[simp] theorem setCpuStatus_envFreeList (s : CpuStatus) :
    (k.setCpuStatus c s).envFreeList = k.envFreeList := rfl
@[simp] theorem setCpuStatus_hist (s : CpuStatus) : (k.setCpuStatus c s).hist = k.hist := rfl

@[simp] theorem setCpuStatus_curenv (s : CpuStatus) : (k.setCpuStatus c s).curenv = k.curenv := by
  funext d
  by_cases h : d = c
  · subst h
    simp [setCpuStatus, curenv]
  · simp [setCpuStatus, curenv, Function.update_of_ne h]

@[simp] theorem lcr3_envs (p : Ppn) : (k.lcr3 c p).envs = k.envs := rfl
@[simp] theorem lcr3_phys (p : Ppn) : (k.lcr3 c p).phys = k.phys := rfl
@[simp] theorem lcr3_envFreeList (p : Ppn) : (k.lcr3 c p).envFreeList = k.envFreeList := rfl
@[simp] theorem lcr3_hist (p : Ppn) : (k.lcr3 c p).hist = k.hist := rfl

@[simp] theorem lcr3_curenv (p : Ppn) : (k.lcr3 c p).curenv = k.curenv := by
  funext d
  by_cases h : d = c
  · subst h
    simp [lcr3, curenv]
  · simp [lcr3, curenv, Function.update_of_ne h]

@[simp] theorem phys_curenv (m : Phys) : Kernel.curenv { k with phys := m } = k.curenv := rfl

/-- `env_status` of a slot. -/
def status (e : Slot) : EnvStatus := (k.envs e).envStatus

end Kernel

/-! ## Running -/

/-- The first lines of `env_run`: a running `curenv` becomes runnable. -/
def Kernel.preempt (k : Kernel) (c : Nat) : Kernel :=
  match k.curenv c with
  | some cur =>
      if (k.envs cur).envStatus = EnvStatus.running then
        k.setEnv cur fun E => { E with envStatus := .runnable }
      else k
  | none => k

/-- The state in which `env_run` leaves for `e`, whose directory is `pgdir`. -/
def Kernel.ran (k : Kernel) (c : Nat) (e : Slot) (pgdir : Ppn) : Kernel :=
  ((((k.preempt c).setCur c (some e)).setEnv e fun E =>
    { E with envStatus := .running, envRuns := E.envRuns + 1 }).lcr3 c pgdir).log (.run c e)

section

variable {k k' : Kernel} {c : Nat} {e : Slot}

theorem Kernel.preempt_eq (k : Kernel) (c : Nat) :
    k.preempt c = k ∨ ∃ cur, k.curenv c = some cur ∧ k.status cur = .running ∧
      k.preempt c = k.setEnv cur fun E => { E with envStatus := .runnable } := by
  unfold Kernel.preempt
  cases hc : k.curenv c with
  | none => exact Or.inl rfl
  | some cur =>
      by_cases hr : (k.envs cur).envStatus = .running
      · exact Or.inr ⟨cur, rfl, hr, if_pos hr⟩
      · exact Or.inl (if_neg hr)

/-- Only the status changes. -/
theorem Kernel.preempt_envs (k : Kernel) (c : Nat) (f : Slot) :
    (k.preempt c).envs f = k.envs f ∨ k.curenv c = some f ∧ k.status f = .running ∧
      (k.preempt c).envs f = { k.envs f with envStatus := .runnable } := by
  rcases k.preempt_eq c with h | ⟨cur, hcur, hrun, h⟩
  · exact Or.inl (by rw [h])
  · by_cases hf : f = cur
    · subst hf
      exact Or.inr ⟨hcur, hrun, by rw [h]; simp⟩
    · exact Or.inl (by rw [h]; simp [Function.update_of_ne hf])

theorem Kernel.preempt_frame (k : Kernel) (c : Nat) :
    (k.preempt c).cpus = k.cpus ∧ (k.preempt c).phys = k.phys ∧
      (k.preempt c).envFreeList = k.envFreeList ∧ (k.preempt c).hist = k.hist := by
  rcases k.preempt_eq c with h | ⟨_, _, _, h⟩ <;> rw [h] <;> exact ⟨rfl, rfl, rfl, rfl⟩

namespace Kernel

variable (k : Kernel) (c : Nat) (e : Slot) (pgdir : Ppn)

@[simp] theorem ran_phys : (k.ran c e pgdir).phys = k.phys := (k.preempt_frame c).2.1

@[simp] theorem ran_envFreeList : (k.ran c e pgdir).envFreeList = k.envFreeList :=
  (k.preempt_frame c).2.2.1

@[simp] theorem ran_hist : (k.ran c e pgdir).hist = .run c e :: k.hist :=
  congrArg (Event.run c e :: ·) (k.preempt_frame c).2.2.2

@[simp] theorem ran_curenv : (k.ran c e pgdir).curenv = Function.update k.curenv c (some e) := by
  have hpre : (k.preempt c).curenv = k.curenv := by
    funext d
    rw [curenv, curenv, (k.preempt_frame c).1]
  rw [ran, log_curenv, lcr3_curenv, setEnv_curenv, setCur_curenv, hpre]

theorem ran_cpus_of_ne {d : Nat} (hd : d ≠ c) : (k.ran c e pgdir).cpus d = k.cpus d := by
  simp [ran, lcr3, log, setCur, Function.update_of_ne hd, (k.preempt_frame c).1]

theorem ran_cpus_self :
    ((k.ran c e pgdir).cpus c).cpuStatus = (k.cpus c).cpuStatus ∧
      ((k.ran c e pgdir).cpus c).cr3 = pgdir := by
  simp [ran, lcr3, log, setCur, (k.preempt_frame c).1]

@[simp] theorem ran_status_self : (k.ran c e pgdir).status e = .running := by
  simp [ran, status]

/-- The one environment that changes besides `e` is the preempted one. -/
theorem ran_envs_of_ne {f : Slot} (hf : f ≠ e) : (k.ran c e pgdir).envs f = k.envs f ∨
    k.curenv c = some f ∧ k.status f = .running ∧
      (k.ran c e pgdir).envs f = { k.envs f with envStatus := .runnable } := by
  have henv : (k.ran c e pgdir).envs f = (k.preempt c).envs f := by
    simp [ran, Function.update_of_ne hf]
  rw [henv]
  exact k.preempt_envs c f

/-- Only the status and the run counter change. -/
theorem ran_envs (f : Slot) : ∃ st runs,
    (k.ran c e pgdir).envs f = { k.envs f with envStatus := st, envRuns := runs } := by
  rcases eq_or_ne f e with rfl | hf
  · rcases k.preempt_envs c f with h | ⟨_, _, h⟩ <;>
      exact ⟨.running, (k.envs f).envRuns + 1, by simp [ran, h]⟩
  · rcases k.ran_envs_of_ne c e pgdir hf with h | ⟨_, _, h⟩
    · exact ⟨_, _, h⟩
    · exact ⟨_, _, h⟩

end Kernel

theorem envRun_eq (k : Kernel) (c : Nat) (e : Slot) : envRun k c e =
    match (k.envs e).envPgdir with
    | none => .error "PADDR called with invalid kva 00000000"
    | some pgdir => .ok (k.ran c e pgdir) := by
  have hdir : ((((k.preempt c).setCur c (some e)).setEnv e fun E =>
      { E with envStatus := .running, envRuns := E.envRuns + 1 }).envs e).envPgdir =
      (k.envs e).envPgdir := by
    rcases k.preempt_envs c e with h | ⟨-, -, h⟩ <;> simp [h]
  rw [← hdir]
  rfl

theorem envRun_ok : envRun k c e = .ok k' ↔
    ∃ pgdir, (k.envs e).envPgdir = some pgdir ∧ k' = k.ran c e pgdir := by
  rw [envRun_eq]
  cases (k.envs e).envPgdir with
  | none => simp
  | some pgdir => simp [eq_comm]

/-- How `sched_yield` can leave the kernel. -/
inductive Yielded (k : Kernel) (c : Nat) (k' : Kernel) : Prop
  /-- Into a runnable environment. -/
  | picked (e : Slot) (pgdir : Ppn) (hstatus : k.status e = .runnable)
      (hdir : (k.envs e).envPgdir = some pgdir) (heq : k' = k.ran c e pgdir)
  /-- Back into the environment the CPU was running, nothing else being runnable. -/
  | again (e : Slot) (pgdir : Ppn) (hcur : k.curenv c = some e) (hstatus : k.status e = .running)
      (hdir : (k.envs e).envPgdir = some pgdir) (heq : k' = k.ran c e pgdir)
  /-- Into the halt loop. -/
  | halted (hnone : ∀ e, k.curenv c = some e → k.status e ≠ .running)
      (heq : k' = ((k.setCur c none).lcr3 c k.phys.kernPgdir).setCpuStatus c .halted)

theorem schedHalt_ok (h : schedHalt k c = .ok k') :
    k' = ((k.setCur c none).lcr3 c k.phys.kernPgdir).setCpuStatus c .halted := by
  unfold schedHalt at h
  split at h
  · cases h
  · cases h
    rfl

theorem schedYield_cases (h : schedYield k c = .ok k') : Yielded k c k' := by
  simp only [schedYield] at h
  split at h
  · rename_i e hfind
    have hfound := List.find?_some hfind
    have hstatus : k.status e = .runnable := by simpa [Kernel.status] using hfound
    obtain ⟨pgdir, hdir, heq⟩ := envRun_ok.mp h
    exact .picked e pgdir hstatus hdir heq
  · split at h
    · rename_i e hcur
      split at h
      · rename_i hrun
        obtain ⟨pgdir, hdir, heq⟩ := envRun_ok.mp h
        exact .again e pgdir hcur hrun hdir heq
      · rename_i hrun
        refine .halted (fun f hf => ?_) (schedHalt_ok h)
        obtain rfl : e = f := Option.some.inj (hcur.symm.trans hf)
        exact hrun
    · rename_i hcur
      refine .halted (fun f hf => ?_) (schedHalt_ok h)
      rw [hcur] at hf
      cases hf

end

/-! ## Freeing and destroying -/

/-- The memory part of `env_free` for an environment with directory `pgdir`. -/
def freeMem (m : Phys) (pgdir : Ppn) : Except String Phys := do
  let m ← userPdxs.foldlM (fun m pdeno => envFreePde m pgdir pdeno) m
  pageDecref m (← pa2page m pgdir)

/-- The state `env_free` leaves, with the memory `m`. -/
def Kernel.freed (k : Kernel) (c : Nat) (e : Slot) (m : Phys) : Kernel :=
  let k' := if k.curenv c = some e then k.lcr3 c k.phys.kernPgdir else k
  Kernel.log { ({ k' with phys := m }.setEnv e fun E =>
    { E with envPgdir := none, envStatus := .free, envLink := k.envFreeList }) with
    envFreeList := some e } (.free c e)

namespace Kernel

variable (k : Kernel) (c : Nat) (e : Slot) (m : Phys)

@[simp] theorem freed_phys : (k.freed c e m).phys = m := rfl

@[simp] theorem freed_envs : (k.freed c e m).envs = Function.update k.envs e
    { k.envs e with envPgdir := none, envStatus := .free, envLink := k.envFreeList } := by
  unfold freed
  split <;> rfl

@[simp] theorem freed_envFreeList : (k.freed c e m).envFreeList = some e := rfl

@[simp] theorem freed_hist : (k.freed c e m).hist = .free c e :: k.hist := by
  unfold freed
  split <;> rfl

@[simp] theorem freed_curenv : (k.freed c e m).curenv = k.curenv := by
  unfold freed
  split
  · exact k.lcr3_curenv c k.phys.kernPgdir
  · rfl

theorem freed_cpuStatus (d : Nat) :
    ((k.freed c e m).cpus d).cpuStatus = (k.cpus d).cpuStatus := by
  unfold freed
  split
  · by_cases h : d = c
    · subst h
      simp [lcr3]
    · simp [lcr3, Function.update_of_ne h]
  · rfl

end Kernel

section

variable {k k' : Kernel} {c : Nat} {e : Slot}

theorem envFree_ok : envFree k c e = .ok k' ↔ ∃ pgdir m, (k.envs e).envPgdir = some pgdir ∧
    freeMem k.phys pgdir = .ok m ∧ k' = k.freed c e m := by
  have hdir : ((if k.curenv c = some e then k.lcr3 c k.phys.kernPgdir else k).envs e).envPgdir =
      (k.envs e).envPgdir := by split <;> rfl
  have hphys : (if k.curenv c = some e then k.lcr3 c k.phys.kernPgdir else k).phys = k.phys := by
    split <;> rfl
  have hlist : (if k.curenv c = some e then k.lcr3 c k.phys.kernPgdir else k).envFreeList =
      k.envFreeList := by split <;> rfl
  simp only [envFree, hdir, hphys, hlist]
  cases (k.envs e).envPgdir with
  | none => simp
  | some pgdir =>
      simp only [freeMem, bind_eq_ok, pure, Except.pure, Option.some.injEq, Except.ok.injEq]
      constructor
      · rintro ⟨m, hm, p, hp, m', hm', rfl⟩
        refine ⟨pgdir, m', rfl, ⟨m, hm, p, hp, hm'⟩, ?_⟩
        unfold Kernel.freed
        split <;> rfl
      · rintro ⟨_, m', rfl, ⟨m, hm, p, hp, hm'⟩, rfl⟩
        refine ⟨m, hm, p, hp, m', hm', ?_⟩
        unfold Kernel.freed
        split <;> rfl

/-- How `env_destroy(e)` can end. -/
inductive Destroyed (k : Kernel) (c : Nat) (e : Slot) : Outcome Unit → Prop
  /-- `e` runs on another CPU: it becomes a zombie. -/
  | zombie (hstatus : k.status e = .running) (hcur : k.curenv c ≠ some e) :
      Destroyed k c e (.back () (k.setEnv e fun E => { E with envStatus := .dying }))
  /-- `e` is freed. -/
  | gone (hstatus : k.status e ≠ .running) (hcur : k.curenv c ≠ some e) (pgdir : Ppn) (m : Phys)
      (hdir : (k.envs e).envPgdir = some pgdir) (hm : freeMem k.phys pgdir = .ok m) :
      Destroyed k c e (.back () (k.freed c e m))
  /-- `e` is the current environment: it is freed and another one is run. -/
  | left (hcur : k.curenv c = some e) (pgdir : Ppn) (m : Phys) (k' : Kernel)
      (hdir : (k.envs e).envPgdir = some pgdir) (hm : freeMem k.phys pgdir = .ok m)
      (hyield : schedYield ((k.freed c e m).setCur c none) c = .ok k') :
      Destroyed k c e (.away k')

theorem envDestroy_cases {o : Outcome Unit} (h : envDestroy k c e = .ok o) :
    Destroyed k c e o := by
  unfold envDestroy at h
  by_cases hz : (k.envs e).envStatus = .running ∧ k.curenv c ≠ some e
  · rw [if_pos hz] at h
    cases h
    exact .zombie hz.1 hz.2
  · rw [if_neg hz] at h
    simp only [bind_eq_ok] at h
    obtain ⟨k1, hfree, h⟩ := h
    obtain ⟨pgdir, m, hdir, hm, rfl⟩ := envFree_ok.mp hfree
    simp only [Kernel.freed_curenv] at h
    by_cases hcur : k.curenv c = some e
    · rw [if_pos hcur] at h
      simp only [bind_eq_ok] at h
      obtain ⟨k', hy, h⟩ := h
      cases h
      exact .left hcur pgdir m k' hdir hm hy
    · rw [if_neg hcur] at h
      cases h
      exact .gone (fun hr => hz ⟨hr, hcur⟩) hcur pgdir m hdir hm

/-- How `user_mem_assert` can end: the check passed, or the environment is destroyed. -/
theorem userMemAssert_cases {va len perm : Word} {o : Outcome Unit}
    (h : userMemAssert k c e va len perm = .ok o) :
    ∃ pgdir r x, (k.envs e).envPgdir = some pgdir ∧
      userMemCheck k.phys pgdir va len (perm ||| PTE_U) = .ok (r, x) ∧
      (¬ r < 0 ∧ o = .back () k ∨ r < 0 ∧ Destroyed k c e o) := by
  unfold userMemAssert at h
  cases hdir : (k.envs e).envPgdir with
  | none =>
      rw [hdir] at h
      cases h
  | some pgdir =>
      rw [hdir] at h
      simp only [bind_eq_ok] at h
      obtain ⟨⟨r, x⟩, hcheck, h⟩ := h
      refine ⟨pgdir, r, x, rfl, hcheck, ?_⟩
      by_cases hr : r < 0
      · rw [if_pos hr] at h
        exact Or.inr ⟨hr, envDestroy_cases h⟩
      · rw [if_neg hr] at h
        cases h
        exact Or.inl ⟨hr, rfl⟩

end

/-! ## Creating -/

/-- The directory page `env_setup_vm` makes. -/
def SetupVm (m : Phys) (kva : Ppn) (m' : Phys) : Prop :=
  ∃ m1, pageAlloc m true = .ok (some kva, m1) ∧ KADDR m1 kva = .ok kva ∧
    m' = (((m1.incref kva).fill kva (m1.mem m1.kernPgdir)).store (kva, PDX UVPT)
      (page2pa kva ||| PTE_P ||| PTE_U))

/-- The environment `env_alloc` makes of `E`, in slot `e`. -/
def Env.fresh (E : Env) (e : Slot) (parentId : Word) (kva : Ppn) : Env :=
  { E with
    envPgdir := some kva
    envId := nextEnvId E.envId e
    envParentId := parentId
    envType := .user
    envStatus := .runnable
    envRuns := 0
    envTf := initialTf
    envPgfaultUpcall := 0
    envIpcRecving := false }

/-- The state `env_alloc` leaves, with the memory `m`. -/
def Kernel.allocated (k : Kernel) (e : Slot) (parentId : Word) (kva : Ppn) (m : Phys) : Kernel :=
  { ({ k with phys := m }.setEnv e fun E => E.fresh e parentId kva) with
    envFreeList := (k.envs e).envLink }.log (.alloc e)

section

variable {k k' : Kernel} {c : Nat} {e cur : Slot}

/-- `envid2env` gives the caller for 0, else the environment whose id it is. -/
theorem envid2env_ok {envid : Word} {checkperm : Bool} :
    envid2env k cur envid checkperm = .ok e ↔
      (envid = 0 ∧ e = cur) ∨
      (envid ≠ 0 ∧ e = ENVX envid ∧ k.status e ≠ .free ∧ (k.envs e).envId = envid ∧
        (checkperm = true → e ≠ cur → (k.envs e).envParentId = (k.envs cur).envId)) := by
  unfold envid2env
  by_cases h0 : envid = 0
  · simp [h0, eq_comm]
  · rw [if_neg h0]
    by_cases hbad : (k.envs (ENVX envid)).envStatus = .free ∨ (k.envs (ENVX envid)).envId ≠ envid
    · simp only [if_pos hbad, reduceCtorEq, false_iff, h0, ne_eq, not_false_eq_true, false_and,
        true_and, false_or]
      rintro ⟨rfl, hs, hid, -⟩
      exact hbad.elim hs fun hne => hne hid
    · obtain ⟨hs, hid⟩ := not_or.mp hbad
      rw [if_neg hbad]
      by_cases hp : checkperm = true ∧ ENVX envid ≠ cur ∧
          (k.envs (ENVX envid)).envParentId ≠ (k.envs cur).envId
      · simp only [if_pos hp, reduceCtorEq, false_iff, h0, ne_eq, not_false_eq_true, false_and,
          true_and, false_or]
        rintro ⟨rfl, -, -, hperm⟩
        exact hp.2.2 (hperm hp.1 hp.2.1)
      · rw [if_neg hp]
        constructor
        · intro h
          cases h
          refine Or.inr ⟨h0, rfl, hs, not_not.mp hid, fun hc hne => ?_⟩
          by_contra hpar
          exact hp ⟨hc, hne, hpar⟩
        · rintro (⟨h, -⟩ | ⟨-, rfl, -⟩)
          · exact absurd h h0
          · rfl

theorem envid2env_neg {envid : Word} {checkperm : Bool} {r : Int}
    (h : envid2env k cur envid checkperm = .error r) : r < 0 := by
  unfold envid2env at h
  split at h
  · cases h
  simp only at h
  split at h
  · cases h
    decide
  split at h
  · cases h
    decide
  · cases h

theorem envSetupVm_ok {r : Int} (h : envSetupVm k e = .ok (r, k')) :
    (r = -E_NO_MEM ∧ k' = k) ∨ ∃ kva m, r = 0 ∧ SetupVm k.phys kva m ∧
      k' = { k with phys := m }.setEnv e fun E => { E with envPgdir := some kva } := by
  simp only [envSetupVm, bind_eq_ok] at h
  obtain ⟨⟨p, m1⟩, halloc, h⟩ := h
  cases p with
  | none =>
      cases h
      exact Or.inl ⟨rfl, rfl⟩
  | some p =>
      simp only [bind_eq_ok] at h
      obtain ⟨kva, hkva, h⟩ := h
      obtain rfl : kva = p := by
        unfold KADDR at hkva
        split at hkva <;> cases hkva
        rfl
      cases h
      exact Or.inr ⟨kva, _, rfl, ⟨m1, halloc, hkva, rfl⟩, rfl⟩

theorem envAlloc_ok {parentId : Word} {res : Except Int Slot}
    (h : envAlloc k parentId = .ok (res, k')) :
    (∃ r, res = .error r ∧ r < 0 ∧ k' = k) ∨ ∃ e kva m, res = .ok e ∧ k.envFreeList = some e ∧
      SetupVm k.phys kva m ∧ k' = k.allocated e parentId kva m := by
  unfold envAlloc at h
  split at h
  · cases h
    exact Or.inl ⟨_, rfl, by decide, rfl⟩
  · rename_i e hlist
    simp only [bind_eq_ok] at h
    obtain ⟨⟨r, k1⟩, hvm, h⟩ := h
    rcases envSetupVm_ok hvm with ⟨rfl, rfl⟩ | ⟨kva, m, rfl, hm, rfl⟩
    · cases h
      exact Or.inl ⟨-E_NO_MEM, rfl, by decide, rfl⟩
    · cases h
      refine Or.inr ⟨e, kva, m, rfl, hlist, hm, ?_⟩
      simp [Kernel.allocated, Kernel.setEnv, Kernel.log, Env.fresh]

/-! ## Page calls -/

/-- What `sys_page_map` has checked and found before it inserts the page. -/
structure MapChecked (k : Kernel) (cur : Slot) (srcenvid srcva dstenvid dstva perm : Word)
    (dstenv : Slot) (srcdir dstdir page : Ppn) (pte : PtePtr) : Prop where
  permOk : PermOk perm
  srcvaOk : VaOk srcva
  dstvaOk : VaOk dstva
  src : ∃ srcenv, envid2env k cur srcenvid false = .ok srcenv ∧
    (k.envs srcenv).envPgdir = some srcdir
  look : pageLookup k.phys srcdir srcva = .ok (some (page, pte))
  write : Writable perm → Writable (k.phys.load pte)
  dst : envid2env k cur dstenvid false = .ok dstenv
  dstdir : (k.envs dstenv).envPgdir = some dstdir

/-- The last lines of both calls that insert a page: a failed insertion frees the page. -/
def InsertOrFree (m : Phys) (pgdir page : Ppn) (va perm : Word) (r : Int) (m' : Phys) : Prop :=
  ∃ m1, pageInsert m pgdir page va perm = .ok (r, m1) ∧
    if r < 0 then pageFree m1 page = .ok m' else m' = m1

theorem sysPageMap_cases {srcenvid srcva dstenvid dstva perm : Word} {r : Int}
    (h : sysPageMap k cur srcenvid srcva dstenvid dstva perm = .ok (r, k')) :
    (r < 0 ∧ k' = k) ∨ ∃ dstenv srcdir dstdir page pte m,
      MapChecked k cur srcenvid srcva dstenvid dstva perm dstenv srcdir dstdir page pte ∧
      InsertOrFree k.phys dstdir page dstva (perm ||| PTE_P ||| PTE_U) r m ∧
      k' = { k with phys := m } := by
  unfold sysPageMap at h
  split at h
  · cases h
    exact Or.inl ⟨by decide, rfl⟩
  rename_i hperm
  split at h
  · cases h
    exact Or.inl ⟨by decide, rfl⟩
  rename_i hva
  split at h
  · rename_i r1 hsrc
    cases h
    exact Or.inl ⟨envid2env_neg hsrc, rfl⟩
  rename_i srcenv hsrc
  split at h
  · cases h
  rename_i srcdir hsrcdir
  simp only [bind_eq_ok] at h
  obtain ⟨look, hlook, h⟩ := h
  cases look with
  | none =>
      cases h
      exact Or.inl ⟨by decide, rfl⟩
  | some page =>
      obtain ⟨page, pte⟩ := page
      simp only at h
      split at h
      · cases h
        exact Or.inl ⟨by decide, rfl⟩
      rename_i hwrite
      split at h
      · rename_i r1 hdst
        cases h
        exact Or.inl ⟨envid2env_neg hdst, rfl⟩
      rename_i dstenv hdst
      split at h
      · cases h
      rename_i dstdir hdstdir
      simp only [bind_eq_ok] at h
      obtain ⟨⟨r1, m1⟩, hins, h⟩ := h
      have hchecked : MapChecked k cur srcenvid srcva dstenvid dstva perm dstenv srcdir dstdir
          page pte :=
        { permOk := not_not.mp hperm
          srcvaOk := (not_not.mp hva).1
          dstvaOk := (not_not.mp hva).2
          src := ⟨srcenv, hsrc, hsrcdir⟩
          look := hlook
          write := fun hw => by_contra fun hnot => hwrite ⟨hnot, hw⟩
          dst := hdst
          dstdir := hdstdir }
      split at h
      · rename_i hneg
        simp only [bind_eq_ok] at h
        obtain ⟨m, hfree, h⟩ := h
        cases h
        exact Or.inr ⟨dstenv, srcdir, dstdir, page, pte, m, hchecked,
          ⟨m1, hins, by rw [if_pos hneg]; exact hfree⟩, rfl⟩
      · rename_i hneg
        cases h
        exact Or.inr ⟨dstenv, srcdir, dstdir, page, pte, m1, hchecked,
          ⟨m1, hins, by rw [if_neg hneg]⟩, rfl⟩

theorem sysPageAlloc_cases {envid va perm : Word} {r : Int}
    (h : sysPageAlloc k cur envid va perm = .ok (r, k')) :
    (r < 0 ∧ k' = k) ∨ ∃ e pgdir page m1 m, PermOk perm ∧ VaOk va ∧
      envid2env k cur envid false = .ok e ∧ (k.envs e).envPgdir = some pgdir ∧
      pageAlloc k.phys true = .ok (some page, m1) ∧ InsertOrFree m1 pgdir page va perm r m ∧
      k' = { k with phys := m } := by
  unfold sysPageAlloc at h
  split at h
  · cases h
    exact Or.inl ⟨by decide, rfl⟩
  rename_i hperm
  split at h
  · cases h
    exact Or.inl ⟨by decide, rfl⟩
  rename_i hva
  split at h
  · rename_i r1 hfind
    cases h
    exact Or.inl ⟨envid2env_neg hfind, rfl⟩
  rename_i e hfind
  simp only [bind_eq_ok] at h
  obtain ⟨⟨p, m1⟩, halloc, h⟩ := h
  cases p with
  | none =>
      cases h
      exact Or.inl ⟨by show -E_NO_MEM < 0; decide, rfl⟩
  | some page =>
      simp only at h
      split at h
      · cases h
      rename_i pgdir hdir
      simp only [bind_eq_ok] at h
      obtain ⟨⟨r1, m2⟩, hins, h⟩ := h
      split at h
      · rename_i hneg
        simp only [bind_eq_ok] at h
        obtain ⟨m, hfree, h⟩ := h
        cases h
        exact Or.inr ⟨e, pgdir, page, m1, m, not_not.mp hperm, not_not.mp hva, hfind, hdir, halloc,
          ⟨m2, hins, by rw [if_pos hneg]; exact hfree⟩, rfl⟩
      · rename_i hneg
        cases h
        exact Or.inr ⟨e, pgdir, page, m1, m2, not_not.mp hperm, not_not.mp hva, hfind, hdir, halloc,
          ⟨m2, hins, by rw [if_neg hneg]⟩, rfl⟩

theorem sysPageUnmap_cases {envid va : Word} {r : Int}
    (h : sysPageUnmap k cur envid va = .ok (r, k')) :
    (r < 0 ∧ k' = k) ∨ ∃ e pgdir m, r = 0 ∧ VaOk va ∧ envid2env k cur envid false = .ok e ∧
      (k.envs e).envPgdir = some pgdir ∧ pageRemove k.phys pgdir va = .ok m ∧
      k' = { k with phys := m } := by
  unfold sysPageUnmap at h
  split at h
  · cases h
    exact Or.inl ⟨by decide, rfl⟩
  rename_i hva
  split at h
  · rename_i r1 hfind
    cases h
    exact Or.inl ⟨envid2env_neg hfind, rfl⟩
  rename_i e hfind
  split at h
  · cases h
  rename_i pgdir hdir
  simp only [bind_eq_ok] at h
  obtain ⟨m, hrem, h⟩ := h
  cases h
  exact Or.inr ⟨e, pgdir, m, rfl, not_not.mp hva, hfind, hdir, hrem, rfl⟩

/-- A page call changes the memory and nothing else. -/
theorem sysPageMap_phys {srcenvid srcva dstenvid dstva perm : Word} {r : Int}
    (h : sysPageMap k cur srcenvid srcva dstenvid dstva perm = .ok (r, k')) :
    ∃ m, k' = { k with phys := m } := by
  rcases sysPageMap_cases h with ⟨-, rfl⟩ | ⟨_, _, _, _, _, m, -, -, rfl⟩
  · exact ⟨k'.phys, rfl⟩
  · exact ⟨m, rfl⟩

theorem sysPageAlloc_phys {envid va perm : Word} {r : Int}
    (h : sysPageAlloc k cur envid va perm = .ok (r, k')) : ∃ m, k' = { k with phys := m } := by
  rcases sysPageAlloc_cases h with ⟨-, rfl⟩ | ⟨_, _, _, _, m, -, -, -, -, -, -, rfl⟩
  · exact ⟨k'.phys, rfl⟩
  · exact ⟨m, rfl⟩

theorem sysPageUnmap_phys {envid va : Word} {r : Int}
    (h : sysPageUnmap k cur envid va = .ok (r, k')) : ∃ m, k' = { k with phys := m } := by
  rcases sysPageUnmap_cases h with ⟨-, rfl⟩ | ⟨_, _, m, -, -, -, -, -, rfl⟩
  · exact ⟨k'.phys, rfl⟩
  · exact ⟨m, rfl⟩

end

/-! ## System calls -/

/-- The registers a system call is made with. -/
structure Call where
  no : Word
  a1 : Word
  a2 : Word
  a3 : Word
  a4 : Word
  a5 : Word
  deriving DecidableEq

def Trapframe.call (tf : Trapframe) : Call :=
  ⟨tf.tfRegs.regEax, tf.tfRegs.regEdx, tf.tfRegs.regEcx, tf.tfRegs.regEbx, tf.tfRegs.regEdi,
    tf.tfRegs.regEsi⟩

/-- The call's entry in the dispatch table. -/
def Call.op (q : Call) : Option Sysno := Sysno.ofWord q.no

/-- The call, made by `cur` on CPU `c`. -/
def Call.run (q : Call) (k : Kernel) (c : Nat) (cur : Slot) (key : Int) :
    Except String (Outcome Int) :=
  syscall k c cur key q.no q.a1 q.a2 q.a3 q.a4 q.a5

/-- `user_mem_assert` on `e` would not pass. -/
def CheckFails (k : Kernel) (e : Slot) (va len perm : Word) : Prop :=
  ∃ pgdir r x, (k.envs e).envPgdir = some pgdir ∧
    userMemCheck k.phys pgdir va len (perm ||| PTE_U) = .ok (r, x) ∧ r < 0

/-- The first store of `sys_ipc_try_send`: `env->env_ipc_perm = 0`. -/
def Kernel.clearPerm (k : Kernel) (e : Slot) : Kernel :=
  k.setEnv e fun E => { E with envIpcPerm := 0 }

/-- The state a `sys_ipc_try_send` that returns 0 leaves. -/
def Kernel.delivered (k : Kernel) (cur e : Slot) (value perm : Word) (page : Bool) (m : Phys) :
    Kernel :=
  ({ k with phys := m }.setEnv e fun E =>
    { E with
      envIpcPerm := if page then perm else 0
      envIpcRecving := false
      envIpcFrom := (k.envs cur).envId
      envIpcValue := value
      envTf := E.envTf.setEax 0
      envStatus := .runnable }).log (.sent cur e value page 0)

/-- The state in which `sys_ipc_recv` calls `sched_yield`. -/
def Kernel.receiving (k : Kernel) (cur : Slot) (dstva : Word) : Kernel :=
  (k.setEnv cur fun E =>
    { E with
      envIpcDstva := if dstva < UTOP then dstva else E.envIpcDstva
      envIpcRecving := true
      envStatus := .notRunnable }).log (.recv cur dstva)

/-- The state `sys_exofork` leaves, with the new environment in `e`. -/
def Kernel.exoforked (k : Kernel) (cur e : Slot) (kva : Ppn) (m : Phys) : Kernel :=
  let k' := k.allocated e (k.envs cur).envId kva m
  k'.setEnv e fun E =>
    { E with envStatus := .notRunnable, envTf := (k'.envs cur).envTf.setEax 0 }

/-- How a system call of `cur`, the current environment of CPU `c`, can end. -/
inductive SyscallEffect (k : Kernel) (c : Nat) (cur : Slot) (q : Call) : Outcome Int → Prop
  /-- Nothing is changed: an error, or a call that only looks. -/
  | same (r : Int) : SyscallEffect k c cur q (.back r k)
  | print (bytes : List Byte) (hop : q.op = some .cputs) :
      SyscallEffect k c cur q (.back 0 (k.log (.print bytes)))
  /-- The caller destroyed itself, or was for a bad pointer. -/
  | exit (pgdir : Ppn) (m : Phys) (k' : Kernel) (hdir : (k.envs cur).envPgdir = some pgdir)
      (hm : freeMem k.phys pgdir = .ok m)
      (hyield : schedYield ((k.freed c cur m).setCur c none) c = .ok k') :
      SyscallEffect k c cur q (.away k')
  | destroy (e : Slot) (k' : Kernel) (hop : q.op = some .envDestroy)
      (hperm : envid2env k cur q.a1 true = .ok e) (hne : e ≠ cur)
      (hd : Destroyed k c e (.back () k')) : SyscallEffect k c cur q (.back 0 k')
  /-- A target that fails the check is destroyed, and its frame is set all the same. -/
  | trapframe (e : Slot) (k' : Kernel) (tf : Trapframe) (hop : q.op = some .envSetTrapframe)
      (hperm : envid2env k cur q.a1 true = .ok e)
      (hd : k' = k ∨ e ≠ cur ∧ CheckFails k e q.a2 68 PTE_W ∧ Destroyed k c e (.back () k')) :
      SyscallEffect k c cur q (.back 0 (k'.setEnv e fun E => { E with envTf := tf }))
  | exofork (e : Slot) (r : Int) (kva : Ppn) (m : Phys) (hop : q.op = some .exofork)
      (hlist : k.envFreeList = some e) (hm : SetupVm k.phys kva m) :
      SyscallEffect k c cur q (.back r (k.exoforked cur e kva m))
  | setStatus (e : Slot) (st : EnvStatus) (hop : q.op = some .envSetStatus)
      (harg : statusArg q.a2 = some st) (hperm : envid2env k cur q.a1 true = .ok e) :
      SyscallEffect k c cur q (.back 0 (k.setEnv e fun E => { E with envStatus := st }))
  | upcall (e : Slot) (hop : q.op = some .envSetPgfaultUpcall)
      (hfind : envid2env k cur q.a1 false = .ok e) :
      SyscallEffect k c cur q (.back 0 (k.setEnv e fun E => { E with envPgfaultUpcall := q.a2 }))
  | pageAlloc (r : Int) (m : Phys) (hop : q.op = some .pageAlloc)
      (hcall : sysPageAlloc k cur q.a1 q.a2 q.a3 = .ok (r, { k with phys := m })) :
      SyscallEffect k c cur q (.back r { k with phys := m })
  | pageMap (r : Int) (m : Phys) (hop : q.op = some .pageMap)
      (hcall : sysPageMap k cur q.a1 q.a2 q.a3 q.a4 q.a5 = .ok (r, { k with phys := m })) :
      SyscallEffect k c cur q (.back r { k with phys := m })
  | pageUnmap (r : Int) (m : Phys) (hop : q.op = some .pageUnmap)
      (hcall : sysPageUnmap k cur q.a1 q.a2 = .ok (r, { k with phys := m })) :
      SyscallEffect k c cur q (.back r { k with phys := m })
  | yield (k' : Kernel) (hop : q.op = some .yield) (hyield : schedYield k c = .ok k') :
      SyscallEffect k c cur q (.away k')
  | sendRefused (e : Slot) (hop : q.op = some .ipcTrySend)
      (hfind : envid2env k cur q.a1 false = .ok e) (hrecv : (k.envs e).envIpcRecving = false) :
      SyscallEffect k c cur q
        (.back (-E_IPC_NOT_RECV) (k.log (.sent cur e q.a2 false (-E_IPC_NOT_RECV))))
  /-- The page could not be mapped. -/
  | sendFailed (e : Slot) (r : Int) (m : Phys) (hop : q.op = some .ipcTrySend)
      (hfind : envid2env k cur q.a1 false = .ok e) (hrecv : (k.envs e).envIpcRecving = true)
      (hpage : q.a3 < UTOP ∧ (k.envs e).envIpcDstva < UTOP) (hr : r ≠ 0)
      (hmap : sysPageMap (k.clearPerm e) cur 0 q.a3 q.a1 (k.envs e).envIpcDstva q.a4 =
        .ok (r, { k.clearPerm e with phys := m })) :
      SyscallEffect k c cur q
        (.back r ({ k.clearPerm e with phys := m }.log (.sent cur e q.a2 false r)))
  | sent (e : Slot) (page : Bool) (m : Phys) (hop : q.op = some .ipcTrySend)
      (hfind : envid2env k cur q.a1 false = .ok e) (hrecv : (k.envs e).envIpcRecving = true)
      (hpage : page = decide (q.a3 < UTOP ∧ (k.envs e).envIpcDstva < UTOP))
      (hmap : if page then
          sysPageMap (k.clearPerm e) cur 0 q.a3 q.a1 (k.envs e).envIpcDstva q.a4 =
            .ok (0, { k.clearPerm e with phys := m })
        else m = k.phys) :
      SyscallEffect k c cur q (.back 0 (k.delivered cur e q.a2 q.a4 page m))
  | recv (k' : Kernel) (hop : q.op = some .ipcRecv)
      (hva : ¬ (q.a1 < UTOP ∧ q.a1 % PGSIZE ≠ 0))
      (hyield : schedYield (k.receiving cur q.a1) c = .ok k') :
      SyscallEffect k c cur q (.away k')

section

variable {k : Kernel} {c : Nat} {cur : Slot} {q : Call} {o : Outcome Int}

theorem sysCputs_effect (hcur : k.curenv c = some cur) (hop : q.op = some .cputs)
    (h : sysCputs k c cur q.a1 q.a2 = .ok o) : SyscallEffect k c cur q o := by
  simp only [sysCputs, bind_eq_ok] at h
  obtain ⟨o1, hassert, h⟩ := h
  obtain ⟨pgdir, r, x, hdir, hcheck, ⟨-, rfl⟩ | ⟨-, hd⟩⟩ := userMemAssert_cases hassert
  · simp only at h
    split at h
    · cases h
    · cases h
      exact .print _ hop
  · cases hd with
    | zombie _ hne => exact absurd hcur hne
    | gone _ hne => exact absurd hcur hne
    | left _ pgdir m k' hdir hm hyield =>
        cases h
        exact .exit pgdir m k' hdir hm hyield

theorem sysEnvDestroy_effect (hcur : k.curenv c = some cur) (hop : q.op = some .envDestroy)
    (h : sysEnvDestroy k c cur q.a1 = .ok o) : SyscallEffect k c cur q o := by
  unfold sysEnvDestroy at h
  split at h
  · cases h
    exact .same _
  · rename_i e hperm
    simp only [bind_eq_ok] at h
    obtain ⟨o1, hdestroy, h⟩ := h
    have hd := envDestroy_cases hdestroy
    cases hd with
    | zombie hs hne =>
        cases h
        exact .destroy e _ hop hperm (fun heq => hne (heq ▸ hcur)) (.zombie hs hne)
    | gone hs hne pgdir m hdir hm =>
        cases h
        exact .destroy e _ hop hperm (fun heq => hne (heq ▸ hcur)) (.gone hs hne pgdir m hdir hm)
    | left heq pgdir m k' hdir hm hyield =>
        cases h
        obtain rfl : cur = e := Option.some.inj (hcur.symm.trans heq)
        exact .exit pgdir m k' hdir hm hyield

theorem sysEnvSetTrapframe_effect (hcur : k.curenv c = some cur)
    (hop : q.op = some .envSetTrapframe) (h : sysEnvSetTrapframe k c cur q.a1 q.a2 = .ok o) :
    SyscallEffect k c cur q o := by
  unfold sysEnvSetTrapframe at h
  split at h
  · cases h
    exact .same _
  · rename_i e hperm
    simp only [bind_eq_ok] at h
    obtain ⟨o1, hassert, h⟩ := h
    obtain ⟨pgdir, r, x, hdir, hcheck, ⟨-, rfl⟩ | ⟨hr, hd⟩⟩ := userMemAssert_cases hassert
    · simp only at h
      split at h
      · cases h
      · cases h
        exact .trapframe e k _ hop hperm (Or.inl rfl)
    · have hfails : CheckFails k e q.a2 68 PTE_W := ⟨pgdir, r, x, hdir, hcheck, hr⟩
      cases hd with
      | zombie hs hne =>
          simp only at h
          split at h
          · cases h
          · cases h
            exact .trapframe e _ _ hop hperm
              (Or.inr ⟨fun heq => hne (heq ▸ hcur), hfails, .zombie hs hne⟩)
      | gone hs hne pgdir m hdir hm =>
          simp only at h
          split at h
          · cases h
          · cases h
            exact .trapframe e _ _ hop hperm
              (Or.inr ⟨fun heq => hne (heq ▸ hcur), hfails, .gone hs hne pgdir m hdir hm⟩)
      | left heq pgdir m k' hdir hm hyield =>
          cases h
          obtain rfl : cur = e := Option.some.inj (hcur.symm.trans heq)
          exact .exit pgdir m k' hdir hm hyield

theorem sysIpcTrySend_effect {r : Int} {k' : Kernel} (hop : q.op = some .ipcTrySend)
    (h : sysIpcTrySend k cur q.a1 q.a2 q.a3 q.a4 = .ok (r, k')) :
    SyscallEffect k c cur q (.back r k') := by
  unfold sysIpcTrySend at h
  split at h
  · cases h
    exact .same _
  · rename_i e hfind
    by_cases hrecv : (k.envs e).envIpcRecving = true
    · rw [if_neg (not_not.mpr hrecv)] at h
      simp only [Kernel.setEnv_envs, Function.update_self] at h
      by_cases hpage : q.a3 < UTOP ∧ (k.envs e).envIpcDstva < UTOP
      · simp only [hpage, and_self, decide_true, if_true, bind_eq_ok] at h
        obtain ⟨⟨r1, k1⟩, hmap, h⟩ := h
        obtain ⟨m, rfl⟩ := sysPageMap_phys hmap
        by_cases hr : r1 = 0
        · subst hr
          simp only [ne_eq, not_true_eq_false, if_false] at h
          cases h
          have heff := SyscallEffect.sent (c := c) e true m hop hfind hrecv (by simp [hpage])
            (by simpa [Kernel.clearPerm] using hmap)
          rcases eq_or_ne cur e with rfl | hne
          · simpa [Kernel.delivered, Kernel.setEnv, Kernel.log] using heff
          · simpa [Kernel.delivered, Kernel.setEnv, Kernel.log, hne] using heff
        · rw [if_pos hr] at h
          cases h
          exact .sendFailed e r1 m hop hfind hrecv hpage hr hmap
      · simp only [hpage, decide_false, Bool.false_eq_true, if_false, bind_eq_ok] at h
        obtain ⟨⟨r1, k1⟩, hmap, h⟩ := h
        cases hmap
        simp only [ne_eq, not_true_eq_false, if_false] at h
        cases h
        have heff := SyscallEffect.sent (c := c) e false k.phys hop hfind hrecv (by simp [hpage])
          (by simp)
        rcases eq_or_ne cur e with rfl | hne
        · simpa [Kernel.delivered, Kernel.setEnv, Kernel.log] using heff
        · simpa [Kernel.delivered, Kernel.setEnv, Kernel.log, hne] using heff
    · rw [if_pos hrecv] at h
      cases h
      exact .sendRefused e hop hfind (by simpa using hrecv)

theorem sysIpcRecv_effect (hop : q.op = some .ipcRecv) (h : sysIpcRecv k c cur q.a1 = .ok o) :
    SyscallEffect k c cur q o := by
  unfold sysIpcRecv at h
  split at h
  · cases h
    exact .same _
  · rename_i hva
    simp only [bind_eq_ok] at h
    obtain ⟨k', hyield, h⟩ := h
    cases h
    refine .recv k' hop hva ?_
    by_cases hd : q.a1 < UTOP <;>
      simpa [Kernel.receiving, Kernel.setEnv, Kernel.log, hd] using hyield

theorem sysExofork_effect {r : Int} {k' : Kernel} (hop : q.op = some .exofork)
    (h : sysExofork k cur = .ok (r, k')) : SyscallEffect k c cur q (.back r k') := by
  simp only [sysExofork, bind_eq_ok] at h
  obtain ⟨⟨res, k1⟩, halloc, h⟩ := h
  rcases envAlloc_ok halloc with ⟨r1, rfl, -, rfl⟩ | ⟨e, kva, m, rfl, hlist, hm, rfl⟩
  · cases h
    exact .same _
  · cases h
    exact .exofork e _ kva m hop hlist hm

/-- What a system call can do. -/
theorem syscall_effect {key : Int} (hcur : k.curenv c = some cur)
    (h : q.run k c cur key = .ok o) : SyscallEffect k c cur q o := by
  unfold Call.run syscall at h
  cases hop : Sysno.ofWord q.no with
  | none =>
      rw [hop] at h
      cases h
      exact .same _
  | some op =>
      rw [hop] at h
      cases op with
      | cputs => exact sysCputs_effect hcur hop h
      | cgetc =>
          cases h
          exact .same _
      | getenvid =>
          cases h
          exact .same _
      | envDestroy => exact sysEnvDestroy_effect hcur hop h
      | pageAlloc =>
          simp only [bind_eq_ok] at h
          obtain ⟨⟨r, k'⟩, hcall, h⟩ := h
          obtain ⟨m, rfl⟩ := sysPageAlloc_phys hcall
          cases h
          exact .pageAlloc r m hop hcall
      | pageMap =>
          simp only [bind_eq_ok] at h
          obtain ⟨⟨r, k'⟩, hcall, h⟩ := h
          obtain ⟨m, rfl⟩ := sysPageMap_phys hcall
          cases h
          exact .pageMap r m hop hcall
      | pageUnmap =>
          simp only [bind_eq_ok] at h
          obtain ⟨⟨r, k'⟩, hcall, h⟩ := h
          obtain ⟨m, rfl⟩ := sysPageUnmap_phys hcall
          cases h
          exact .pageUnmap r m hop hcall
      | exofork =>
          simp only [bind_eq_ok] at h
          obtain ⟨⟨r, k'⟩, hcall, h⟩ := h
          cases h
          exact sysExofork_effect hop hcall
      | envSetStatus =>
          simp only [sysEnvSetStatus] at h
          split at h
          · cases h
            exact .same _
          · rename_i st harg
            split at h
            · cases h
              exact .same _
            · rename_i e hperm
              cases h
              exact .setStatus e st hop harg hperm
      | envSetTrapframe => exact sysEnvSetTrapframe_effect hcur hop h
      | envSetPgfaultUpcall =>
          simp only [sysEnvSetPgfaultUpcall] at h
          split at h
          · cases h
            exact .same _
          · rename_i e hfind
            cases h
            exact .upcall e hop hfind
      | yield =>
          simp only [bind_eq_ok] at h
          obtain ⟨k', hyield, h⟩ := h
          cases h
          exact .yield k' hop hyield
      | ipcTrySend =>
          simp only [bind_eq_ok] at h
          obtain ⟨⟨r, k'⟩, hcall, h⟩ := h
          cases h
          exact sysIpcTrySend_effect hop hcall
      | ipcRecv => exact sysIpcRecv_effect hop h

end

/-! ## Traps -/

/-- The state in which `trap_dispatch` is called for a trap of `cur`. -/
def Kernel.entered (k : Kernel) (c : Nat) (cur : Slot) (tf : Trapframe) : Kernel :=
  (k.setCpuStatus c .started).setEnv cur fun E => { E with envTf := tf }

/-- How the dispatch of a trap of `cur`, the current environment of CPU `c`, can end. -/
inductive Dispatched (k : Kernel) (c : Nat) (cur : Slot) (tf : Trapframe) (cr2 : Word)
    (key : Int) : Outcome Unit → Prop
  /-- A device interrupt. -/
  | back : Dispatched k c cur tf cr2 key (.back () k)
  | timer (k' : Kernel) (hyield : schedYield k c = .ok k') :
      Dispatched k c cur tf cr2 key (.away k')
  /-- The fault frame is pushed and the upcall run. -/
  | upcall (m : Phys) (k' : Kernel) (htrap : tf.tfTrapno = T_PGFLT)
      (hup : (k.envs cur).envPgfaultUpcall ≠ 0)
      (hcheck : ¬ CheckFails k cur (utfTop (k.envs cur).envTf.tfEsp - UTF_SIZE) UTF_SIZE
        (PTE_U ||| PTE_P ||| PTE_W))
      (hstore : storeBytes k.phys (k.cpus c).cr3 (PTE_P ||| PTE_W)
        (utfTop (k.envs cur).envTf.tfEsp - UTF_SIZE)
        ((utrapframe cr2 (k.envs cur).envTf).flatMap wordBytes) = some m)
      (hrun : envRun ({ k with phys := m }.setEnv cur fun E =>
        { E with envTf := { E.envTf with
          tfEip := (k.envs cur).envPgfaultUpcall
          tfEsp := utfTop (k.envs cur).envTf.tfEsp - UTF_SIZE } }) c cur = .ok k') :
      Dispatched k c cur tf cr2 key (.away k')
  /-- A fault without a handler, or a trap nothing handles. -/
  | destroyed (o : Outcome Unit) (hd : Destroyed k c cur o) : Dispatched k c cur tf cr2 key o
  /-- A system call that left the kernel. -/
  | callAway (k' : Kernel) (htrap : tf.tfTrapno = T_SYSCALL)
      (hcall : tf.call.run k c cur key = .ok (.away k')) : Dispatched k c cur tf cr2 key (.away k')
  /-- A system call that returned. -/
  | callBack (r : Int) (k' : Kernel) (htrap : tf.tfTrapno = T_SYSCALL)
      (hcall : tf.call.run k c cur key = .ok (.back r k')) :
      Dispatched k c cur tf cr2 key
        (.back () (k'.setEnv cur fun E => { E with envTf := E.envTf.setEax (retWord r) }))

section

variable {k k' : Kernel} {c : Nat} {cur : Slot} {tf : Trapframe} {cr2 : Word} {key : Int}
  {o : Outcome Unit}

theorem pageFaultHandler_dispatched (hcur : k.curenv c = some cur) (htrap : tf.tfTrapno = T_PGFLT)
    (h : pageFaultHandler k c cur cr2 = .ok o) : Dispatched k c cur tf cr2 key o := by
  unfold pageFaultHandler at h
  by_cases hup : (k.envs cur).envPgfaultUpcall ≠ 0
  · simp only [if_pos hup, bind_eq_ok] at h
    obtain ⟨o1, hassert, h⟩ := h
    obtain ⟨pgdir, r, x, hdir, hcheck, ⟨hr, rfl⟩ | ⟨-, hd⟩⟩ := userMemAssert_cases hassert
    · simp only at h
      split at h
      · cases h
      · rename_i m hstore
        simp only [bind_eq_ok] at h
        obtain ⟨k', hrun, h⟩ := h
        cases h
        refine .upcall m k' htrap hup ?_ hstore hrun
        rintro ⟨pgdir', r', x', hdir', hcheck', hr'⟩
        obtain rfl : pgdir = pgdir' := Option.some.inj (hdir.symm.trans hdir')
        rw [hcheck] at hcheck'
        cases hcheck'
        exact hr hr'
    · cases hd with
      | zombie _ hne => exact absurd hcur hne
      | gone _ hne => exact absurd hcur hne
      | left heq pgdir m k' hdir hm hyield =>
          cases h
          exact .destroyed _ (.left heq pgdir m k' hdir hm hyield)
  · rw [if_neg hup] at h
    exact .destroyed o (envDestroy_cases h)

theorem trapDispatch_cases (hcur : k.curenv c = some cur) (huser : tf.tfCs &&& 3 = 3)
    (h : trapDispatch k c (some cur) tf cr2 key = .ok o) : Dispatched k c cur tf cr2 key o := by
  have hnot : tf.tfCs &&& 3 ≠ 0 := by
    rw [huser]
    decide
  unfold trapDispatch at h
  split at h
  · cases h
  split at h
  · rename_i htrap
    exact pageFaultHandler_dispatched hcur htrap h
  split at h
  · rename_i htrap
    simp only [bind_eq_ok] at h
    obtain ⟨o1, hcall, h⟩ := h
    cases o1 with
    | away k' =>
        cases h
        exact .callAway k' htrap hcall
    | back r k' =>
        cases h
        exact .callBack r k' htrap hcall
  split at h
  · simp only [bind_eq_ok] at h
    obtain ⟨k', hyield, h⟩ := h
    cases h
    exact .timer k' hyield
  split at h
  · cases h
    exact .back
  split at h
  · cases h
    exact .back
  split at h
  · cases h
  · exact .destroyed o (envDestroy_cases h)

/-- What a step of the machine can do. -/
inductive StepEffect (k : Kernel) : Action → Kernel → Prop
  | start (c : Nat) (k' : Kernel) (hcur : k.curenv c = none)
      (hyield : schedYield ((k.setCpuStatus c .started).lcr3 c k.phys.kernPgdir) c = .ok k') :
      StepEffect k (.start c) k'
  /-- The garbage collection of a zombie. -/
  | reap (c : Nat) (tf : Trapframe) (cr2 : Word) (key : Int) (cur : Slot) (pgdir : Ppn) (m : Phys)
      (k' : Kernel) (hmode : UserMode k c cur) (hstatus : k.status cur = .dying)
      (hdir : (k.envs cur).envPgdir = some pgdir) (hm : freeMem k.phys pgdir = .ok m)
      (hyield : schedYield (((k.setCpuStatus c .started).freed c cur m).setCur c none) c =
        .ok k') : StepEffect k (.trap c tf cr2 key) k'
  | user (c : Nat) (tf : Trapframe) (cr2 : Word) (key : Int) (cur : Slot) (o : Outcome Unit)
      (k' : Kernel) (hmode : UserMode k c cur) (hstatus : k.status cur ≠ .dying)
      (hd : Dispatched (k.entered c cur tf) c cur tf cr2 key o) (hfinish : o.finish c = .ok k') :
      StepEffect k (.trap c tf cr2 key) k'
  /-- An interrupt on a halted CPU. -/
  | wake (c : Nat) (tf : Trapframe) (cr2 : Word) (key : Int) (k' : Kernel)
      (hhalted : (k.cpus c).cpuStatus = .halted)
      (hback : schedYield (k.setCpuStatus c .started) c = .ok k' ∨
        trapReturn (k.setCpuStatus c .started) c = .ok k') : StepEffect k (.trap c tf cr2 key) k'
  | store (c : Nat) (va : Word) (b : Byte) (cur : Slot) (m : Phys) (hmode : UserMode k c cur)
      (hstore : storeByte k.phys (k.cpus c).cr3 va (PTE_P ||| PTE_W ||| PTE_U) b = some m) :
      StepEffect k (.store c va b) { k with phys := m }

theorem trap_user_effect (hmode : UserMode k c cur) (huser : tf.tfCs &&& 3 = 3)
    (h : trap k c tf cr2 key = .ok k') : StepEffect k (.trap c tf cr2 key) k' := by
  have hcur : (k.setCpuStatus c .started).curenv c = some cur := by simpa using hmode.1
  simp only [trap, if_pos huser, hcur] at h
  split at h
  · rename_i hdying
    simp only [bind_eq_ok] at h
    obtain ⟨k1, hfree, hyield⟩ := h
    obtain ⟨pgdir, m, hdir, hm, rfl⟩ := envFree_ok.mp hfree
    exact .reap c tf cr2 key cur pgdir m k' hmode hdying hdir hm hyield
  · rename_i hdying
    simp only [bind_eq_ok] at h
    obtain ⟨o, hd, hfinish⟩ := h
    exact .user c tf cr2 key cur o k' hmode hdying (trapDispatch_cases hcur huser hd) hfinish

theorem trap_halted_effect (hhalted : (k.cpus c).cpuStatus = .halted) (hcs : tf.tfCs = GD_KT)
    (hlo : IRQ_OFFSET ≤ tf.tfTrapno) (hhi : tf.tfTrapno < IRQ_OFFSET + 16)
    (h : trap k c tf cr2 key = .ok k') : StepEffect k (.trap c tf cr2 key) k' := by
  have hlo' : 32 ≤ tf.tfTrapno.toNat := hlo
  have hhi' : tf.tfTrapno.toNat < 48 := hhi
  have hkern : ¬ tf.tfCs &&& 3 = 3 := by
    rw [hcs]
    decide
  have hbrk : ¬ tf.tfTrapno = T_BRKPT := fun heq => by
    rw [heq] at hlo'
    exact absurd hlo' (by decide)
  have hpf : ¬ tf.tfTrapno = T_PGFLT := fun heq => by
    rw [heq] at hlo'
    exact absurd hlo' (by decide)
  have hsys : ¬ tf.tfTrapno = T_SYSCALL := fun heq => by
    rw [heq] at hhi'
    exact absurd hhi' (by decide)
  simp only [trap, if_neg hkern, trapDispatch, if_neg hbrk, if_neg hpf, if_neg hsys, if_pos hcs,
    bind_eq_ok] at h
  obtain ⟨o, hd, hfinish⟩ := h
  split at hd
  · simp only [bind_eq_ok] at hd
    obtain ⟨k1, hyield, hd⟩ := hd
    cases hd
    cases hfinish
    exact .wake c tf cr2 key _ hhalted (Or.inl hyield)
  split at hd
  · cases hd
    exact .wake c tf cr2 key k' hhalted (Or.inr hfinish)
  split at hd
  · cases hd
    exact .wake c tf cr2 key k' hhalted (Or.inr hfinish)
  · cases hd

theorem step_effect {a : Action} (h : Step k a k') : StepEffect k a k' := by
  obtain ⟨hen, hexec⟩ := h
  cases a with
  | start c => exact .start c k' hen.1 hexec
  | trap c tf cr2 key =>
      rcases hen with ⟨⟨cur, hmode⟩, huser⟩ | ⟨hhalted, hcs, hlo, hhi⟩
      · exact trap_user_effect hmode huser hexec
      · exact trap_halted_effect hhalted hcs hlo hhi hexec
  | store c va b =>
      obtain ⟨cur, hmode⟩ := hen
      simp only [exec] at hexec
      split at hexec
      · cases hexec
      · rename_i m hstore
        cases hexec
        exact .store c va b cur m hmode hstore

end

/-! ## Leaving the kernel

An invariant of the machine need not hold while a CPU is inside the kernel.  `P` is
what holds there, `Q` what holds outside; `EntryRules` are the two ways out. -/

/-- `P` of the state a function returned with, `Q` of the one it left the kernel in. -/
def Outcome.Ends {α : Type} (P Q : Kernel → Prop) : Outcome α → Prop
  | .back _ k => P k
  | .away k => Q k

/-- The state in which `sched_halt` leaves. -/
def Kernel.halt (k : Kernel) (c : Nat) : Kernel :=
  ((k.setCur c none).lcr3 c k.phys.kernPgdir).setCpuStatus c .halted

structure EntryRules (c : Nat) (P Q : Kernel → Prop) : Prop where
  ran : ∀ k e pgdir, P k →
    (k.status e = .runnable ∨ k.curenv c = some e ∧ k.status e = .running) →
    (k.envs e).envPgdir = some pgdir → Q (k.ran c e pgdir)
  halted : ∀ k, P k → (∀ e, k.curenv c = some e → k.status e ≠ .running) → Q (k.halt c)

namespace EntryRules

variable {c : Nat} {P Q : Kernel → Prop} {k k' : Kernel}

theorem yield (R : EntryRules c P Q) (hP : P k) (h : schedYield k c = .ok k') : Q k' := by
  cases schedYield_cases h with
  | picked e pgdir hstatus hdir heq =>
      subst heq
      exact R.ran k e pgdir hP (Or.inl hstatus) hdir
  | again e pgdir hcur hstatus hdir heq =>
      subst heq
      exact R.ran k e pgdir hP (Or.inr ⟨hcur, hstatus⟩) hdir
  | halted hnone heq =>
      subst heq
      exact R.halted k hP hnone

theorem trapReturn (R : EntryRules c P Q) (hP : P k) (h : trapReturn k c = .ok k') : Q k' := by
  unfold SisOp.Jos.trapReturn at h
  split at h
  · rename_i e hcur
    split at h
    · rename_i hrun
      obtain ⟨pgdir, hdir, rfl⟩ := envRun_ok.mp h
      exact R.ran k e pgdir hP (Or.inr ⟨hcur, hrun⟩) hdir
    · exact R.yield hP h
  · exact R.yield hP h

theorem finish (R : EntryRules c P Q) {o : Outcome Unit} (ho : o.Ends P Q)
    (h : o.finish c = .ok k') : Q k' := by
  cases o with
  | away k =>
      cases h
      exact ho
  | back r k => exact R.trapReturn ho h

/-- The dispatch of a trap of `cur`: what is left to show is about the fault frame, the
destruction of `cur` and the system calls. -/
theorem dispatched (R : EntryRules c P Q) {cur : Slot} {tf : Trapframe} {cr2 : Word} {key : Int}
    {o : Outcome Unit} (hP : P k) (hcur : k.curenv c = some cur)
    (hup : ∀ m tf' pgdir, tf.tfTrapno = T_PGFLT →
      ¬ CheckFails k cur (utfTop (k.envs cur).envTf.tfEsp - UTF_SIZE) UTF_SIZE
        (PTE_U ||| PTE_P ||| PTE_W) →
      storeBytes k.phys (k.cpus c).cr3 (PTE_P ||| PTE_W)
        (utfTop (k.envs cur).envTf.tfEsp - UTF_SIZE)
        ((utrapframe cr2 (k.envs cur).envTf).flatMap wordBytes) = some m →
      (k.envs cur).envPgdir = some pgdir →
      Q (({ k with phys := m }.setEnv cur fun E => { E with envTf := tf' }).ran c cur pgdir))
    (hleft : ∀ pgdir m, (k.envs cur).envPgdir = some pgdir → freeMem k.phys pgdir = .ok m →
      P ((k.freed c cur m).setCur c none))
    (hcall : ∀ o' : Outcome Int, tf.tfTrapno = T_SYSCALL → SyscallEffect k c cur tf.call o' →
      o'.Ends P Q)
    (heax : ∀ k' r, P k' → P (k'.setEnv cur fun E => { E with envTf := E.envTf.setEax r }))
    (hd : Dispatched k c cur tf cr2 key o) : o.Ends P Q := by
  cases hd with
  | back => exact hP
  | timer k' hyield => exact R.yield hP hyield
  | upcall m k' htrap _ hcheck hstore hrun =>
      obtain ⟨pgdir, hdir, rfl⟩ := envRun_ok.mp hrun
      exact hup m _ pgdir htrap hcheck hstore (by simpa using hdir)
  | destroyed o hd =>
      cases hd with
      | zombie _ hne => exact absurd hcur hne
      | gone _ hne => exact absurd hcur hne
      | left _ pgdir m k' hdir hm hyield => exact R.yield (hleft pgdir m hdir hm) hyield
  | callAway k' htrap hcall' => exact hcall _ htrap (syscall_effect hcur hcall')
  | callBack r k' htrap hcall' =>
      exact heax k' (retWord r) (hcall _ htrap (syscall_effect hcur hcall'))

end EntryRules

end SisOp.Jos
