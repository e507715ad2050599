/-
# `SisOp.Sched.Inv` — which environment runs where

`Sched none` relates `env_status` to the `curenv` pointers while every CPU is
outside the kernel: a current environment is running or a zombie, on one CPU
only, and a running environment or a zombie is current somewhere.  `Sched (some c)`
is what is left of it while CPU `c` is in the kernel, where its own `curenv` may
have any status that is not `ENV_DYING` or `ENV_FREE`.

One lemma per kind of change (`Sched.update`, `zombie`, `leave`, `gone`,
`allocated`, `ran`, `halt`); the system calls are cases on those.
-/
import SisOp.Jos.Effects
import SisOp.Lib.Chain

namespace SisOp.Jos

open SisOp.Lib

/-- The two statuses of an environment some CPU executes. -/
def EnvStatus.Busy (s : EnvStatus) : Prop := s = .running ∨ s = .dying

instance : DecidablePred EnvStatus.Busy := fun s =>
  inferInstanceAs (Decidable (s = .running ∨ s = .dying))

/-- The statuses that mean waiting for a CPU or for somebody else. -/
def EnvStatus.Waiting (s : EnvStatus) : Prop := s = .runnable ∨ s = .notRunnable

theorem EnvStatus.Waiting.not_busy {s : EnvStatus} (h : s.Waiting) : ¬ s.Busy := by
  rcases h with rfl | rfl <;> decide

theorem EnvStatus.Waiting.not_free {s : EnvStatus} (h : s.Waiting) : s ≠ .free := by
  rcases h with rfl | rfl <;> decide

theorem EnvStatus.Busy.not_free {s : EnvStatus} (h : s.Busy) : s ≠ .free := by
  rcases h with rfl | rfl <;> decide

/-- The scheduling invariant, with the CPU that is in the kernel. -/
structure Sched (inside : Option Nat) (k : Kernel) : Prop where
  busy : ∀ d e, some d ≠ inside → k.curenv d = some e → (k.status e).Busy
  mine : ∀ d e, some d = inside → k.curenv d = some e → k.status e ≠ .dying ∧ k.status e ≠ .free
  unique : ∀ d d' e, k.curenv d = some e → k.curenv d' = some e → d = d'
  started : ∀ d e, k.curenv d = some e → (k.cpus d).cpuStatus = .started
  entered : ∀ d, some d = inside → (k.cpus d).cpuStatus = .started
  live : ∀ e, (k.status e).Busy → ∃ d, k.curenv d = some e
  freeList : ∃ l, Chain (fun e => (k.envs e).envLink) k.envFreeList l ∧ ∀ e ∈ l, k.status e = .free
  cr3 : ∀ d e, k.curenv d = some e → (k.envs e).envPgdir = some (k.cpus d).cr3

namespace Sched

variable {inside : Option Nat} {k : Kernel} {c : Nat} {e cur : Slot}

/-! ## The environments that are not current -/

theorem not_free (h : Sched inside k) {d : Nat} (hd : k.curenv d = some e) :
    k.status e ≠ .free := by
  by_cases hin : some d = inside
  · exact (h.mine d e hin hd).2
  · exact (h.busy d e hin hd).not_free

/-- Apart from the one of the CPU inside, an environment that is not busy is not current. -/
theorem not_current (h : Sched inside k) {d : Nat} (hd : some d ≠ inside)
    (hs : ¬ (k.status e).Busy) : k.curenv d ≠ some e :=
  fun hcur => hs (h.busy d e hd hcur)

/-- The head of the environment free list and what remains of it. -/
theorem pop (h : Sched inside k) (hlist : k.envFreeList = some e) :
    k.status e = .free ∧ ∃ t, e ∉ t ∧
      Chain (fun f => (k.envs f).envLink) (k.envs e).envLink t ∧ ∀ f ∈ t, k.status f = .free := by
  obtain ⟨l, hl, hfree⟩ := h.freeList
  rw [hlist] at hl
  obtain ⟨t, rfl, ht⟩ := hl.of_some
  refine ⟨hfree e List.mem_cons_self, t, ?_, ht, fun f hf => hfree f (List.mem_cons_of_mem _ hf)⟩
  exact (List.nodup_cons.mp hl.nodup).1

/-! ## Changes inside the kernel -/

/-- Changes that touch neither the CPUs nor a status, a link or a directory. -/
theorem congr {k' : Kernel} (h : Sched inside k) (hcpus : k'.cpus = k.cpus)
    (hlist : k'.envFreeList = k.envFreeList)
    (henvs : ∀ f, k'.status f = k.status f ∧ (k'.envs f).envLink = (k.envs f).envLink ∧
      (k'.envs f).envPgdir = (k.envs f).envPgdir) : Sched inside k' := by
  have hcur : k'.curenv = k.curenv := by
    funext d
    rw [Kernel.curenv, Kernel.curenv, hcpus]
  obtain ⟨l, hl, hfree⟩ := h.freeList
  exact
    { busy := fun d f hd hf => by
        rw [hcur] at hf
        rw [(henvs f).1]
        exact h.busy d f hd hf
      mine := fun d f hd hf => by
        rw [hcur] at hf
        rw [(henvs f).1]
        exact h.mine d f hd hf
      unique := by
        rw [hcur]
        exact h.unique
      started := by
        rw [hcur, hcpus]
        exact h.started
      entered := by
        rw [hcpus]
        exact h.entered
      live := fun f hf => by
        rw [(henvs f).1] at hf
        rw [hcur]
        exact h.live f hf
      freeList := ⟨l, by
        rw [hlist]
        exact hl.congr fun f _ => (henvs f).2.1, fun f hf => by
        rw [(henvs f).1]
        exact hfree f hf⟩
      cr3 := fun d f hf => by
        rw [hcur] at hf
        rw [(henvs f).2.2, hcpus]
        exact h.cr3 d f hf }

/-- Memory and history are not part of it. -/
theorem phys (h : Sched inside k) (m : Phys) : Sched inside { k with phys := m } :=
  h.congr rfl rfl fun _ => ⟨rfl, rfl, rfl⟩

theorem log (h : Sched inside k) (ev : Event) : Sched inside (k.log ev) :=
  h.congr rfl rfl fun _ => ⟨rfl, rfl, rfl⟩

/-- An update of fields the scheduler does not look at. -/
theorem frame (h : Sched inside k) {g : Env → Env} (hs : (g (k.envs e)).envStatus = k.status e)
    (hl : (g (k.envs e)).envLink = (k.envs e).envLink)
    (hp : (g (k.envs e)).envPgdir = (k.envs e).envPgdir) : Sched inside (k.setEnv e g) := by
  refine h.congr rfl rfl fun f => ?_
  rcases eq_or_ne f e with rfl | hne
  · simpa [Kernel.status] using ⟨hs, hl, hp⟩
  · simp [Kernel.status, Function.update_of_ne hne]

theorem setEax (h : Sched inside k) (r : Word) :
    Sched inside (k.setEnv e fun E => { E with envTf := E.envTf.setEax r }) :=
  h.frame rfl rfl rfl

/-- A new status for one allocated environment. -/
theorem setEnv (h : Sched inside k) {g : Env → Env}
    (hl : (g (k.envs e)).envLink = (k.envs e).envLink)
    (hp : (g (k.envs e)).envPgdir = (k.envs e).envPgdir) (hfree : k.status e ≠ .free)
    (hout : ∀ d, some d ≠ inside → k.curenv d = some e → (g (k.envs e)).envStatus.Busy)
    (hin : ∀ d, some d = inside → k.curenv d = some e → (g (k.envs e)).envStatus ≠ .dying ∧
      (g (k.envs e)).envStatus ≠ .free)
    (hlive : (g (k.envs e)).envStatus.Busy → ∃ d, k.curenv d = some e) :
    Sched inside (k.setEnv e g) := by
  have hself : (k.setEnv e g).status e = (g (k.envs e)).envStatus := by simp [Kernel.status]
  have hother : ∀ f, f ≠ e → (k.setEnv e g).status f = k.status f := fun f hf => by
    simp [Kernel.status, Function.update_of_ne hf]
  obtain ⟨l, hchain, hlfree⟩ := h.freeList
  have hmem : ∀ f ∈ l, f ≠ e := fun f hf heq => hfree (heq ▸ hlfree f hf)
  exact
    { busy := fun d f hd hf => by
        rcases eq_or_ne f e with rfl | hne
        · rw [hself]
          exact hout d hd hf
        · rw [hother f hne]
          exact h.busy d f hd hf
      mine := fun d f hd hf => by
        rcases eq_or_ne f e with rfl | hne
        · rw [hself]
          exact hin d hd hf
        · rw [hother f hne]
          exact h.mine d f hd hf
      unique := h.unique
      started := h.started
      entered := h.entered
      live := fun f hf => by
        rcases eq_or_ne f e with rfl | hne
        · rw [hself] at hf
          exact hlive hf
        · rw [hother f hne] at hf
          exact h.live f hf
      freeList := ⟨l, hchain.congr fun f hf => by simp [Function.update_of_ne (hmem f hf)],
        fun f hf => by
          rw [hother f (hmem f hf)]
          exact hlfree f hf⟩
      cr3 := fun d f hf => by
        rcases eq_or_ne f e with rfl | hne
        · simpa [hp] using h.cr3 d f hf
        · simpa [Function.update_of_ne hne] using h.cr3 d f hf }

/-- A waiting status, for an environment no other CPU is executing. -/
theorem update (h : Sched inside k) {g : Env → Env} (hs : (g (k.envs e)).envStatus.Waiting)
    (hl : (g (k.envs e)).envLink = (k.envs e).envLink)
    (hp : (g (k.envs e)).envPgdir = (k.envs e).envPgdir) (hfree : k.status e ≠ .free)
    (hnot : ∀ d, k.curenv d = some e → some d = inside) : Sched inside (k.setEnv e g) :=
  h.setEnv hl hp hfree (fun d hd hf => absurd (hnot d hf) hd)
    (fun _ _ _ => ⟨fun h' => hs.not_busy (Or.inr h'), hs.not_free⟩)
    (fun hb => absurd hb hs.not_busy)

/-- A running environment of another CPU becomes a zombie. -/
theorem zombie (h : Sched (some c) k) (hs : k.status e = .running) (hne : k.curenv c ≠ some e) :
    Sched (some c) (k.setEnv e fun E => { E with envStatus := .dying }) := by
  refine h.setEnv rfl rfl ?_ (fun _ _ _ => Or.inr rfl) (fun d hd hf => ?_)
    (fun _ => h.live e (Or.inl hs))
  · rw [hs]
    decide
  · obtain rfl : d = c := Option.some.inj hd
    exact absurd hf hne

/-- An environment leaves the table, and its CPU if it had one. -/
theorem reclaim {k' : Kernel} (h : Sched inside k) (hs : k.status e ≠ .free)
    (hcur : ∀ d f, k'.curenv d = some f ↔ k.curenv d = some f ∧ f ≠ e)
    (hcpu : ∀ d, (k'.cpus d).cpuStatus = (k.cpus d).cpuStatus)
    (hcr3 : ∀ d f, k'.curenv d = some f → (k'.cpus d).cr3 = (k.cpus d).cr3)
    (hlist : k'.envFreeList = some e)
    (henvs : k'.envs = Function.update k.envs e
      { k.envs e with envPgdir := none, envStatus := .free, envLink := k.envFreeList }) :
    Sched inside k' := by
  have hother : ∀ f, f ≠ e → k'.status f = k.status f := fun f hf => by
    simp [Kernel.status, henvs, Function.update_of_ne hf]
  have hself : k'.status e = .free := by simp [Kernel.status, henvs]
  obtain ⟨l, hchain, hlfree⟩ := h.freeList
  have hmem : ∀ f ∈ l, f ≠ e := fun f hf heq => hs (heq ▸ hlfree f hf)
  exact
    { busy := fun d f hd hf => by
        obtain ⟨hf', hne⟩ := (hcur d f).mp hf
        rw [hother f hne]
        exact h.busy d f hd hf'
      mine := fun d f hd hf => by
        obtain ⟨hf', hne⟩ := (hcur d f).mp hf
        rw [hother f hne]
        exact h.mine d f hd hf'
      unique := fun d d' f hf hf' => h.unique d d' f ((hcur d f).mp hf).1 ((hcur d' f).mp hf').1
      started := fun d f hf => by
        rw [hcpu]
        exact h.started d f ((hcur d f).mp hf).1
      entered := fun d hd => by
        rw [hcpu]
        exact h.entered d hd
      live := fun f hf => by
        have hne : f ≠ e := by
          rintro rfl
          rw [hself] at hf
          exact absurd hf (by decide)
        rw [hother f hne] at hf
        obtain ⟨d, hd⟩ := h.live f hf
        exact ⟨d, (hcur d f).mpr ⟨hd, hne⟩⟩
      freeList := by
        refine ⟨e :: l, ?_, ?_⟩
        · rw [hlist, henvs]
          refine .cons ?_
          simp only [Function.update_self]
          exact hchain.congr fun f hf => by simp [Function.update_of_ne (hmem f hf)]
        · intro f hf
          rcases List.mem_cons.mp hf with rfl | hf
          · exact hself
          · rw [hother f (hmem f hf)]
            exact hlfree f hf
      cr3 := fun d f hf => by
        obtain ⟨hf', hne⟩ := (hcur d f).mp hf
        rw [hcr3 d f hf, henvs, Function.update_of_ne hne]
        exact h.cr3 d f hf' }

/-- `env_free` of an environment no CPU is executing. -/
theorem gone (h : Sched (some c) k) (hs : k.status e ≠ .free) (hnot : ∀ d, k.curenv d ≠ some e)
    (m : Phys) : Sched (some c) (k.freed c e m) := by
  have hcpus : (k.freed c e m).cpus = k.cpus := by
    simp [Kernel.freed, hnot c]
  refine h.reclaim hs (fun d f => ?_) (fun d => by rw [hcpus]) (fun d f _ => by rw [hcpus]) rfl
    (k.freed_envs c e m)
  rw [Kernel.freed_curenv]
  exact ⟨fun hf => ⟨hf, fun heq => hnot d (heq ▸ hf)⟩, And.left⟩

/-- `env_free` of the environment of the CPU in the kernel, which has none afterwards. -/
theorem leave (h : Sched inside k) (hcur : k.curenv c = some cur)
    (m : Phys) : Sched inside ((k.freed c cur m).setCur c none) := by
  refine h.reclaim (h.not_free hcur) (fun d f => ?_) (fun d => ?_) (fun d f hf => ?_) rfl
    (k.freed_envs c cur m)
  · simp only [Kernel.setCur_curenv, Kernel.freed_curenv]
    rcases eq_or_ne d c with rfl | hd
    · simp only [Function.update_self, reduceCtorEq, false_iff, not_and, not_not]
      exact fun hf => Option.some.inj (hf.symm.trans hcur)
    · simp only [Function.update_of_ne hd]
      exact ⟨fun hf => ⟨hf, fun heq => hd (h.unique d c cur (heq ▸ hf) hcur)⟩, And.left⟩
  · rcases eq_or_ne d c with rfl | hd
    · simpa [Kernel.setCur] using k.freed_cpuStatus d cur m d
    · simpa [Kernel.setCur, Function.update_of_ne hd] using k.freed_cpuStatus c cur m d
  · rcases eq_or_ne d c with rfl | hd
    · simp at hf
    · simp [Kernel.setCur, Kernel.freed, hcur, Kernel.lcr3, Kernel.setEnv, Kernel.log,
        Function.update_of_ne hd]

/-- `env_alloc`: the head of the free list becomes runnable. -/
theorem allocated (h : Sched inside k) (hlist : k.envFreeList = some e) (parentId : Word)
    (kva : Ppn) (m : Phys) : Sched inside (k.allocated e parentId kva m) := by
  obtain ⟨hfree, t, het, hchain, htfree⟩ := h.pop hlist
  have hnot : ∀ d, k.curenv d ≠ some e := fun d hd => h.not_free hd hfree
  have hother : ∀ f, f ≠ e → (k.allocated e parentId kva m).envs f = k.envs f := fun f hf => by
    simp [Kernel.allocated, Kernel.setEnv, Kernel.log, Function.update_of_ne hf]
  have hmem : ∀ f ∈ t, f ≠ e := fun f hf heq => het (heq ▸ hf)
  have hself : (k.allocated e parentId kva m).status e = .runnable := by
    simp [Kernel.status, Kernel.allocated, Kernel.setEnv, Kernel.log, Env.fresh]
  have hstatus : ∀ d f, k.curenv d = some f →
      (k.allocated e parentId kva m).status f = k.status f := fun d f hf => by
    rw [Kernel.status, hother f fun heq => hnot d (heq ▸ hf), Kernel.status]
  exact
    { busy := fun d f hd hf => by
        rw [hstatus d f hf]
        exact h.busy d f hd hf
      mine := fun d f hd hf => by
        rw [hstatus d f hf]
        exact h.mine d f hd hf
      unique := h.unique
      started := h.started
      entered := h.entered
      live := fun f hf => by
        rcases eq_or_ne f e with rfl | hne
        · rw [hself] at hf
          exact absurd hf (by decide)
        · rw [Kernel.status, hother f hne] at hf
          exact h.live f hf
      freeList := ⟨t, hchain.congr fun f hf => by rw [hother f (hmem f hf)], fun f hf => by
        rw [Kernel.status, hother f (hmem f hf)]
        exact htfree f hf⟩
      cr3 := fun d f hf => by
        rw [hother f fun heq => hnot d (heq ▸ hf)]
        exact h.cr3 d f hf }

/-! ## Ways out of the kernel -/

/-- A runnable environment, or the one the CPU had, is on no other CPU. -/
theorem not_elsewhere (h : Sched (some c) k) (he : k.status e = .runnable ∨ k.curenv c = some e)
    {d : Nat} (hd : d ≠ c) : k.curenv d ≠ some e := fun hcur => by
  rcases he with hrun | hmine
  · have hbusy := h.busy d e (fun heq => hd (Option.some.inj heq)) hcur
    rw [hrun] at hbusy
    exact absurd hbusy (by decide)
  · exact hd (h.unique d c e hcur hmine)

/-- `env_run` leaves the environments of the other CPUs as they are. -/
theorem ran_status_elsewhere (h : Sched (some c) k) {pgdir : Ppn}
    (he : k.status e = .runnable ∨ k.curenv c = some e) {d : Nat} {f : Slot} (hd : d ≠ c)
    (hf : k.curenv d = some f) : (k.ran c e pgdir).status f = k.status f := by
  have hne : f ≠ e := fun heq => h.not_elsewhere he hd (heq ▸ hf)
  rcases k.ran_envs_of_ne c e pgdir hne with heq | ⟨hcur, _, _⟩
  · rw [Kernel.status, heq, Kernel.status]
  · exact absurd (h.unique d c f hf hcur) hd

/-- What is busy after `env_run` is on a CPU. -/
theorem ran_live (h : Sched (some c) k) {pgdir : Ppn} {f : Slot}
    (hf : ((k.ran c e pgdir).status f).Busy) : ∃ d, (k.ran c e pgdir).curenv d = some f := by
  rw [Kernel.ran_curenv]
  rcases eq_or_ne f e with rfl | hne
  · exact ⟨c, Function.update_self ..⟩
  rcases k.ran_envs_of_ne c e pgdir hne with heq | ⟨_, _, heq⟩
  · rw [Kernel.status, heq] at hf
    obtain ⟨d, hd⟩ := h.live f hf
    refine ⟨d, ?_⟩
    rw [Function.update_of_ne, hd]
    rintro rfl
    -- the environment of the CPU inside was preempted if it was running, and is no zombie
    rcases hf with hrun | hdying
    · have hpre : (k.ran d e pgdir).envs f = { k.envs f with envStatus := .runnable } := by
        simp [Kernel.ran, Function.update_of_ne hne, Kernel.preempt, hd, hrun]
      rw [heq] at hpre
      rw [hpre] at hrun
      cases hrun
    · exact (h.mine d f rfl hd).1 hdying
  · have hrunnable : EnvStatus.Busy .runnable := by
      rwa [Kernel.status, heq] at hf
    exact absurd hrunnable (by decide)

/-- `env_run`. -/
theorem ran (h : Sched (some c) k) {pgdir : Ppn}
    (he : k.status e = .runnable ∨ k.curenv c = some e)
    (hdir : (k.envs e).envPgdir = some pgdir) : Sched none (k.ran c e pgdir) := by
  -- who is current afterwards
  have hcur : ∀ d f, (k.ran c e pgdir).curenv d = some f →
      d = c ∧ f = e ∨ d ≠ c ∧ k.curenv d = some f := fun d f hf => by
    rw [Kernel.ran_curenv] at hf
    rcases eq_or_ne d c with rfl | hd
    · rw [Function.update_self] at hf
      exact Or.inl ⟨rfl, (Option.some.inj hf).symm⟩
    · rw [Function.update_of_ne hd] at hf
      exact Or.inr ⟨hd, hf⟩
  have hfields : ∀ f, ((k.ran c e pgdir).envs f).envLink = (k.envs f).envLink ∧
      ((k.ran c e pgdir).envs f).envPgdir = (k.envs f).envPgdir := fun f => by
    obtain ⟨st, runs, heq⟩ := k.ran_envs c e pgdir f
    rw [heq]
    exact ⟨rfl, rfl⟩
  have hfree : k.status e ≠ .free := by
    rcases he with hrun | hmine
    · rw [hrun]
      decide
    · exact h.not_free hmine
  obtain ⟨l, hchain, hlfree⟩ := h.freeList
  exact
    { busy := fun d f _ hf => by
        rcases hcur d f hf with ⟨rfl, rfl⟩ | ⟨hd, hf⟩
        · exact Or.inl (k.ran_status_self d f pgdir)
        · rw [h.ran_status_elsewhere he hd hf]
          exact h.busy d f (fun heq => hd (Option.some.inj heq)) hf
      mine := fun d f hd => by cases hd
      unique := fun d d' f hf hf' => by
        rcases hcur d f hf with ⟨rfl, rfl⟩ | ⟨hd, hk⟩ <;>
          rcases hcur d' _ hf' with ⟨hd', heq⟩ | ⟨hd', hk'⟩
        · exact hd'.symm
        · exact absurd hk' (h.not_elsewhere he hd')
        · subst hd' heq
          exact absurd hk (h.not_elsewhere he hd)
        · exact h.unique d d' f hk hk'
      started := fun d f hf => by
        rcases hcur d f hf with ⟨rfl, rfl⟩ | ⟨hd, hf⟩
        · rw [(k.ran_cpus_self d f pgdir).1]
          exact h.entered d rfl
        · rw [k.ran_cpus_of_ne c e pgdir hd]
          exact h.started d f hf
      entered := fun d hd => by cases hd
      live := fun f hf => h.ran_live hf
      freeList := by
        refine ⟨l, ?_, fun f hf => ?_⟩
        · rw [Kernel.ran_envFreeList]
          exact hchain.congr fun f _ => (hfields f).1
        · have hff := hlfree f hf
          rcases k.ran_envs_of_ne c e pgdir (fun heq => hfree (heq ▸ hff)) with heq | ⟨_, hrun, _⟩
          · rw [Kernel.status, heq]
            exact hff
          · rw [hff] at hrun
            cases hrun
      cr3 := fun d f hf => by
        rw [(hfields f).2]
        rcases hcur d f hf with ⟨rfl, rfl⟩ | ⟨hd, hf⟩
        · rw [(k.ran_cpus_self d f pgdir).2]
          exact hdir
        · rw [k.ran_cpus_of_ne c e pgdir hd]
          exact h.cr3 d f hf }

/-- `sched_halt`: the CPU's environment, if any, is not running. -/
theorem halt (h : Sched (some c) k) (hnone : ∀ e, k.curenv c = some e → k.status e ≠ .running) :
    Sched none (k.halt c) := by
  have hcurenv : (k.halt c).curenv = Function.update k.curenv c none := by
    simp [Kernel.halt]
  have hcpus : ∀ d, d ≠ c → (k.halt c).cpus d = k.cpus d := fun d hd => by
    simp [Kernel.halt, Kernel.setCpuStatus, Kernel.lcr3, Kernel.setCur, Function.update_of_ne hd]
  have hcur : ∀ d f, (k.halt c).curenv d = some f → d ≠ c ∧ k.curenv d = some f := fun d f hf => by
    rw [hcurenv] at hf
    rcases eq_or_ne d c with rfl | hd
    · simp at hf
    · rw [Function.update_of_ne hd] at hf
      exact ⟨hd, hf⟩
  exact
    { busy := fun d f _ hf => by
        obtain ⟨hd, hf⟩ := hcur d f hf
        exact h.busy d f (fun heq => hd (Option.some.inj heq)) hf
      mine := fun d f hd => by cases hd
      unique := fun d d' f hf hf' => h.unique d d' f (hcur d f hf).2 (hcur d' f hf').2
      started := fun d f hf => by
        obtain ⟨hd, hf⟩ := hcur d f hf
        rw [hcpus d hd]
        exact h.started d f hf
      entered := fun d hd => by cases hd
      live := fun f hf => by
        obtain ⟨d, hd⟩ := h.live f hf
        have hdc : d ≠ c := by
          rintro rfl
          rcases hf with hrun | hdying
          · exact hnone f hd hrun
          · exact (h.mine d f rfl hd).1 hdying
        exact ⟨d, by rw [hcurenv, Function.update_of_ne hdc, hd]⟩
      freeList := h.freeList
      cr3 := fun d f hf => by
        obtain ⟨hd, hf⟩ := hcur d f hf
        rw [hcpus d hd]
        exact h.cr3 d f hf }

/-- Both ways out, as rules for a kernel entry. -/
theorem rules (c : Nat) : EntryRules c (Sched (some c)) (Sched none) where
  ran := fun _ _ _ hP he hdir => hP.ran (he.imp_right And.left) hdir
  halted := fun _ hP hnone => hP.halt hnone

end Sched

end SisOp.Jos
