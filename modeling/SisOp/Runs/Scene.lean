/-
# `SisOp.Runs.Scene` — a parent, a child, and CPUs

`Scene k st on hs` says which status every environment has, who runs on which CPU
and which CPUs are halted; `Kernel.Near` that nothing else has changed but frames
and counters.  The lemmas make the steps of the runs: starting a CPU, changing a
status, forking, and the calls that destroy.
-/
import SisOp.Runs.Exec
import SisOp.Runs.Booted

namespace SisOp.Jos

open SisOp.Lib

structure Scene (k : Kernel) (st : Slot → EnvStatus) (on : Nat → Option Slot) (hs : List Nat) :
    Prop where
  status : k.status = st
  curenv : k.curenv = on
  started : ∀ c e, on c = some e → (k.cpus c).cpuStatus = .started
  halted : ∀ c, (k.cpus c).cpuStatus = .halted → c ∈ hs
  loaded : ∀ c e, on c = some e → (k.envs e).envPgdir = some (k.cpus c).cr3

/-- `k'` is `k` but for statuses, trap frames and `env_runs`. -/
structure Kernel.Near (k k' : Kernel) : Prop where
  phys : k'.phys = k.phys
  envFreeList : k'.envFreeList = k.envFreeList
  envs : ∀ f, ∃ tf runs st,
    k'.envs f = { k.envs f with envTf := tf, envRuns := runs, envStatus := st }

section

variable {k k' k'' k1 : Kernel} {c : Nat} {e f t : Slot} {q : Call} {d : Ppn} {r : Int}
  {st st1 : Slot → EnvStatus} {on : Nat → Option Slot} {hs : List Nat} {s : EnvStatus}

theorem Kernel.Near.trans (h : k.Near k') (h' : k'.Near k'') : k.Near k'' where
  phys := h'.phys.trans h.phys
  envFreeList := h'.envFreeList.trans h.envFreeList
  envs := fun f => by
    obtain ⟨tf, runs, st, heq⟩ := h.envs f
    obtain ⟨tf', runs', st', heq'⟩ := h'.envs f
    exact ⟨tf', runs', st', by rw [heq', heq]⟩

theorem Kernel.Like.near (h : k.Like k') : k.Near k' where
  phys := h.phys
  envFreeList := h.envFreeList
  envs := fun f => by
    obtain ⟨tf, runs, heq⟩ := h.envs f
    exact ⟨tf, runs, _, heq⟩

theorem Kernel.near_setStatus (k : Kernel) (e : Slot) (s : EnvStatus) :
    k.Near (k.setEnv e fun E => { E with envStatus := s }) where
  phys := rfl
  envFreeList := rfl
  envs := fun f => by
    rcases eq_or_ne f e with rfl | hne
    · exact ⟨(k.envs f).envTf, (k.envs f).envRuns, s, by simp⟩
    · exact ⟨_, _, _, by simp [Function.update_of_ne hne]; rfl⟩

theorem Kernel.near_ran (k : Kernel) (c : Nat) (e : Slot) (d : Ppn) : k.Near (k.ran c e d) where
  phys := k.ran_phys c e d
  envFreeList := k.ran_envFreeList c e d
  envs := fun f => by
    obtain ⟨st, runs, heq⟩ := k.ran_envs c e d f
    exact ⟨_, runs, st, heq⟩

theorem Kernel.Near.dirs (h : k.Near k') : k'.dirs = k.dirs := by
  funext f
  obtain ⟨tf, runs, st, heq⟩ := h.envs f
  rw [Kernel.dirs, Kernel.dirs, heq]

/-! ## Scenes -/

theorem Scene.executes (h : Scene k st on hs) (hc : on c = some e) (he : st e = .running) :
    Executes k c e where
  mode := ⟨by rw [h.curenv]; exact hc, h.started c e hc⟩
  running := by
    rw [h.status]
    exact he
  loaded := h.loaded c e hc

theorem Scene.like (h : Scene k st on hs) (hl : k.Like k') : Scene k' st on hs where
  status := hl.status.trans h.status
  curenv := hl.curenv.trans h.curenv
  started := by
    rw [hl.cpus]
    exact h.started
  halted := by
    rw [hl.cpus]
    exact h.halted
  loaded := fun c e hc => by
    obtain ⟨tf, runs, heq⟩ := hl.envs e
    rw [heq, hl.cpus]
    exact h.loaded c e hc

theorem Scene.setStatus (h : Scene k st on hs) (e : Slot) (s : EnvStatus) :
    Scene (k.setEnv e fun E => { E with envStatus := s }) (Function.update st e s) on hs where
  status := by
    funext f
    rcases eq_or_ne f e with rfl | hne
    · simp [Kernel.status]
    · rw [Function.update_of_ne hne, ← h.status]
      simp [Kernel.status, Function.update_of_ne hne]
  curenv := h.curenv
  started := h.started
  halted := h.halted
  loaded := fun c f hc => by
    rcases eq_or_ne f e with rfl | hne
    · simpa using h.loaded c f hc
    · simpa [Function.update_of_ne hne] using h.loaded c f hc

/-! ## Scheduling -/

theorem mem_schedOrder (id : Nat) (e : Slot) : e ∈ schedOrder id := by
  have hmem : e ∈ (List.finRange 1024).take id ++ (List.finRange 1024).drop id := by
    rw [List.take_append_drop]
    exact List.mem_finRange e
  exact List.mem_append.mpr (List.mem_append.mp hmem).symm

/-- `sched_yield` with one environment to run. -/
theorem schedYield_pick (he : ∀ f, k.status f = .runnable ↔ f = e)
    (hd : (k.envs e).envPgdir = some d) (c : Nat) : schedYield k c = .ok (k.ran c e d) := by
  have hfind : ∀ id, (schedOrder id).find? (fun i => (k.envs i).envStatus = .runnable) = some e := by
    intro id
    cases hx : (schedOrder id).find? (fun i => (k.envs i).envStatus = .runnable) with
    | none =>
        have hno := List.find?_eq_none.mp hx e (mem_schedOrder id e)
        exact absurd ((he e).mpr rfl) (by simpa [Kernel.status] using hno)
    | some x =>
        have hyes := List.find?_some hx
        exact congrArg some ((he x).mp (by simpa [Kernel.status] using hyes))
  unfold schedYield
  simp only [hfind]
  exact envRun_ok.mpr ⟨d, hd, rfl⟩

/-- A CPU is started and finds one environment to run. -/
theorem Scene.start (h : Scene k st on hs) (hc : on c = none) (hh : c ∉ hs)
    (he : ∀ f, st f = .runnable ↔ f = e) (hd : (k.envs e).envPgdir = some d) :
    ∃ k', Step k (.start c) k' ∧ k.Near k' ∧
      Scene k' (Function.update st e .running) (Function.update on c (some e)) hs := by
  set k1 := (k.setCpuStatus c .started).lcr3 c k.phys.kernPgdir with hk1
  have hcur : k1.curenv = on := by
    rw [hk1, Kernel.lcr3_curenv, Kernel.setCpuStatus_curenv]
    exact h.curenv
  have hst : k1.status = st := h.status
  have hcpu : ∀ b, b ≠ c → k1.cpus b = k.cpus b := fun b hb => by
    simp [hk1, Kernel.lcr3, Kernel.setCpuStatus, Function.update_of_ne hb]
  have hself : (k1.cpus c).cpuStatus = .started := by
    simp [hk1, Kernel.lcr3, Kernel.setCpuStatus]
  have hyield : schedYield k1 c = .ok (k1.ran c e d) :=
    schedYield_pick (fun f => by rw [hst]; exact he f)
      (show (k1.envs e).envPgdir = some d from hd) c
  have hnear : k.Near (k1.ran c e d) := by
    have h1 := k1.near_ran c e d
    exact ⟨h1.phys, h1.envFreeList, h1.envs⟩
  refine ⟨k1.ran c e d, ⟨⟨?_, fun hhalt => hh (h.halted c hhalt)⟩, hyield⟩, hnear, ?_⟩
  · rw [h.curenv]
    exact hc
  · have hdirs : ∀ f, ((k1.ran c e d).envs f).envPgdir = (k.envs f).envPgdir := fun f =>
      congrFun hnear.dirs f
    exact
      { status := by
          funext f
          rcases eq_or_ne f e with rfl | hne
          · rw [Function.update_self]
            exact k1.ran_status_self c f d
          · rw [Function.update_of_ne hne, ← hst]
            rcases k1.ran_envs_of_ne c e d hne with heq | ⟨hf, -, -⟩
            · rw [Kernel.status, Kernel.status, heq]
            · rw [hcur, hc] at hf
              cases hf
        curenv := by
          rw [Kernel.ran_curenv, hcur]
        started := fun b f hb => by
          rcases eq_or_ne b c with rfl | hne
          · exact (k1.ran_cpus_self b e d).1.trans hself
          · rw [Function.update_of_ne hne] at hb
            rw [k1.ran_cpus_of_ne c e d hne, hcpu b hne]
            exact h.started b f hb
        halted := fun b hb => by
          rcases eq_or_ne b c with rfl | hne
          · rw [(k1.ran_cpus_self b e d).1, hself] at hb
            cases hb
          · rw [k1.ran_cpus_of_ne c e d hne, hcpu b hne] at hb
            exact h.halted b hb
        loaded := fun b f hb => by
          rw [hdirs f]
          rcases eq_or_ne b c with rfl | hne
          · rw [Function.update_self] at hb
            obtain rfl := Option.some.inj hb
            rw [hd, (k1.ran_cpus_self b e d).2]
          · rw [Function.update_of_ne hne] at hb
            rw [k1.ran_cpus_of_ne c e d hne, hcpu b hne]
            exact h.loaded b f hb }

/-! ## Calls -/

/-- A call that returns. -/
theorem Scene.back (h : Scene k st on hs) (hc : on c = some e) (he : st e = .running)
    (hcall : q.run (k.entered c e q.frame) c e 0 = .ok (.back r k1)) (h1 : Scene k1 st1 on hs)
    (he1 : st1 e = .running) :
    ∃ k', Step k (q.act c) k' ∧ k1.Like k' ∧ Scene k' st1 on hs := by
  obtain ⟨k', hstep, hl⟩ := Step.back (h.executes hc he) hcall (h1.executes hc he1)
  exact ⟨k', hstep, hl, h1.like hl⟩

/-- `envid2env` finds the environment whose id it is given. -/
theorem envid2env_of {envid : Word} (h0 : envid ≠ 0) (ht : ENVX envid = t) (hs : k.status t ≠ .free)
    (hid : (k.envs t).envId = envid) {checkperm : Bool}
    (hperm : checkperm = true → t ≠ e → (k.envs t).envParentId = (k.envs e).envId) :
    envid2env k e envid checkperm = .ok t :=
  envid2env_ok.mpr (Or.inr ⟨h0, ht.symm, hs, hid, hperm⟩)

/-- `sys_env_set_status` of another environment. -/
theorem Scene.sysEnvSetStatus (h : Scene k st on hs) (hc : on c = some e) (he : st e = .running)
    (hte : t ≠ e) (hno : q.op = some .envSetStatus) (harg : statusArg q.a2 = some s)
    (hfind : envid2env k e q.a1 true = .ok t) :
    ∃ k', Step k (q.act c) k' ∧ k.Near k' ∧ Scene k' (Function.update st t s) on hs := by
  have hin := (h.executes hc he).entered q.frame
  have hcall : q.run (k.entered c e q.frame) c e 0 =
      .ok (.back 0 ((k.entered c e q.frame).setEnv t fun E => { E with envStatus := s })) := by
    have hfind' : envid2env (k.entered c e q.frame) e q.a1 true = .ok t := by
      rw [envid2env_entered]
      exact hfind
    have hop : Sysno.ofWord q.no = some .envSetStatus := hno
    simp only [Call.run, syscall, hop, SisOp.Jos.sysEnvSetStatus, harg, hfind']
    rfl
  obtain ⟨k', hstep, hl, hs'⟩ := h.back hc he hcall ((h.like hin).setStatus t s)
    (by rw [Function.update_of_ne hte.symm]; exact he)
  exact ⟨k', hstep, (hin.near.trans (Kernel.near_setStatus _ t s)).trans hl.near, hs'⟩

/-- `sys_env_destroy` of an environment that runs on another CPU. -/
theorem Scene.sysEnvDestroy (h : Scene k st on hs) (hc : on c = some e) (he : st e = .running)
    (hte : t ≠ e) (hno : q.op = some .envDestroy) (ht : st t = .running)
    (hfind : envid2env k e q.a1 true = .ok t) :
    ∃ k', Step k (q.act c) k' ∧ k.Near k' ∧ Scene k' (Function.update st t .dying) on hs := by
  have hin := (h.executes hc he).entered q.frame
  have hsin := h.like hin
  have hcall : q.run (k.entered c e q.frame) c e 0 =
      .ok (.back 0 ((k.entered c e q.frame).setEnv t fun E => { E with envStatus := .dying })) := by
    have hfind' : envid2env (k.entered c e q.frame) e q.a1 true = .ok t := by
      rw [envid2env_entered]
      exact hfind
    have hop : Sysno.ofWord q.no = some .envDestroy := hno
    have hrun : ((k.entered c e q.frame).envs t).envStatus = .running :=
      (congrFun hsin.status t).trans ht
    have hcur : (k.entered c e q.frame).curenv c ≠ some t := by
      rw [hsin.curenv, hc]
      exact fun heq => hte (Option.some.inj heq).symm
    simp only [Call.run, syscall, hop, SisOp.Jos.sysEnvDestroy, hfind', envDestroy,
      if_pos (And.intro hrun hcur)]
    rfl
  obtain ⟨k', hstep, hl, hs'⟩ := h.back hc he hcall (hsin.setStatus t .dying)
    (by rw [Function.update_of_ne hte.symm]; exact he)
  exact ⟨k', hstep, (hin.near.trans (Kernel.near_setStatus _ t .dying)).trans hl.near, hs'⟩

/-- `sys_env_destroy` of a zombie another CPU still executes: it is freed. -/
theorem Scene.sysEnvDestroy_zombie {m : Phys} (h : Scene k st on hs) (hc : on c = some e)
    (he : st e = .running) (hte : t ≠ e) (hno : q.op = some .envDestroy) (ht : st t = .dying)
    (hfind : envid2env k e q.a1 true = .ok t) (hd : (k.envs t).envPgdir = some d)
    (hm : freeMem k.phys d = .ok m) :
    ∃ k' evs, Step k (q.act c) k' ∧ k'.hist = evs ++ k.hist ∧ .free c t ∈ evs := by
  have hin := (h.executes hc he).entered q.frame
  have hsin := h.like hin
  set k1 := k.entered c e q.frame
  have hd1 : (k1.envs t).envPgdir = some d := by
    obtain ⟨tf, runs, heq⟩ := hin.envs t
    rw [heq]
    exact hd
  have hm1 : freeMem k1.phys d = .ok m := hin.phys.symm ▸ hm
  have hfree : envFree k1 c t = .ok (k1.freed c t m) := envFree_ok.mpr ⟨d, m, hd1, hm1, rfl⟩
  have hcur : k1.curenv c ≠ some t := by
    rw [hsin.curenv, hc]
    exact fun heq => hte (Option.some.inj heq).symm
  have hcall : q.run k1 c e 0 = .ok (.back 0 (k1.freed c t m)) := by
    have hfind' : envid2env k1 e q.a1 true = .ok t := by
      rw [envid2env_entered]
      exact hfind
    have hop : Sysno.ofWord q.no = some .envDestroy := hno
    have hrun : ¬ ((k1.envs t).envStatus = .running ∧ k1.curenv c ≠ some t) := fun hboth => by
      have hst : (k1.envs t).envStatus = .dying := (congrFun hsin.status t).trans ht
      rw [hst] at hboth
      cases hboth.1
    have hdestroy : envDestroy k1 c t = .ok (.back () (k1.freed c t m)) := by
      simp only [envDestroy, if_neg hrun]
      refine bind_eq_ok.mpr ⟨_, hfree, ?_⟩
      rw [Kernel.freed_curenv, if_neg hcur]
      rfl
    simp only [Call.run, syscall, hop, SisOp.Jos.sysEnvDestroy, hfind', hdestroy]
    rfl
  have hother : (k1.freed c t m).envs e = k1.envs e := by
    rw [Kernel.freed_envs, Function.update_of_ne hte.symm]
  have hk1 : Executes (k1.freed c t m) c e :=
    { mode := ⟨by rw [Kernel.freed_curenv, hsin.curenv, hc],
        (k1.freed_cpuStatus c t m c).trans (hsin.started c e hc)⟩
      running := by
        rw [Kernel.status, hother]
        exact (congrFun hsin.status e).trans he
      loaded := by
        have hcpus : (k1.freed c t m).cpus = k1.cpus := by
          unfold Kernel.freed
          rw [if_neg hcur]
          rfl
        rw [hother, hcpus]
        exact hsin.loaded c e hc }
  obtain ⟨k', hstep, hl⟩ := Step.back (h.executes hc he) hcall hk1
  obtain ⟨evs, heq, -⟩ := hl.hist
  obtain ⟨evs', heq', -⟩ := hin.hist
  refine ⟨k', evs ++ .free c t :: evs', hstep, ?_, by simp⟩
  rw [heq, Kernel.freed_hist, heq', List.append_assoc, List.cons_append]

/-- `sys_exofork` into the slot `t`. -/
theorem Scene.sysExofork {a : Ppn} {m : Phys} (h : Scene k st on hs) (hc : on c = some e)
    (he : st e = .running) (hno : q.op = some .exofork) (hlist : k.envFreeList = some t)
    (hm : SetupVm k.phys a m) (ht : ∀ b, on b ≠ some t) :
    ∃ k', Step k (q.act c) k' ∧ ((k.entered c e q.frame).exoforked e t a m).Like k' ∧
      Scene k' (Function.update st t .notRunnable) on hs := by
  have hin := (h.executes hc he).entered q.frame
  have hsin := h.like hin
  have hte : e ≠ t := fun heq => ht c (heq ▸ hc)
  set k1 := k.entered c e q.frame with hk1
  have hcall : q.run k1 c e 0 =
      .ok (.back ((k1.exoforked e t a m).envs t).envId.toInt (k1.exoforked e t a m)) := by
    have halloc := envAlloc_total (k := k1) (hin.envFreeList.trans hlist)
      (hin.phys.symm ▸ hm) (k1.envs e).envId
    have hop : Sysno.ofWord q.no = some .exofork := hno
    simp only [Call.run, syscall, hop]
    exact bind_eq_ok.mpr ⟨_, bind_eq_ok.mpr ⟨_, halloc, rfl⟩, rfl⟩
  have hother : ∀ f, f ≠ t → (k1.exoforked e t a m).envs f = k1.envs f := fun f hf => by
    simp [Kernel.exoforked, Kernel.allocated, Kernel.log, Function.update_of_ne hf]
  refine h.back hc he hcall
    { status := ?_
      curenv := hsin.curenv
      started := hsin.started
      halted := hsin.halted
      loaded := fun b f hb => ?_ } (by rw [Function.update_of_ne hte]; exact he)
  · funext f
    rcases eq_or_ne f t with rfl | hne
    · simp [Kernel.status, Kernel.exoforked]
    · rw [Function.update_of_ne hne, Kernel.status, hother f hne]
      exact congrFun hsin.status f
  · have hne : f ≠ t := fun heq => ht b (heq ▸ hb)
    rw [hother f hne]
    exact hsin.loaded b f hb

end

end SisOp.Jos
