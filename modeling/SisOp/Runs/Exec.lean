/-
# `SisOp.Runs.Exec` — making steps

The lemmas of `SisOp.Jos.Effects` say what a step that was made can have done;
these go the other way, for runs that are to exist.  A system call that returns
leaves what its handler left, up to the caller's frame and the run counters
(`Kernel.Like`); `Step.back` is the step.
-/
import SisOp.Jos.Effects

namespace SisOp.Jos

open SisOp.Lib

/-! ## States that differ in frames and counters -/

/-- `k'` is `k` but for trap frames, `env_runs` and what was run. -/
structure Kernel.Like (k k' : Kernel) : Prop where
  phys : k'.phys = k.phys
  envFreeList : k'.envFreeList = k.envFreeList
  cpus : k'.cpus = k.cpus
  envs : ∀ f, ∃ tf runs, k'.envs f = { k.envs f with envTf := tf, envRuns := runs }
  hist : ∃ evs, k'.hist = evs ++ k.hist ∧ ∀ ev ∈ evs, ∃ c e, ev = .run c e

section

variable {k k' k'' k1 : Kernel} {c : Nat} {e f : Slot} {q : Call} {pgdir : Ppn} {r : Int}

namespace Kernel.Like

theorem refl (k : Kernel) : k.Like k :=
  ⟨rfl, rfl, rfl, fun _ => ⟨_, _, rfl⟩, [], rfl, fun _ h => absurd h List.not_mem_nil⟩

theorem trans (h : k.Like k') (h' : k'.Like k'') : k.Like k'' where
  phys := h'.phys.trans h.phys
  envFreeList := h'.envFreeList.trans h.envFreeList
  cpus := h'.cpus.trans h.cpus
  envs := fun f => by
    obtain ⟨tf, runs, heq⟩ := h.envs f
    obtain ⟨tf', runs', heq'⟩ := h'.envs f
    exact ⟨tf', runs', by rw [heq', heq]⟩
  hist := by
    obtain ⟨evs, heq, hrun⟩ := h.hist
    obtain ⟨evs', heq', hrun'⟩ := h'.hist
    refine ⟨evs' ++ evs, by rw [heq', heq, List.append_assoc], fun ev hev => ?_⟩
    exact (List.mem_append.mp hev).elim (hrun' ev) (hrun ev)

theorem curenv (h : k.Like k') : k'.curenv = k.curenv := by
  funext d
  rw [Kernel.curenv, Kernel.curenv, h.cpus]

theorem status (h : k.Like k') : k'.status = k.status := by
  funext f
  obtain ⟨tf, runs, heq⟩ := h.envs f
  rw [Kernel.status, Kernel.status, heq]

theorem userMode (h : k.Like k') {d : Nat} : UserMode k' d f ↔ UserMode k d f := by
  rw [UserMode, UserMode, h.curenv, h.cpus]

end Kernel.Like

/-- A change of the frame or the counter of one environment. -/
theorem Kernel.like_setEnv {g : Env → Env}
    (hg : ∃ tf runs, g (k.envs e) = { k.envs e with envTf := tf, envRuns := runs }) :
    k.Like (k.setEnv e g) where
  phys := rfl
  envFreeList := rfl
  cpus := rfl
  envs := fun f => by
    rcases eq_or_ne f e with rfl | hne
    · simpa using hg
    · exact ⟨_, _, by simp [Function.update_of_ne hne]; rfl⟩
  hist := ⟨[], rfl, fun _ h => absurd h List.not_mem_nil⟩

/-! ## Leaving the kernel -/

/-- `env_run` of the environment that runs already. -/
theorem Kernel.like_ran (hcur : k.curenv c = some e) (hrun : k.status e = .running)
    (hcr3 : (k.cpus c).cr3 = pgdir) : k.Like (k.ran c e pgdir) where
  phys := k.ran_phys c e pgdir
  envFreeList := k.ran_envFreeList c e pgdir
  cpus := by
    funext d
    rcases eq_or_ne d c with rfl | hne
    · have hself := k.ran_cpus_self d e pgdir
      have henv : ((k.ran d e pgdir).cpus d).cpuEnv = some e := by
        have h := congrFun (k.ran_curenv d e pgdir) d
        rwa [Function.update_self] at h
      cases hx : (k.ran d e pgdir).cpus d with
      | mk s x p =>
          cases hy : k.cpus d with
          | mk s' x' p' =>
              rw [hx] at hself henv
              rw [Kernel.curenv, hy] at hcur
              rw [hy] at hself hcr3
              simp_all
    · exact k.ran_cpus_of_ne c e pgdir hne
  envs := fun f => by
    obtain ⟨st, runs, heq⟩ := k.ran_envs c e pgdir f
    rcases eq_or_ne f e with rfl | hne
    · have hst := k.ran_status_self c f pgdir
      rw [Kernel.status, heq] at hst
      exact ⟨_, runs, by rw [heq]; rw [show st = (k.envs f).envStatus from hst.trans hrun.symm]⟩
    · rcases k.ran_envs_of_ne c e pgdir hne with h | ⟨h, -⟩
      · exact ⟨_, _, h⟩
      · rw [hcur] at h
        exact absurd (Option.some.inj h).symm hne
  hist := ⟨[.run c e], k.ran_hist c e pgdir, by simp⟩

/-! ## System calls -/

/-- The frame a call is made with. -/
def Call.frame (q : Call) : Trapframe :=
  { Trapframe.zero with
    tfRegs := ⟨q.a4, q.a5, 0, 0, q.a3, q.a1, q.a2, q.no⟩
    tfTrapno := T_SYSCALL
    tfCs := GD_UT ||| 3 }

theorem Call.frame_user (q : Call) : q.frame.tfCs &&& 3 = 3 := by
  show (GD_UT ||| 3 : BitVec 16) &&& 3 = 3
  decide

theorem Call.frame_trapno (q : Call) : q.frame.tfTrapno = T_SYSCALL := rfl

/-- The action of making the call on CPU `c`. -/
def Call.act (q : Call) (c : Nat) : Action := .trap c q.frame 0 0

/-- `e` executes on CPU `c`, in its own address space. -/
structure Executes (k : Kernel) (c : Nat) (e : Slot) : Prop where
  mode : UserMode k c e
  running : k.status e = .running
  loaded : (k.envs e).envPgdir = some (k.cpus c).cr3

theorem Executes.like (h : Executes k c e) (hl : k.Like k') : Executes k' c e where
  mode := hl.userMode.mpr h.mode
  running := by
    rw [hl.status]
    exact h.running
  loaded := by
    obtain ⟨tf, runs, heq⟩ := hl.envs e
    rw [heq, hl.cpus]
    exact h.loaded

/-- Entering the kernel changes the caller's frame only. -/
theorem Executes.entered (h : Executes k c e) (tf : Trapframe) : k.Like (k.entered c e tf) := by
  have hstart : k.setCpuStatus c .started = k := by
    have hself : Function.update k.cpus c { k.cpus c with cpuStatus := .started } = k.cpus := by
      rw [show ({ k.cpus c with cpuStatus := .started } : CpuInfo) = k.cpus c by rw [← h.mode.2]]
      exact Function.update_eq_self ..
    rw [Kernel.setCpuStatus, hself]
  rw [Kernel.entered, hstart]
  exact Kernel.like_setEnv ⟨tf, _, rfl⟩

/-- A system call whose handler returns, its caller still running. -/
theorem Step.back (h : Executes k c e)
    (hcall : q.run (k.entered c e q.frame) c e 0 = .ok (.back r k1)) (hk1 : Executes k1 c e) :
    ∃ k', Step k (q.act c) k' ∧ k1.Like k' := by
  set k2 := k1.setEnv e fun E => { E with envTf := E.envTf.setEax (retWord r) } with hk2
  have hl2 : k1.Like k2 := Kernel.like_setEnv ⟨_, _, rfl⟩
  have h2 := hk1.like hl2
  refine ⟨k2.ran c e (k2.cpus c).cr3, ⟨Or.inl ⟨⟨e, h.mode⟩, q.frame_user⟩, ?_⟩,
    hl2.trans (Kernel.like_ran h2.mode.1 h2.running rfl)⟩
  have hcur : (k.setCpuStatus c .started).curenv c = some e := by simpa using h.mode.1
  have hlive : ((k.setCpuStatus c .started).envs e).envStatus ≠ .dying := by
    have hrun := h.running
    rw [Kernel.status] at hrun
    simp [hrun]
  have hdispatch : trapDispatch (k.entered c e q.frame) c (some e) q.frame 0 0 =
      .ok (.back () k2) := by
    have hcall' : syscall (k.entered c e q.frame) c e 0 q.frame.tfRegs.regEax q.frame.tfRegs.regEdx
        q.frame.tfRegs.regEcx q.frame.tfRegs.regEbx q.frame.tfRegs.regEdi q.frame.tfRegs.regEsi =
        .ok (.back r k1) := hcall
    have hbrk : ¬ q.frame.tfTrapno = T_BRKPT := by
      rw [q.frame_trapno]
      decide
    have hpf : ¬ q.frame.tfTrapno = T_PGFLT := by
      rw [q.frame_trapno]
      decide
    simp only [trapDispatch, if_neg hbrk, if_neg hpf, if_pos q.frame_trapno, hcall']
    rfl
  have hreturn : trapReturn k2 c = .ok (k2.ran c e (k2.cpus c).cr3) := by
    have hrun : (k2.envs e).envStatus = .running := h2.running
    simp only [trapReturn, h2.mode.1, if_pos hrun]
    exact envRun_ok.mpr ⟨_, h2.loaded, rfl⟩
  show trap k c q.frame 0 0 = _
  unfold trap
  simp only [if_pos q.frame_user, hcur, if_neg hlive]
  exact bind_eq_ok.mpr ⟨_, hdispatch, hreturn⟩

end

end SisOp.Jos
