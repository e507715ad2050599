/-
# `SisOp.Sched.Step` — one kernel entry and the scheduling invariant

Four system calls change the status of an environment another CPU may be
executing: `sys_env_set_status`, `sys_env_destroy`, `sys_env_set_trapframe` on a
frame it cannot read, and a `sys_ipc_try_send` that is delivered.  None of them
looks whether it is executing.  `Call.SchedOk` says that it is not (for the
destroying ones: that it is no zombie), and under it one entry of a CPU keeps the
invariant and everything about the environments of the other CPUs (`Elsewhere`).
-/
import SisOp.Sched.Inv
import SisOp.Jos.Deliver

namespace SisOp.Jos

open SisOp.Lib

/-! ## What an entry leaves alone -/

/-- What an entry of CPU `c` does to the environments of the other CPUs, from `k₀` to `k`:
zombies stay, and only environments no other CPU is executing are freed. -/
structure Elsewhere (c : Nat) (k₀ k : Kernel) : Prop where
  cur : ∀ d, d ≠ c → k.curenv d = k₀.curenv d
  zombie : ∀ d e, d ≠ c → k₀.curenv d = some e → k₀.status e = .dying →
    k.status e = .dying ∧ (k.envs e).envPgdir = (k₀.envs e).envPgdir
  frees : ∃ evs, k.hist = evs ++ k₀.hist ∧
    ∀ d e, Event.free d e ∈ evs → d = c ∧ ∀ d', d' ≠ c → k₀.curenv d' ≠ some e

/-- The state inside an entry of CPU `c` that began in `k₀`. -/
structure Inside (c : Nat) (k₀ k : Kernel) : Prop where
  sched : Sched (some c) k
  elsewhere : Elsewhere c k₀ k

/-- The state after it. -/
structure Outside (c : Nat) (k₀ k : Kernel) : Prop where
  sched : Sched none k
  elsewhere : Elsewhere c k₀ k

namespace Elsewhere

variable {c : Nat} {k₀ k k' : Kernel} {e : Slot}

theorem refl (c : Nat) (k : Kernel) : Elsewhere c k k where
  cur := fun _ _ => rfl
  zombie := fun _ _ _ _ hs => ⟨hs, rfl⟩
  frees := ⟨[], rfl, fun _ _ h => absurd h (by simp)⟩

/-- A change of one environment that no other CPU has as a zombie. -/
theorem setEnv (h : Elsewhere c k₀ k) {g : Env → Env}
    (he : ∀ d, d ≠ c → k.curenv d = some e → k.status e = .dying →
      (g (k.envs e)).envStatus = .dying ∧ (g (k.envs e)).envPgdir = (k.envs e).envPgdir) :
    Elsewhere c k₀ (k.setEnv e g) where
  cur := h.cur
  zombie := fun d f hd hf hs => by
    obtain ⟨hs', hp'⟩ := h.zombie d f hd hf hs
    rcases eq_or_ne f e with rfl | hne
    · obtain ⟨h1, h2⟩ := he d hd ((h.cur d hd).trans hf) hs'
      simp [Kernel.status, h1, h2, hp']
    · simpa [Kernel.status, Function.update_of_ne hne] using ⟨hs', hp'⟩
  frees := h.frees

theorem phys (h : Elsewhere c k₀ k) (m : Phys) : Elsewhere c k₀ { k with phys := m } :=
  ⟨h.cur, h.zombie, h.frees⟩

theorem log (h : Elsewhere c k₀ k) {ev : Event} (hev : ∀ d e, ev ≠ .free d e) :
    Elsewhere c k₀ (k.log ev) where
  cur := h.cur
  zombie := h.zombie
  frees := by
    obtain ⟨evs, heq, hfree⟩ := h.frees
    refine ⟨ev :: evs, by simp [heq], fun d e he => ?_⟩
    rcases List.mem_cons.mp he with rfl | he
    · exact absurd rfl (hev d e)
    · exact hfree d e he

/-- `env_free` of an environment no other CPU is executing. -/
theorem free (h : Elsewhere c k₀ k) (hnot : ∀ d, d ≠ c → k.curenv d ≠ some e) (m : Phys) :
    Elsewhere c k₀ (k.freed c e m) where
  cur := fun d hd => by
    rw [Kernel.freed_curenv]
    exact h.cur d hd
  zombie := fun d f hd hf hs => by
    have hne : f ≠ e := fun heq => hnot d hd ((h.cur d hd).trans (heq ▸ hf))
    simpa [Kernel.status, Function.update_of_ne hne] using h.zombie d f hd hf hs
  frees := by
    obtain ⟨evs, heq, hfree⟩ := h.frees
    refine ⟨.free c e :: evs, by simp [heq], fun d f hf => ?_⟩
    rcases List.mem_cons.mp hf with hf | hf
    · cases hf
      exact ⟨rfl, fun d' hd' hcur => hnot d' hd' ((h.cur d' hd').trans hcur)⟩
    · exact hfree d f hf

theorem setCur (h : Elsewhere c k₀ k) (x : Option Slot) : Elsewhere c k₀ (k.setCur c x) where
  cur := fun d hd => by
    rw [Kernel.setCur_curenv, Function.update_of_ne hd]
    exact h.cur d hd
  zombie := h.zombie
  frees := h.frees

theorem allocated (h : Elsewhere c k₀ k) (he : k.status e = .free) (parentId : Word) (kva : Ppn)
    (m : Phys) : Elsewhere c k₀ (k.allocated e parentId kva m) := by
  have hset : Elsewhere c k₀ ({ k with phys := m }.setEnv e fun E => E.fresh e parentId kva) :=
    (h.phys m).setEnv fun d _ _ hs => by
      rw [Kernel.status] at he hs
      rw [he] at hs
      cases hs
  have hlog := hset.log (show ∀ d f, Event.alloc e ≠ .free d f from fun _ _ heq => by cases heq)
  exact ⟨hlog.cur, hlog.zombie, hlog.frees⟩

end Elsewhere

namespace Inside

variable {c : Nat} {k₀ k : Kernel} {e cur : Slot}

theorem phys (h : Inside c k₀ k) (m : Phys) : Inside c k₀ { k with phys := m } :=
  ⟨h.sched.phys m, h.elsewhere.phys m⟩

theorem log (h : Inside c k₀ k) {ev : Event} (hev : ∀ d e, ev ≠ .free d e) :
    Inside c k₀ (k.log ev) :=
  ⟨h.sched.log ev, h.elsewhere.log hev⟩

theorem frame (h : Inside c k₀ k) {g : Env → Env} (hs : (g (k.envs e)).envStatus = k.status e)
    (hl : (g (k.envs e)).envLink = (k.envs e).envLink)
    (hp : (g (k.envs e)).envPgdir = (k.envs e).envPgdir) : Inside c k₀ (k.setEnv e g) :=
  ⟨h.sched.frame hs hl hp, h.elsewhere.setEnv fun _ _ _ hdying => ⟨hs.trans hdying, hp⟩⟩

/-- A waiting status for an environment no other CPU is executing. -/
theorem update (h : Inside c k₀ k) {g : Env → Env} (hs : (g (k.envs e)).envStatus.Waiting)
    (hl : (g (k.envs e)).envLink = (k.envs e).envLink)
    (hp : (g (k.envs e)).envPgdir = (k.envs e).envPgdir) (hfree : k.status e ≠ .free)
    (hnot : ∀ d, d ≠ c → k.curenv d ≠ some e) : Inside c k₀ (k.setEnv e g) where
  sched := h.sched.update hs hl hp hfree fun d hd => by
    by_contra hne
    exact hnot d (fun heq => hne (congrArg some heq)) hd
  elsewhere := h.elsewhere.setEnv fun d hd hd' _ => absurd hd' (hnot d hd)

/-- An environment that is not busy, or the one of the CPU inside, is on no other CPU. -/
theorem not_elsewhere (h : Inside c k₀ k) (hcur : k.curenv c = some cur)
    (he : e ≠ cur → ¬ (k.status e).Busy) {d : Nat} (hd : d ≠ c) : k.curenv d ≠ some e := by
  intro hde
  rcases eq_or_ne e cur with rfl | hne
  · exact hd (h.sched.unique d c e hde hcur)
  · exact he hne (h.sched.busy d e (fun heq => hd (Option.some.inj heq)) hde)

/-- `env_destroy` of another environment that is no zombie. -/
theorem destroyed (h : Inside c k₀ k) {k' : Kernel} (hfree : k.status e ≠ .free)
    (hdying : k.status e ≠ .dying) (hd : Destroyed k c e (.back () k')) : Inside c k₀ k' := by
  cases hd with
  | zombie hs hne =>
      exact ⟨h.sched.zombie hs hne, h.elsewhere.setEnv fun _ _ _ hdy => absurd hdy hdying⟩
  | gone hs hne pgdir m hdir hm =>
      have hnot : ∀ d, k.curenv d ≠ some e := fun d hde => by
        rcases eq_or_ne d c with rfl | hd
        · exact hne hde
        · rcases h.sched.busy d e (fun heq => hd (Option.some.inj heq)) hde with hr | hy
          · exact hs hr
          · exact hdying hy
      exact ⟨h.sched.gone hfree hnot m, h.elsewhere.free (fun d _ => hnot d) m⟩

/-- The current environment is freed. -/
theorem leave (h : Inside c k₀ k) (hcur : k.curenv c = some cur) (m : Phys) :
    Inside c k₀ ((k.freed c cur m).setCur c none) where
  sched := h.sched.leave hcur m
  elsewhere := (h.elsewhere.free (fun d hd hde => hd (h.sched.unique d c cur hde hcur)) m).setCur _

theorem allocated (h : Inside c k₀ k) (hlist : k.envFreeList = some e) (parentId : Word)
    (kva : Ppn) (m : Phys) : Inside c k₀ (k.allocated e parentId kva m) :=
  ⟨h.sched.allocated hlist parentId kva m,
    h.elsewhere.allocated (h.sched.pop hlist).1 parentId kva m⟩

theorem ran (h : Inside c k₀ k) {pgdir : Ppn}
    (he : k.status e = .runnable ∨ k.curenv c = some e)
    (hdir : (k.envs e).envPgdir = some pgdir) : Outside c k₀ (k.ran c e pgdir) where
  sched := h.sched.ran he hdir
  elsewhere :=
    { cur := fun d hd => by
        rw [Kernel.ran_curenv, Function.update_of_ne hd]
        exact h.elsewhere.cur d hd
      zombie := fun d f hd hf hs => by
        obtain ⟨hs', hp'⟩ := h.elsewhere.zombie d f hd hf hs
        obtain ⟨st, runs, heq⟩ := k.ran_envs c e pgdir f
        rw [h.sched.ran_status_elsewhere he hd ((h.elsewhere.cur d hd).trans hf), heq]
        exact ⟨hs', hp'⟩
      frees := by
        obtain ⟨evs, heq, hfree⟩ := h.elsewhere.frees
        refine ⟨.run c e :: evs, by simp [heq], fun d f hf => ?_⟩
        rcases List.mem_cons.mp hf with hf | hf
        · cases hf
        · exact hfree d f hf }

theorem rules (c : Nat) (k₀ : Kernel) : EntryRules c (Inside c k₀) (Outside c k₀) where
  ran := fun _ _ _ h he hdir => h.ran (he.imp_right And.left) hdir
  halted := fun k h hnone =>
    { sched := h.sched.halt hnone
      elsewhere :=
        { cur := fun d hd => by
            have hcur : (k.halt c).curenv = Function.update k.curenv c none := by
              simp [Kernel.halt]
            rw [hcur, Function.update_of_ne hd]
            exact h.elsewhere.cur d hd
          zombie := h.elsewhere.zombie
          frees := h.elsewhere.frees } }

end Inside

/-! ## The guard -/

/-- The call `q` of `cur` does not touch the status of an environment that another CPU is
executing. -/
def Call.SchedOk (k : Kernel) (cur : Slot) (q : Call) : Prop :=
  match q.op with
  | some .envDestroy =>
      ∀ e, envid2env k cur q.a1 true = .ok e → e ≠ cur → k.status e ≠ .dying
  | some .envSetTrapframe =>
      ∀ e, envid2env k cur q.a1 true = .ok e → e ≠ cur → CheckFails k e q.a2 68 PTE_W →
        k.status e ≠ .dying
  | some .envSetStatus =>
      ∀ e, envid2env k cur q.a1 true = .ok e → e ≠ cur → statusArg q.a2 ≠ none →
        ¬ (k.status e).Busy
  | some .ipcTrySend =>
      ∀ e, envid2env k cur q.a1 false = .ok e → e ≠ cur → (k.envs e).envIpcRecving = true →
        Deliverable k cur e q → ¬ (k.status e).Busy
  | _ => True

/-- The condition on a step: if it is a system call, the call is `SchedOk` in the state in
which it is made. -/
def SchedGuard (k : Kernel) : Action → Prop
  | .trap c tf _ _ => ∀ cur, UserMode k c cur → k.status cur ≠ .dying →
      tf.tfTrapno = T_SYSCALL → tf.call.SchedOk (k.entered c cur tf) cur
  | _ => True

/-! ## One system call -/

section

variable {c : Nat} {k₀ k : Kernel} {e cur : Slot} {q : Call} {o : Outcome Int}

/-- What `envid2env` finds is allocated. -/
theorem Sched.found (h : Sched (some c) k) (hcur : k.curenv c = some cur) {envid : Word}
    {checkperm : Bool} (hfind : envid2env k cur envid checkperm = .ok e) : k.status e ≠ .free := by
  rcases envid2env_ok.mp hfind with ⟨-, rfl⟩ | ⟨-, -, hs, -⟩
  · exact (h.mine c e rfl hcur).2
  · exact hs

theorem Inside.syscall (h : Inside c k₀ k) (hcur : k.curenv c = some cur) (hok : q.SchedOk k cur)
    (heff : SyscallEffect k c cur q o) : o.Ends (Inside c k₀) (Outside c k₀) := by
  have hrules := Inside.rules c k₀
  cases heff with
  | same r => exact h
  | print bytes hop => exact h.log fun _ _ heq => by cases heq
  | exit pgdir m k' hdir hm hyield => exact hrules.yield (h.leave hcur m) hyield
  | destroy e k' hop hperm hne hd =>
      rw [Call.SchedOk, hop] at hok
      exact h.destroyed (h.sched.found hcur hperm) (hok e hperm hne) hd
  | trapframe e k' tf hop hperm hd =>
      rw [Call.SchedOk, hop] at hok
      rcases hd with rfl | ⟨hne, hfails, hd⟩
      · exact h.frame rfl rfl rfl
      · exact (h.destroyed (h.sched.found hcur hperm) (hok e hperm hne hfails) hd).frame rfl rfl rfl
  | exofork e r kva m hop hlist hm =>
      have halloc := h.allocated hlist (k.envs cur).envId kva m
      have hrun : (k.allocated e (k.envs cur).envId kva m).status e = .runnable := by
        simp [Kernel.status, Kernel.allocated, Kernel.setEnv, Kernel.log, Env.fresh]
      show Inside c k₀ (k.exoforked cur e kva m)
      unfold Kernel.exoforked
      refine halloc.update (Or.inr rfl) rfl rfl ?_ fun d hd hde => ?_
      · rw [hrun]
        decide
      · exact halloc.sched.not_elsewhere (Or.inl hrun) hd hde
  | setStatus e st hop harg hperm =>
      rw [Call.SchedOk, hop] at hok
      have hwait : st.Waiting := by
        unfold statusArg at harg
        split at harg
        · cases harg
          exact Or.inl rfl
        · split at harg <;> cases harg
          exact Or.inr rfl
      exact h.update hwait rfl rfl (h.sched.found hcur hperm) fun d hd =>
        h.not_elsewhere hcur (fun hne => hok e hperm hne (by rw [harg]; simp)) hd
  | upcall e hop hfind => exact h.frame rfl rfl rfl
  | pageAlloc r m hop hcall => exact h.phys m
  | pageMap r m hop hcall => exact h.phys m
  | pageUnmap r m hop hcall => exact h.phys m
  | yield k' hop hyield => exact hrules.yield h hyield
  | sendRefused e hop hfind hrecv => exact h.log fun _ _ heq => by cases heq
  | sendFailed e r m hop hfind hrecv hpage hr hmap =>
      have hclear : Inside c k₀ (k.clearPerm e) := h.frame rfl rfl rfl
      exact (hclear.phys m).log fun _ _ heq => by cases heq
  | sent e page m hop hfind hrecv hpage hmap =>
      rw [Call.SchedOk, hop] at hok
      have hdeliver := deliverable_of_sent hfind hpage hmap
      refine Inside.log ?_ fun _ _ heq => by cases heq
      exact (h.phys m).update (Or.inl rfl) rfl rfl (h.sched.found hcur hfind) fun d hd =>
        h.not_elsewhere hcur (fun hne => hok e hfind hne hrecv hdeliver) hd
  | recv k' hop hva hyield =>
      refine hrules.yield ?_ hyield
      refine Inside.log ?_ fun _ _ heq => by cases heq
      exact h.update (Or.inr rfl) rfl rfl (h.sched.mine c cur rfl hcur).2 fun d hd hde =>
        hd (h.sched.unique d c cur hde hcur)

end

/-! ## One step -/

section

variable {c : Nat} {k k' : Kernel} {cur : Slot}

/-- A CPU that is started and has no zombie may be thought of as inside the kernel. -/
theorem Sched.inside (h : Sched none k) (hstarted : (k.cpus c).cpuStatus = .started)
    (hzombie : ∀ e, k.curenv c = some e → k.status e ≠ .dying) : Sched (some c) k where
  busy := fun d e _ hd => h.busy d e (by simp) hd
  mine := fun d e hd hcur => by
    obtain rfl : d = c := Option.some.inj hd
    exact ⟨hzombie e hcur, h.not_free hcur⟩
  unique := h.unique
  started := h.started
  entered := fun d hd => by
    obtain rfl : d = c := Option.some.inj hd
    exact hstarted
  live := h.live
  freeList := h.freeList
  cr3 := h.cr3

theorem Sched.setStarted {i : Option Nat} (h : Sched i k) (c : Nat) :
    Sched i (k.setCpuStatus c .started) where
  busy := fun d e hd hcur => h.busy d e hd (by simpa using hcur)
  mine := fun d e hd hcur => h.mine d e hd (by simpa using hcur)
  unique := fun d d' e hd hd' => h.unique d d' e (by simpa using hd) (by simpa using hd')
  started := fun d e hd => by
    rcases eq_or_ne d c with rfl | hne
    · simp [Kernel.setCpuStatus]
    · simpa [Kernel.setCpuStatus, Function.update_of_ne hne] using
        h.started d e (by simpa using hd)
  entered := fun d hd => by
    rcases eq_or_ne d c with rfl | hne
    · simp [Kernel.setCpuStatus]
    · simpa [Kernel.setCpuStatus, Function.update_of_ne hne] using h.entered d hd
  live := fun e he => by simpa using h.live e he
  freeList := h.freeList
  cr3 := fun d e hd => by
    rcases eq_or_ne d c with rfl | hne
    · simpa [Kernel.setCpuStatus] using h.cr3 d e (by simpa using hd)
    · simpa [Kernel.setCpuStatus, Function.update_of_ne hne] using h.cr3 d e (by simpa using hd)

/-- Loading a page directory on a CPU that executes no environment. -/
theorem Sched.lcr3 {i : Option Nat} (h : Sched i k) (hcur : k.curenv c = none) (p : Ppn) :
    Sched i (k.lcr3 c p) where
  busy := fun d e hd hcur => h.busy d e hd (by simpa using hcur)
  mine := fun d e hd hcur => h.mine d e hd (by simpa using hcur)
  unique := fun d d' e hd hd' => h.unique d d' e (by simpa using hd) (by simpa using hd')
  started := fun d e hd => by
    rcases eq_or_ne d c with rfl | hne
    · simp [hcur] at hd
    · simpa [Kernel.lcr3, Function.update_of_ne hne] using h.started d e (by simpa using hd)
  entered := fun d hd => by
    rcases eq_or_ne d c with rfl | hne
    · simpa [Kernel.lcr3] using h.entered d hd
    · simpa [Kernel.lcr3, Function.update_of_ne hne] using h.entered d hd
  live := fun e he => by simpa using h.live e he
  freeList := h.freeList
  cr3 := fun d e hd => by
    rcases eq_or_ne d c with rfl | hne
    · simp [hcur] at hd
    · simpa [Kernel.lcr3, Function.update_of_ne hne] using h.cr3 d e (by simpa using hd)

theorem setCpuStatus_started (k : Kernel) (c : Nat) :
    ((k.setCpuStatus c .started).cpus c).cpuStatus = .started := by
  simp [Kernel.setCpuStatus]

/-- What an entry leaves alone is the same seen from before the CPU is marked started. -/
theorem Elsewhere.of_started {k₁ : Kernel} (h : Elsewhere c (k.setCpuStatus c .started) k₁) :
    Elsewhere c k k₁ where
  cur := fun d hd => by simpa using h.cur d hd
  zombie := fun d e hd hcur => h.zombie d e hd (by simpa using hcur)
  frees := by
    obtain ⟨evs, heq, hfree⟩ := h.frees
    exact ⟨evs, heq, fun d e he => by simpa using hfree d e he⟩

/-- The CPU an action happens on. -/
def Action.cpu : Action → Nat
  | .start c => c
  | .trap c _ _ _ => c
  | .store c _ _ => c

/-- One step keeps the invariant, and leaves the environments of the other CPUs alone. -/
theorem Sched.step {a : Action} (h : Sched none k) (hguard : SchedGuard k a) (hstep : Step k a k') :
    Outside a.cpu k k' := by
  cases step_effect hstep with
  | start c _ hcur hyield =>
      have hcur' : (k.setCpuStatus c .started).curenv c = none := by simpa using hcur
      have hin : Inside c (k.setCpuStatus c .started)
          ((k.setCpuStatus c .started).lcr3 c k.phys.kernPgdir) :=
        { sched := ((h.setStarted c).inside (setCpuStatus_started k c)
            (fun e he => by simp [hcur] at he)).lcr3 hcur' _
          elsewhere := ⟨fun d _ => by simp, fun _ _ _ _ hs => ⟨hs, rfl⟩, ⟨[], rfl, nofun⟩⟩ }
      have hout := (Inside.rules c _).yield hin hyield
      exact ⟨hout.sched, hout.elsewhere.of_started⟩
  | reap c tf cr2 key cur pgdir m _ hmode hstatus hdir hm hyield =>
      have hcur : (k.setCpuStatus c .started).curenv c = some cur := by simpa using hmode.1
      have hstarted := h.setStarted c
      have hleft := hstarted.leave hcur m
      have hin : Inside c (k.setCpuStatus c .started)
          (((k.setCpuStatus c .started).freed c cur m).setCur c none) :=
        { sched := hleft.inside (by
              simpa [Kernel.setCur, setCpuStatus_started] using
                (k.setCpuStatus c .started).freed_cpuStatus c cur m c)
            (fun e he => by simp at he)
          elsewhere := ((Elsewhere.refl c _).free
            (fun d hd hde => hd (hstarted.unique d c cur hde hcur)) m).setCur none }
      have hout := (Inside.rules c _).yield hin hyield
      exact ⟨hout.sched, hout.elsewhere.of_started⟩
  | user c tf cr2 key cur o _ hmode hstatus hd hfinish =>
      have hcur : (k.setCpuStatus c .started).curenv c = some cur := by simpa using hmode.1
      have hbase : Inside c (k.setCpuStatus c .started) (k.setCpuStatus c .started) :=
        ⟨(h.setStarted c).inside (setCpuStatus_started k c) (fun e he => by
          obtain rfl : cur = e := Option.some.inj (hcur.symm.trans he)
          exact hstatus), .refl c _⟩
      have hin : Inside c (k.setCpuStatus c .started) (k.entered c cur tf) :=
        hbase.frame rfl rfl rfl
      have hcur' : (k.entered c cur tf).curenv c = some cur := hcur
      have hends := (Inside.rules c (k.setCpuStatus c .started)).dispatched hin hcur'
        (fun m tf' pgdir _ _ _ hdir => ((hin.phys m).frame rfl rfl rfl).ran (Or.inr hcur')
          (by simpa using hdir))
        (fun pgdir m _ _ => hin.leave hcur' m)
        (fun o' htrap heff => hin.syscall hcur' (hguard cur hmode hstatus htrap) heff)
        (fun k' r hk => hk.frame rfl rfl rfl) hd
      have hout := (Inside.rules c _).finish hends hfinish
      exact ⟨hout.sched, hout.elsewhere.of_started⟩
  | wake c tf cr2 key _ hhalted hback =>
      have hcur : (k.setCpuStatus c .started).curenv c = none := by
        rw [Kernel.setCpuStatus_curenv]
        cases hc : k.curenv c with
        | none => rfl
        | some e =>
            have hs := h.started c e hc
            rw [hhalted] at hs
            cases hs
      have hin : Inside c (k.setCpuStatus c .started) (k.setCpuStatus c .started) :=
        ⟨(h.setStarted c).inside (setCpuStatus_started k c) (fun e he => by
          rw [hcur] at he
          cases he), .refl c _⟩
      have hout : Outside c (k.setCpuStatus c .started) k' := by
        rcases hback with hyield | hret
        · exact (Inside.rules c _).yield hin hyield
        · exact (Inside.rules c _).trapReturn hin hret
      exact ⟨hout.sched, hout.elsewhere.of_started⟩
  | store c va b cur m hmode hstore => exact ⟨h.phys m, (Elsewhere.refl c k).phys m⟩

end

end SisOp.Jos
