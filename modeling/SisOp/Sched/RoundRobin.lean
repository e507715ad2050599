/-
# `SisOp.Sched.RoundRobin` — which environment `sched_yield` picks

`YieldAt` are the states in which a kernel entry calls `sched_yield`.  In each of them the
environment it gives to `env_run` is compared with the one that comes first after the index
of `curenv` (`NextRunnable`).  The scan starts at that index instead of after it, so the two
differ when `curenv` itself is runnable and another environment is too.
-/
import SisOp.Sched.Indexed
import SisOp.Runs.Fork
import Mathlib.Data.Finset.Max

namespace SisOp.Jos

open SisOp.Lib

/-! ## The choice -/

/-- The environment `sched_yield` gives to `env_run`, if any. -/
def schedChoice (k : Kernel) (c : Nat) : Option Slot :=
  let id := match k.curenv c with
    | some e => (ENVX (k.envs e).envId).val
    | none => 0
  ((schedOrder id).find? fun i => (k.envs i).envStatus = .runnable).or
    ((k.curenv c).filter fun e => (k.envs e).envStatus = .running)

/-- How far `e` is from the index after `start`, going around. -/
def circDist (start e : Slot) : Nat := (e.val + 1023 - start.val) % 1024

/-- The index of `curenv`, or the last one. -/
def lastIndex (k : Kernel) (c : Nat) : Slot := (k.curenv c).getD 1023

/-- `e` is the runnable environment nearest to the index after `start`. -/
structure NextRunnable (k : Kernel) (start e : Slot) : Prop where
  runnable : k.status e = .runnable
  first : ∀ f, k.status f = .runnable → circDist start e ≤ circDist start f

/-- What the round robin asks for. -/
structure RoundRobin (k : Kernel) (c : Nat) : Prop where
  next : ∀ e, NextRunnable k (lastIndex k c) e → schedChoice k c = some e
  again : (∀ f, k.status f ≠ .runnable) → ∀ e, k.curenv c = some e → k.status e = .running →
    schedChoice k c = some e
  halt : (∀ f, k.status f ≠ .runnable) → (∀ e, k.curenv c = some e → k.status e ≠ .running) →
    schedChoice k c = none
  elsewhere : ∀ e d, schedChoice k c = some e → k.status e = .running → d ≠ c →
    k.curenv d ≠ some e

section

variable {k k' : Kernel} {c : Nat} {e f cur start : Slot} {q : Call} {m : Phys}

theorem schedYield_eq (k : Kernel) (c : Nat) : schedYield k c =
    match schedChoice k c with
    | some e => envRun k c e
    | none => schedHalt k c := by
  unfold schedYield schedChoice
  cases hcur : k.curenv c with
  | none =>
      dsimp only
      split <;> rename_i hfind <;> rw [hfind] <;> rfl
  | some e =>
      dsimp only
      split
      · rename_i f hfind
        rw [hfind]
        rfl
      · rename_i hfind
        rw [hfind]
        by_cases hrun : (k.envs e).envStatus = .running <;> simp [Option.filter, hrun]

/-! ## The two scans -/

/-- The position of `e` in the order of the scans. -/
def scanDist (start e : Slot) : Nat := (e.val + 1024 - start.val) % 1024

theorem scanDist_inj (h : scanDist start e = scanDist start f) : e = f := by
  have he := e.isLt
  have hf := f.isLt
  have hs := start.isLt
  unfold scanDist at h
  apply Fin.ext
  omega

/-- The scans visit the indices in the order of their distance from `start`. -/
theorem schedOrder_pairwise (start : Slot) :
    (schedOrder start.val).Pairwise fun e f => scanDist start e < scanDist start f := by
  have hlt := start.isLt
  have hdrop : ∀ e ∈ (List.finRange 1024).drop start.val, start.val ≤ e.val := fun e he => by
    obtain ⟨n, hn, rfl⟩ := List.mem_iff_getElem.mp he
    simp
  have htake : ∀ e ∈ (List.finRange 1024).take start.val, e.val < start.val := fun e he => by
    obtain ⟨n, hn, rfl⟩ := List.mem_iff_getElem.mp he
    rw [List.length_take] at hn
    simp only [List.getElem_take, List.getElem_finRange, Fin.val_cast]
    omega
  have hsorted : (List.finRange 1024).Pairwise (· < ·) := List.pairwise_lt_finRange 1024
  refine List.pairwise_append.mpr ⟨?_, ?_, fun e he f hf => ?_⟩
  · refine (hsorted.sublist (List.drop_sublist _ _)).imp_of_mem fun {e f} he hf hef => ?_
    have h1 := hdrop e he
    have h2 := hdrop f hf
    have hef' : e.val < f.val := hef
    unfold scanDist
    omega
  · refine (hsorted.sublist (List.take_sublist _ _)).imp_of_mem fun {e f} he hf hef => ?_
    have h1 := htake e he
    have h2 := htake f hf
    have hef' : e.val < f.val := hef
    unfold scanDist
    omega
  · have h1 := hdrop e he
    have h2 := htake f hf
    have he' := e.isLt
    unfold scanDist
    omega

/-- The scans find the runnable environment nearest to `start`, `start` included. -/
theorem find_schedOrder :
    (schedOrder start.val).find? (fun i => (k.envs i).envStatus = .runnable) = some e ↔
      k.status e = .runnable ∧ ∀ f, k.status f = .runnable → scanDist start e ≤ scanDist start f := by
  have hfound : ∀ e, (schedOrder start.val).find? (fun i => (k.envs i).envStatus = .runnable) =
      some e → k.status e = .runnable ∧
        ∀ f, k.status f = .runnable → scanDist start e ≤ scanDist start f := by
    intro e h
    refine ⟨by simpa [Kernel.status] using List.find?_some h, fun f hf => ?_⟩
    obtain ⟨-, before, after, heq, hnone⟩ := List.find?_eq_some_iff_append.mp h
    have hord := schedOrder_pairwise start
    have hmem := mem_schedOrder start.val f
    rw [heq] at hord hmem
    rcases List.mem_append.mp hmem with hmem | hmem
    · have hno := hnone f hmem
      rw [Kernel.status] at hf
      simp [hf] at hno
    · rcases List.mem_cons.mp hmem with rfl | hmem
      · exact le_rfl
      · have hcons := (List.pairwise_append.mp hord).2.1
        exact ((List.pairwise_cons.mp hcons).1 f hmem).le
  constructor
  · exact hfound e
  · rintro ⟨he, hmin⟩
    cases hx : (schedOrder start.val).find? (fun i => (k.envs i).envStatus = .runnable) with
    | none =>
        have hno := List.find?_eq_none.mp hx e (mem_schedOrder start.val e)
        rw [Kernel.status] at he
        simp [he] at hno
    | some x =>
        obtain ⟨hx1, hx2⟩ := hfound x hx
        have hle := hx2 e he
        have hge := hmin x hx1
        rw [scanDist_inj (le_antisymm hle hge)]

theorem schedChoice_none (hcur : k.curenv c = none) : schedChoice k c =
    (schedOrder (0 : Slot).val).find? fun i => (k.envs i).envStatus = .runnable := by
  simp [schedChoice, hcur]

theorem schedChoice_some (hcur : k.curenv c = some e) (hidx : ENVX (k.envs e).envId = e) :
    schedChoice k c =
      ((schedOrder e.val).find? fun i => (k.envs i).envStatus = .runnable).or
        (if k.status e = .running then some e else none) := by
  by_cases hrun : (k.envs e).envStatus = .running <;>
    simp [schedChoice, hcur, hidx, Kernel.status, Option.filter, hrun]

theorem find_none (h : ∀ f, k.status f ≠ .runnable) (n : Nat) :
    (schedOrder n).find? (fun i => (k.envs i).envStatus = .runnable) = none :=
  List.find?_eq_none.mpr fun f _ => by simpa [Kernel.status] using h f

/-- Without a `curenv` the scans start where they should. -/
theorem scanDist_zero (e : Slot) : scanDist 0 e = circDist 1023 e := by
  have he := e.isLt
  show (e.val + 1024 - 0) % 1024 = (e.val + 1023 - 1023) % 1024
  omega

/-- With one they start one index too early, at its own. -/
theorem scanDist_of_ne (h : f ≠ e) : scanDist e f = circDist e f + 1 := by
  have he := e.isLt
  have hf := f.isLt
  have hne : f.val ≠ e.val := fun heq => h (Fin.ext heq)
  unfold scanDist circDist
  omega

theorem scanDist_self (e : Slot) : scanDist e e = 0 := by
  unfold scanDist
  omega

theorem circDist_self (e : Slot) : circDist e e = 1023 := by
  unfold circDist
  omega

theorem circDist_lt (h : f ≠ e) : circDist e f < 1023 := by
  have he := e.isLt
  have hf := f.isLt
  have hne : f.val ≠ e.val := fun heq => h (Fin.ext heq)
  unfold circDist
  omega

theorem exists_nextRunnable (hf : k.status f = .runnable) (start : Slot) :
    ∃ e, NextRunnable k start e := by
  obtain ⟨e, he, hmin⟩ := Finset.exists_min_image
    (Finset.univ.filter fun f => k.status f = .runnable) (circDist start) ⟨f, by simpa using hf⟩
  exact ⟨e, by simpa using he, fun g hg => hmin g (by simpa using hg)⟩

/-! ## When the choice is right -/

/-- `curenv` is not runnable besides others, and not executed by another CPU if it is to go on. -/
structure Fair (k : Kernel) (c : Nat) : Prop where
  alone : ∀ e f, k.curenv c = some e → k.status e = .runnable → k.status f = .runnable → f = e
  sole : (∀ f, k.status f ≠ .runnable) → ∀ e d, k.curenv c = some e → k.status e = .running →
    d ≠ c → k.curenv d ≠ some e

theorem Fair.roundRobin (h : Fair k c)
    (hidx : ∀ e, k.curenv c = some e → ENVX (k.envs e).envId = e) : RoundRobin k c := by
  have hagain : (∀ f, k.status f ≠ .runnable) → schedChoice k c =
      (k.curenv c).filter fun e => (k.envs e).envStatus = .running := fun hno => by
    rw [schedChoice, find_none hno, Option.none_or]
  refine ⟨fun e hnext => ?_, fun hno e hcur hrun => ?_, fun hno hnot => ?_,
    fun e d hchoice hrun hd => ?_⟩
  · cases hcur : k.curenv c with
    | none =>
        rw [schedChoice_none hcur, find_schedOrder]
        refine ⟨hnext.runnable, fun f hf => ?_⟩
        have hle := hnext.first f hf
        rw [lastIndex, hcur, Option.getD_none] at hle
        rwa [scanDist_zero, scanDist_zero]
    | some s =>
        have hfirst : ∀ f, k.status f = .runnable → circDist s e ≤ circDist s f := fun f hf => by
          have hle := hnext.first f hf
          rwa [lastIndex, hcur, Option.getD_some] at hle
        rw [schedChoice_some hcur (hidx s hcur), Option.or_eq_some_iff]
        refine Or.inl (find_schedOrder.mpr ⟨hnext.runnable, fun f hf => ?_⟩)
        by_cases hs : k.status s = .runnable
        · rw [h.alone s e hcur hs hnext.runnable, h.alone s f hcur hs hf]
        · have hes : e ≠ s := fun heq => hs (heq ▸ hnext.runnable)
          have hfs : f ≠ s := fun heq => hs (heq ▸ hf)
          rw [scanDist_of_ne hes, scanDist_of_ne hfs]
          exact Nat.succ_le_succ (hfirst f hf)
  · rw [hagain hno, hcur]
    simpa [Kernel.status, Option.filter] using hrun
  · rw [hagain hno]
    cases hcur : k.curenv c with
    | none => rfl
    | some e => simpa [Kernel.status, Option.filter] using hnot e hcur
  · have hfilter : (k.curenv c).filter (fun e => (k.envs e).envStatus = .running) = some e ∧
        ∀ f, k.status f ≠ .runnable := by
      rw [schedChoice, Option.or_eq_some_iff] at hchoice
      rcases hchoice with hfind | ⟨hnone, hfilter⟩
      · have hrunnable := List.find?_some hfind
        rw [Kernel.status] at hrun
        simp [hrun] at hrunnable
      · refine ⟨hfilter, fun f hf => ?_⟩
        have hno := List.find?_eq_none.mp hnone f (mem_schedOrder _ f)
        rw [Kernel.status] at hf
        simp [hf] at hno
    exact h.sole hfilter.2 e d (Option.filter_eq_some_iff.mp hfilter.1).1 hrun hd

theorem RoundRobin.fair (h : RoundRobin k c)
    (hidx : ∀ e, k.curenv c = some e → ENVX (k.envs e).envId = e) : Fair k c where
  alone := fun e f hcur he hf => by
    by_contra hne
    -- the nearest one is not `e`, but the scan stops at `e`
    obtain ⟨x, hx⟩ := exists_nextRunnable hf e
    have hxe : x ≠ e := fun heq => by
      have hle := hx.first f hf
      have hlt := circDist_lt hne
      rw [heq, circDist_self] at hle
      omega
    have hnext : NextRunnable k (lastIndex k c) x := by
      rw [lastIndex, hcur, Option.getD_some]
      exact hx
    have hchoice := h.next x hnext
    have hscan : (schedOrder e.val).find? (fun i => (k.envs i).envStatus = .runnable) = some e :=
      find_schedOrder.mpr ⟨he, fun g _ => by rw [scanDist_self]; exact Nat.zero_le _⟩
    rw [schedChoice_some hcur (hidx e hcur), hscan, Option.some_or] at hchoice
    exact hxe (Option.some.inj hchoice).symm
  sole := fun hno e d hcur hrun hd => h.elsewhere e d (h.again hno e hcur hrun) hrun hd

theorem roundRobin_iff_fair (hidx : ∀ e, k.curenv c = some e → ENVX (k.envs e).envId = e) :
    RoundRobin k c ↔ Fair k c :=
  ⟨fun h => h.fair hidx, fun h => h.roundRobin hidx⟩

/-! ## Where `sched_yield` is called -/

/-- In an entry that begins in `k`, `sched_yield` is called on CPU `c` in the last state. -/
inductive YieldAt (k : Kernel) (c : Nat) : Kernel → Prop
  /-- `mp_main` and `i386_init`. -/
  | start (hcur : k.curenv c = none) :
      YieldAt k c ((k.setCpuStatus c .started).lcr3 c k.phys.kernPgdir)
  /-- `trap`, after a zombie was freed. -/
  | zombie (cur : Slot) (k1 : Kernel) (hmode : UserMode k c cur) (hdying : k.status cur = .dying)
      (hfree : envFree (k.setCpuStatus c .started) c cur = .ok k1) : YieldAt k c (k1.setCur c none)
  /-- An interrupt on a halted CPU. -/
  | woken (hhalted : (k.cpus c).cpuStatus = .halted) : YieldAt k c (k.setCpuStatus c .started)
  /-- The timer and `sys_yield`. -/
  | yield (cur : Slot) (tf : Trapframe) (hmode : UserMode k c cur) : YieldAt k c (k.entered c cur tf)
  /-- `sys_ipc_recv`. -/
  | recv (cur : Slot) (tf : Trapframe) (dstva : Word) (hmode : UserMode k c cur) :
      YieldAt k c ((k.entered c cur tf).receiving cur dstva)
  /-- `env_destroy(curenv)`. -/
  | exit (cur : Slot) (tf : Trapframe) (k1 : Kernel) (hmode : UserMode k c cur)
      (hfree : envFree (k.entered c cur tf) c cur = .ok k1) : YieldAt k c (k1.setCur c none)
  /-- The end of `trap`, `curenv` not running any more. -/
  | back (cur : Slot) (tf : Trapframe) (cr2 : Word) (key : Int) (k1 : Kernel)
      (hmode : UserMode k c cur)
      (hd : Dispatched (k.entered c cur tf) c cur tf cr2 key (.back () k1))
      (hnot : ∀ e, k1.curenv c = some e → k1.status e ≠ .running) : YieldAt k c k1

theorem trapReturn_cases (h : trapReturn k c = .ok k') :
    (∃ e, k.curenv c = some e ∧ envRun k c e = .ok k') ∨
      (∀ e, k.curenv c = some e → k.status e ≠ .running) ∧ schedYield k c = .ok k' := by
  unfold trapReturn at h
  split at h
  · rename_i e hcur
    split at h
    · exact Or.inl ⟨e, hcur, h⟩
    · rename_i hrun
      refine Or.inr ⟨fun f hf => ?_, h⟩
      obtain rfl := Option.some.inj (hcur.symm.trans hf)
      exact hrun
  · rename_i hcur
    refine Or.inr ⟨fun f hf => ?_, h⟩
    rw [hcur] at hf
    cases hf

/-- A step of the machine leaves the kernel by one of these calls or back into `curenv`. -/
theorem yieldAt_of_step {a : Action} (h : Step k a k') :
    (∃ c k1, YieldAt k c k1 ∧ schedYield k1 c = .ok k') ∨
      (∃ c k1 e, k1.curenv c = some e ∧ envRun k1 c e = .ok k') ∨
        ∃ m, k' = { k with phys := m } := by
  cases step_effect h with
  | start c _ hcur hyield => exact Or.inl ⟨c, _, .start hcur, hyield⟩
  | reap c tf cr2 key cur pgdir m _ hmode hdying hdir hm hyield =>
    refine Or.inl ⟨c, _, .zombie cur _ hmode hdying ?_, hyield⟩
    exact envFree_ok.mpr ⟨pgdir, m, hdir, hm, rfl⟩
  | wake c tf cr2 key _ hhalted hback =>
    rcases hback with hyield | hback
    · exact Or.inl ⟨c, _, .woken hhalted, hyield⟩
    · rcases trapReturn_cases hback with ⟨e, hcur, hrun⟩ | ⟨-, hyield⟩
      · exact Or.inr (Or.inl ⟨c, _, e, hcur, hrun⟩)
      · exact Or.inl ⟨c, _, .woken hhalted, hyield⟩
  | store c va b cur m => exact Or.inr (Or.inr ⟨m, rfl⟩)
  | user c tf cr2 key cur o _ hmode _ hd hfinish =>
    have hcur : (k.entered c cur tf).curenv c = some cur := by
      simpa [Kernel.entered] using hmode.1
    cases o with
    | back r k1 =>
      rcases trapReturn_cases hfinish with ⟨e, hcur, hrun⟩ | ⟨hnot, hyield⟩
      · exact Or.inr (Or.inl ⟨c, _, e, hcur, hrun⟩)
      · exact Or.inl ⟨c, k1, .back cur tf cr2 key k1 hmode hd hnot, hyield⟩
    | away k1 =>
      cases hfinish
      cases hd with
      | timer _ hyield => exact Or.inl ⟨c, _, .yield cur tf hmode, hyield⟩
      | upcall m _ _ _ _ _ hrun =>
        refine Or.inr (Or.inl ⟨c, _, cur, ?_, hrun⟩)
        exact hcur
      | destroyed _ hd =>
        cases hd with
        | left _ pgdir m _ hdir hm hyield =>
          exact Or.inl ⟨c, _, .exit cur tf _ hmode (envFree_ok.mpr ⟨pgdir, m, hdir, hm, rfl⟩), hyield⟩
      | callAway _ _ hcall =>
        cases syscall_effect hcur hcall with
        | exit pgdir m _ hdir hm hyield =>
          exact Or.inl ⟨c, _, .exit cur tf _ hmode (envFree_ok.mpr ⟨pgdir, m, hdir, hm, rfl⟩), hyield⟩
        | yield _ _ hyield => exact Or.inl ⟨c, _, .yield cur tf hmode, hyield⟩
        | recv _ _ _ hyield => exact Or.inl ⟨c, _, .recv cur tf _ hmode, hyield⟩

theorem Indexed.yieldAt (h : Indexed k) (hy : YieldAt k c k') : Indexed k' := by
  cases hy with
  | start => exact (h.started c).lcr3 c _
  | zombie cur k1 _ _ hfree =>
    obtain ⟨pgdir, m, -, -, rfl⟩ := envFree_ok.mp hfree
    exact ((h.started c).freed c cur m).setCur_none c
  | woken => exact h.started c
  | yield cur tf => exact h.entered c cur tf
  | recv cur tf dstva hmode =>
    have hcur : (k.entered c cur tf).curenv c = some cur := by
      simpa [Kernel.entered] using hmode.1
    exact (h.entered c cur tf).update rfl rfl rfl fun _ => (h.entered c cur tf).current c cur hcur
  | exit cur tf k1 _ hfree =>
    obtain ⟨pgdir, m, -, -, rfl⟩ := envFree_ok.mp hfree
    exact ((h.entered c cur tf).freed c cur m).setCur_none c
  | back cur tf cr2 key _ hmode hd =>
    have hcur : (k.entered c cur tf).curenv c = some cur := by
      simpa [Kernel.entered] using hmode.1
    exact (h.entered c cur tf).dispatched hcur hd

end

/-! ## The round robin -/

/-- `sys_env_set_status(0, ENV_RUNNABLE)`. -/
def setSelfRunnable : Call := ⟨8, 0, 2, 0, 0, 0⟩

end SisOp.Jos
