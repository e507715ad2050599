/-
# `SisOp.Runs.Fork` — a parent and its child

The first environment is started and forks: from the state of `First` to one in
which the parent runs on CPU 0 and the child, in slot 1, has an empty address
space and has not run (`Family`).
-/
import SisOp.Runs.Scene

namespace SisOp.Jos

open SisOp.Lib

/-- Slot 0 is the parent of slot 1. -/
structure Family (K : Ppn → Prop) (k : Kernel) : Prop where
  inv : MemInv K k
  room : Roomy K 800 k
  id0 : (k.envs 0).envId = 0x1000
  id1 : (k.envs 1).envId = 0x1001
  parent0 : (k.envs 0).envParentId = 0
  parent1 : (k.envs 1).envParentId = 0x1000
  dir0 : ∃ d, (k.envs 0).envPgdir = some d
  dir1 : ∃ d, (k.envs 1).envPgdir = some d
  bare : ∀ i, tableOf k.dirs k.phys 1 i = none
  waiting0 : (k.envs 0).envIpcRecving = false ∧ (k.envs 0).envIpcDstva = 0
  waiting1 : (k.envs 1).envIpcRecving = false ∧ (k.envs 1).envIpcDstva = 0
  upcall : (k.envs 0).envPgfaultUpcall = 0
  stack : ∃ p, k.mapped 0 (PDX stackVa) (PTX stackVa) = some (mkPte p (PTE_W ||| PTE_U))

/-- Slot 0 is running, slot 1 has status `s`. -/
def pair (s : EnvStatus) : Slot → EnvStatus :=
  Function.update (Function.update (fun _ => .free) 0 .running) 1 s

/-- Slot 0 is on CPU 0. -/
def parentOn : Nat → Option Slot := Function.update (fun _ => none) 0 (some 0)

section

variable {K : Ppn → Prop} {k k' : Kernel} {dirs : Slot → Option Ppn} {l : List Ppn} {m m' : Phys}
  {e : Slot} {a : Ppn}

theorem MemInv.near (h : MemInv K k) (hn : k.Near k') : MemInv K k' := by
  refine (h.refl.congr hn.phys hn.dirs hn.envFreeList fun f => ?_).inv
  obtain ⟨tf, runs, st, heq⟩ := hn.envs f
  rw [heq]

theorem Roomy.near {n : Nat} (h : Roomy K n k) (hn : k.Near k') : Roomy K n k' := by
  rw [Roomy, hn.dirs, hn.phys]
  exact h

theorem Family.near (h : Family K k) (hn : k.Near k') : Family K k' := by
  obtain ⟨tf0, runs0, st0, h0⟩ := hn.envs 0
  obtain ⟨tf1, runs1, st1, h1⟩ := hn.envs 1
  exact
    { inv := h.inv.near hn
      room := h.room.near hn
      id0 := by
        rw [h0]
        exact h.id0
      id1 := by
        rw [h1]
        exact h.id1
      parent0 := by
        rw [h0]
        exact h.parent0
      parent1 := by
        rw [h1]
        exact h.parent1
      dir0 := by
        rw [h0]
        exact h.dir0
      dir1 := by
        rw [h1]
        exact h.dir1
      bare := by
        rw [hn.dirs, hn.phys]
        exact h.bare
      waiting0 := by
        rw [h0]
        exact h.waiting0
      waiting1 := by
        rw [h1]
        exact h.waiting1
      upcall := by
        rw [h0]
        exact h.upcall
      stack := by
        rw [Kernel.mapped, hn.dirs, hn.phys]
        exact h.stack }

/-- A new directory has no page tables. -/
theorem setupVm_bare (h : Ledger K dirs [] l m) (hm : SetupVm m a m') (i : Idx) :
    tableOf (Function.update dirs e (some a)) m' e i = none := by
  obtain ⟨m1, halloc, -, rfl⟩ := hm
  obtain ⟨l', -, h1, hfresh, -, -⟩ := h.pageAlloc halloc
  by_cases hi : UserPdx i
  · have hne : i ≠ PDX UVPT := fun heq => absurd (heq ▸ hi) (by decide)
    rw [tableOf, if_pos hi, Function.update_self, Option.bind_some,
      store_mem_of_ne (Or.inr hne), fill_mem, Function.update_self, if_neg (h1.blank i hi)]
  · exact tableOf_none_of_not_user hi

theorem exoforked_envs_of_ne (k : Kernel) (cur : Slot) (a : Ppn) (m : Phys) {f : Slot}
    (hf : f ≠ e) : (k.exoforked cur e a m).envs f = k.envs f := by
  simp [Kernel.exoforked, Kernel.allocated, Kernel.log, Function.update_of_ne hf]

theorem exoforked_envs_self (k : Kernel) (cur e : Slot) (a : Ppn) (m : Phys) : ∃ tf,
    (k.exoforked cur e a m).envs e = { (k.envs e).fresh e (k.envs cur).envId a with
      envStatus := .notRunnable, envTf := tf } := by
  simp [Kernel.exoforked, Kernel.allocated, Kernel.log]

theorem dirs_exoforked (k : Kernel) (cur e : Slot) (a : Ppn) (m : Phys) :
    (k.exoforked cur e a m).dirs = Function.update k.dirs e (some a) := by
  rw [Kernel.exoforked, dirs_setEnv rfl, dirs_allocated]

/-- The state before the fork. -/
theorem First.started (h : First K k) : ∃ k', Step k (.start 0) k' ∧ k.Near k' ∧
    Scene k' (Function.update (fun _ => .free) 0 .running) parentOn [] := by
  obtain ⟨d, hd⟩ := h.dir
  have hscene : Scene k (Function.update (fun _ => .free) 0 .runnable) (fun _ => none) [] :=
    { status := h.status
      curenv := h.curenv
      started := fun _ _ hc => nomatch hc
      halted := fun c hc => absurd hc (h.awake c)
      loaded := fun _ _ hc => nomatch hc }
  obtain ⟨k', hstep, hnear, hs⟩ := hscene.start (c := 0) (e := 0) rfl List.not_mem_nil (fun f => by
    rcases eq_or_ne f 0 with rfl | hne
    · simp
    · simp [hne]) hd
  rw [Function.update_idem] at hs
  exact ⟨k', hstep, hnear, hs⟩

def exoforkCall : Call := ⟨7, 0, 0, 0, 0, 0⟩

theorem First.forked (h : First K k) : ∃ k', Run Step k [.start 0, exoforkCall.act 0] k' ∧
    Family K k' ∧ Scene k' (pair .notRunnable) parentOn [] := by
  obtain ⟨k1, hstart, hnear, hs⟩ := h.started
  obtain ⟨l, hl, hlen⟩ := h.room.near hnear
  obtain ⟨a, l, rfl⟩ : ∃ a t, l = a :: t := List.exists_cons_of_ne_nil (by
    rintro rfl
    simp at hlen)
  obtain ⟨m, hm⟩ := hl.setupVm_total
  have hlist : k1.envFreeList = some 1 := hnear.envFreeList.trans h.slots
  obtain ⟨k2, hfork, hlike, hs2⟩ := hs.sysExofork (q := exoforkCall) (c := 0) (e := 0) (t := 1) rfl
    (by simp) rfl hlist hm (fun b hb => by
      rcases eq_or_ne b 0 with rfl | hne
      · simp [parentOn] at hb
      · simp [parentOn, Function.update_of_ne hne] at hb)
  have hin := (hs.executes (c := 0) (e := 0) rfl (by simp)).entered exoforkCall.frame
  set k1' := k1.entered 0 0 exoforkCall.frame
  have hlist' : k1'.envFreeList = some 1 := hin.envFreeList.trans hlist
  have hm' : SetupVm k1'.phys a m := hin.phys.symm ▸ hm
  -- memory
  have hinv1 : MemInv K k1' := (h.inv.near hnear).near hin.near
  have hinv2 : MemInv K (k1'.exoforked 0 1 a m) := by
    unfold Kernel.exoforked
    exact ((hinv1.refl.allocated hlist' _ hm').setEnv rfl rfl).inv
  have hdirs2 : k2.dirs = Function.update k1.dirs 1 (some a) := by
    rw [hlike.near.dirs, dirs_exoforked, hin.near.dirs]
  have hphys2 : k2.phys = m := hlike.phys
  have hnone : k1.dirs 1 = none := by
    rw [hnear.dirs, Kernel.dirs, h.unused 1 (by decide)]
    rfl
  obtain ⟨l', hll, hl2, hent2, -, -⟩ := hl.setupVm hnone hm
  obtain ⟨-, rfl⟩ := List.cons.inj hll
  -- the two environments
  have h0 : ∃ tf runs st, k2.envs 0 =
      { k.envs 0 with envTf := tf, envRuns := runs, envStatus := st } := by
    obtain ⟨tf, runs, h2⟩ := hlike.envs 0
    obtain ⟨tf1, runs1, st, h1⟩ := (hnear.trans hin.near).envs 0
    exact ⟨tf, runs, st, by rw [h2, exoforked_envs_of_ne k1' 0 a m (by decide), h1]⟩
  have h1 : ∃ tf runs, k2.envs 1 =
      { (k1'.envs 1).fresh 1 (k1'.envs 0).envId a with
        envStatus := .notRunnable, envTf := tf, envRuns := runs } := by
    obtain ⟨tf, runs, h2⟩ := hlike.envs 1
    obtain ⟨_, hself⟩ := exoforked_envs_self k1' 0 1 a m
    exact ⟨tf, runs, by rw [h2, hself]⟩
  have hold : k1'.envs 1 = { k.envs 1 with
      envTf := (k1'.envs 1).envTf, envRuns := (k1'.envs 1).envRuns,
      envStatus := (k1'.envs 1).envStatus } := by
    obtain ⟨tf1, runs1, st, heq⟩ := (hnear.trans hin.near).envs 1
    rw [heq]
  have hid0 : (k1'.envs 0).envId = 0x1000 := by
    obtain ⟨tf1, runs1, st, heq⟩ := (hnear.trans hin.near).envs 0
    rw [heq]
    exact h.id
  obtain ⟨tf0, runs0, st0, h0⟩ := h0
  obtain ⟨tf1, runs1, h1⟩ := h1
  rw [h.unused 1 (by decide)] at hold
  refine ⟨k2, .cons hstart (.single hfork), ?_, hs2⟩
  exact
    { inv := hinv2.near hlike.near
      room := ⟨l, by rw [hdirs2, hphys2]; exact hl2, by rw [List.length_cons] at hlen; omega⟩
      id0 := by
        rw [h0]
        exact h.id
      id1 := by
        rw [h1, hold]
        exact show nextEnvId 0 1 = 0x1001 by decide
      parent0 := by
        rw [h0]
        exact h.parent
      parent1 := by
        rw [h1]
        exact hid0
      dir0 := by
        rw [h0]
        exact h.dir
      dir1 := by
        rw [h1]
        exact ⟨a, rfl⟩
      bare := by
        rw [hdirs2, hphys2]
        exact setupVm_bare hl hm
      waiting0 := by
        rw [h0]
        exact h.waiting
      waiting1 := by
        rw [h1, hold]
        exact ⟨rfl, rfl⟩
      upcall := by
        rw [h0]
        exact h.upcall
      stack := by
        obtain ⟨p, hp⟩ := h.stack
        refine ⟨p, ?_⟩
        rw [Kernel.mapped, hdirs2, hphys2, hent2, hnear.dirs, hnear.phys, hp, setEntry_self] }

/-! ## The child runs -/

/-- `sys_env_set_status(child, s)`. -/
def statusCall (s : Word) : Call := ⟨8, 0x1001, s, 0, 0, 0⟩

/-- `sys_env_destroy(child)`. -/
def destroyCall : Call := ⟨3, 0x1001, 0, 0, 0, 0⟩

/-- Slot 0 is on CPU 0, slot 1 on CPU 1. -/
def bothOn : Nat → Option Slot := Function.update parentOn 1 (some 1)

/-- The parent finds its child, whatever the child does. -/
theorem Family.finds (h : Family K k) (hs : k.status 1 ≠ .free) :
    envid2env k 0 0x1001 true = .ok 1 :=
  envid2env_of (by decide) (by decide) hs h.id1 fun _ _ => h.parent1.trans h.id0.symm

theorem pair_self (s : EnvStatus) : pair s 1 = s := Function.update_self ..

theorem pair_parent (s : EnvStatus) : pair s 0 = .running := by
  simp [pair]

theorem pair_runnable (f : Slot) : pair .runnable f = .runnable ↔ f = 1 := by
  rcases eq_or_ne f 1 with rfl | h1
  · simp [pair]
  · rcases eq_or_ne f 0 with rfl | h0
    · simp [pair]
    · simp [pair, h1, h0]

theorem pair_update (s s' : EnvStatus) : Function.update (pair s) 1 s' = pair s' :=
  Function.update_idem ..

/-- The parent sets the child's status. -/
theorem Family.setStatus {on : Nat → Option Slot} {hs : List Nat} {s s' : EnvStatus} {w : Word}
    (h : Family K k) (hsc : Scene k (pair s) on hs) (hon : on 0 = some 0) (hs1 : s ≠ .free)
    (harg : statusArg w = some s') :
    ∃ k', Step k ((statusCall w).act 0) k' ∧ Family K k' ∧ Scene k' (pair s') on hs := by
  have hst : k.status 1 ≠ .free := by
    rw [hsc.status, pair_self]
    exact hs1
  obtain ⟨k', hstep, hnear, hs'⟩ := hsc.sysEnvSetStatus (q := statusCall w) (t := 1) hon
    (pair_parent s) (by decide) rfl harg (h.finds hst)
  rw [pair_update] at hs'
  exact ⟨k', hstep, h.near hnear, hs'⟩

/-- A CPU picks the child. -/
theorem Family.startChild {on : Nat → Option Slot} {hs : List Nat} {c : Nat} (h : Family K k)
    (hsc : Scene k (pair .runnable) on hs) (hc : on c = none) (hh : c ∉ hs) :
    ∃ k', Step k (.start c) k' ∧ Family K k' ∧
      Scene k' (pair .running) (Function.update on c (some 1)) hs := by
  obtain ⟨d, hd⟩ := h.dir1
  obtain ⟨k', hstep, hnear, hs'⟩ := hsc.start hc hh pair_runnable hd
  rw [pair_update] at hs'
  exact ⟨k', hstep, h.near hnear, hs'⟩

/-- The parent destroys the child while it runs elsewhere, and then the zombie. -/
theorem Family.destroyTwice {hs : List Nat} (h : Family K k)
    (hsc : Scene k (pair .running) bothOn hs) :
    ∃ k1 k2 evs, Step k (destroyCall.act 0) k1 ∧ Scene k1 (pair .dying) bothOn hs ∧
      Step k1 (destroyCall.act 0) k2 ∧ k2.hist = evs ++ k1.hist ∧ .free 0 1 ∈ evs := by
  have hst : k.status 1 ≠ .free := by
    rw [hsc.status, pair_self]
    decide
  obtain ⟨k1, hstep, hnear, hs1⟩ := hsc.sysEnvDestroy (q := destroyCall) (c := 0)
    (t := 1) rfl
    (pair_parent .running) (by decide) rfl (pair_self .running) (h.finds hst)
  rw [pair_update] at hs1
  have h1 := h.near hnear
  obtain ⟨d, hd⟩ := h1.dir1
  obtain ⟨l, hl, -⟩ := h1.room
  obtain ⟨m, hm⟩ := hl.freeMem_bare (e := 1) (show k1.dirs 1 = some d from hd) h1.bare
  have hst1 : k1.status 1 ≠ .free := by
    rw [hs1.status, pair_self]
    decide
  obtain ⟨k2, evs, hstep2, hhist, hfree⟩ := hs1.sysEnvDestroy_zombie (q := destroyCall)
    (c := 0) (t := 1)
    rfl (pair_parent .dying) (by decide) rfl (pair_self .dying) (h1.finds hst1) hd hm
  exact ⟨k1, k2, evs, hstep, hs1, hstep2, hhist, hfree⟩

/-- A parent on CPU 0, its child on CPU 1. -/
theorem First.both (h : First K k) : ∃ k1 k2 k3,
    Run Step k [.start 0, exoforkCall.act 0] k1 ∧ Scene k1 (pair .notRunnable) parentOn [] ∧
      Step k1 ((statusCall 2).act 0) k2 ∧ Step k2 (.start 1) k3 ∧ Family K k3 ∧
      Scene k3 (pair .running) bothOn [] := by
  obtain ⟨k1, hrun, hf1, hs1⟩ := h.forked
  obtain ⟨k2, hset, hf2, hs2⟩ := hf1.setStatus hs1 rfl (by decide)
    (show statusArg 2 = some .runnable by decide)
  obtain ⟨k3, hstart, hf3, hs3⟩ := hf2.startChild (c := 1) hs2 rfl
    List.not_mem_nil
  exact ⟨k1, k2, k3, hrun, hs1, hset, hstart, hf3, hs3⟩

end

end SisOp.Jos
