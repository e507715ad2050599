/-
# `SisOp.Sched.Indexed` — the slot is in the id

`sched_yield` reads the index of `curenv` off its `env_id`.  In every state of every run the
ids of the environments in use, and of those a CPU still has as `curenv`, end in their slot.
-/
import SisOp.Runs.Envids
import SisOp.Startup.First

namespace SisOp.Jos

open SisOp.Lib

section

variable {k k' : Kernel} {c : Nat} {e f cur : Slot} {q : Call} {m : Phys}

theorem ENVX_nextEnvId (x : Word) (e : Slot) : ENVX (nextEnvId x e) = e := by
  have hmod : ∀ g : Word, g.toNat % 1024 = 0 → ENVX (g ||| BitVec.ofNat 32 e.val) = e := fun g hg => by
    have he := e.isLt
    apply Fin.ext
    change (g ||| BitVec.ofNat 32 e.val).toNat &&& (2 ^ 10 - 1) = e.val
    rw [Nat.and_two_pow_sub_one_eq_mod, toNat_or_slot g e hg]
    omega
  unfold nextEnvId
  dsimp only
  split
  · exact hmod _ (by decide)
  · exact hmod _ (by rw [toNat_and_not_mask]; omega)

/-- Every environment that is in use or current has its slot in its id. -/
structure Indexed (k : Kernel) : Prop where
  used : ∀ e, k.status e ≠ .free → ENVX (k.envs e).envId = e
  current : ∀ c e, k.curenv c = some e → ENVX (k.envs e).envId = e

namespace Indexed

theorem of_envs (hcur : ∀ d e, k'.curenv d = some e → ENVX (k.envs e).envId = e)
    (henvs : ∀ f, (k'.envs f).envId = (k.envs f).envId ∧
      (k'.status f ≠ .free → ENVX (k.envs f).envId = f)) : Indexed k' where
  used := fun e he => by
    rw [(henvs e).1]
    exact (henvs e).2 he
  current := fun d e hd => by
    rw [(henvs e).1]
    exact hcur d e hd

theorem update (h : Indexed k) {E : Env} (hcur : k'.curenv = k.curenv)
    (henvs : k'.envs = Function.update k.envs e E) (hid : E.envId = (k.envs e).envId)
    (hs : E.envStatus ≠ .free → ENVX (k.envs e).envId = e) : Indexed k' := by
  refine of_envs (k := k) (fun d f hd => h.current d f (by rwa [← hcur])) fun f => ?_
  rw [Kernel.status, henvs]
  rcases eq_or_ne f e with rfl | hne
  · rw [Function.update_self]
    exact ⟨hid, hs⟩
  · rw [Function.update_of_ne hne]
    exact ⟨rfl, h.used f⟩

/-- A change of a frame or a message field. -/
theorem frame (h : Indexed k) {E : Env} (hcur : k'.curenv = k.curenv)
    (henvs : k'.envs = Function.update k.envs e E) (hid : E.envId = (k.envs e).envId)
    (hs : E.envStatus = k.status e) : Indexed k' :=
  h.update hcur henvs hid fun hne => h.used e (hs ▸ hne)

/-- What `envid2env` finds. -/
theorem found (h : Indexed k) {envid : Word} {b : Bool} (hcur : k.curenv c = some cur)
    (hfind : envid2env k cur envid b = .ok e) : ENVX (k.envs e).envId = e := by
  rcases envid2env_ok.mp hfind with ⟨-, rfl⟩ | ⟨-, -, hs, -, -⟩
  · exact h.current c e hcur
  · exact h.used e hs

theorem freed (h : Indexed k) (c : Nat) (e : Slot) (m : Phys) : Indexed (k.freed c e m) :=
  h.update (Kernel.freed_curenv ..) (k.freed_envs c e m) rfl fun hs => absurd rfl hs

theorem setCur_none (h : Indexed k) (c : Nat) : Indexed (k.setCur c none) := by
  refine of_envs (k := k) (fun d e hd => ?_) fun f => ⟨rfl, h.used f⟩
  rw [Kernel.setCur_curenv] at hd
  rcases eq_or_ne d c with rfl | hne
  · rw [Function.update_self] at hd
    cases hd
  · rw [Function.update_of_ne hne] at hd
    exact h.current d e hd

theorem allocated (h : Indexed k) (e : Slot) (parentId : Word) (kva : Ppn) (m : Phys) :
    Indexed (k.allocated e parentId kva m) := by
  have hid : ∀ f, (f = e ∧ ((k.allocated e parentId kva m).envs f).envId =
      nextEnvId (k.envs e).envId e) ∨ (f ≠ e ∧ (k.allocated e parentId kva m).envs f = k.envs f) :=
    fun f => by
      rcases eq_or_ne f e with rfl | hne
      · exact Or.inl ⟨rfl, by simp [Kernel.allocated, Kernel.log, Env.fresh]⟩
      · exact Or.inr ⟨hne, by simp [Kernel.allocated, Kernel.log, Function.update_of_ne hne]⟩
  constructor
  · intro f hf
    rcases hid f with ⟨rfl, heq⟩ | ⟨-, heq⟩
    · rw [heq]
      exact ENVX_nextEnvId _ f
    · rw [Kernel.status, heq] at hf
      rw [heq]
      exact h.used f hf
  · intro d f hd
    rcases hid f with ⟨rfl, heq⟩ | ⟨-, heq⟩
    · rw [heq]
      exact ENVX_nextEnvId _ f
    · rw [heq]
      exact h.current d f hd

theorem ran (h : Indexed k) (hidx : ENVX (k.envs e).envId = e) (c : Nat) (pgdir : Ppn) :
    Indexed (k.ran c e pgdir) := by
  refine of_envs (k := k) (fun d f hd => ?_) fun f => ⟨?_, fun hf => ?_⟩
  · rw [Kernel.ran_curenv] at hd
    rcases eq_or_ne d c with rfl | hne
    · rw [Function.update_self] at hd
      exact Option.some.inj hd ▸ hidx
    · rw [Function.update_of_ne hne] at hd
      exact h.current d f hd
  · obtain ⟨st, runs, heq⟩ := k.ran_envs c e pgdir f
    rw [heq]
  · rcases eq_or_ne f e with rfl | hne
    · exact hidx
    · rcases k.ran_envs_of_ne c e pgdir hne with heq | ⟨hcur, -, -⟩
      · rw [Kernel.status, heq] at hf
        exact h.used f hf
      · exact h.current c f hcur

theorem rules (c : Nat) : EntryRules c Indexed Indexed where
  ran := fun _ e pgdir h he _ => by
    refine h.ran ?_ c pgdir
    rcases he with hs | ⟨hcur, -⟩
    · exact h.used e (by rw [hs]; decide)
    · exact h.current c e hcur
  halted := fun k h _ => by
    have hcur : (k.halt c).curenv = (k.setCur c none).curenv := by simp [Kernel.halt]
    exact ⟨(h.setCur_none c).used, fun d e hd => (h.setCur_none c).current d e (by rwa [← hcur])⟩

theorem destroyed (h : Indexed k) (hd : Destroyed k c e (.back () k')) : Indexed k' := by
  cases hd with
  | zombie hs => exact h.update rfl rfl rfl fun _ => h.used e (by rw [hs]; decide)
  | gone _ _ _ m => exact h.freed c e m

theorem syscall {o : Outcome Int} (h : Indexed k) (hcur : k.curenv c = some cur)
    (heff : SyscallEffect k c cur q o) : o.Ends Indexed Indexed := by
  have hsame : ∀ {k' : Kernel}, k'.curenv = k.curenv → k'.envs = k.envs → Indexed k' :=
    fun {k'} hcur' henvs => by
      refine of_envs (k := k) (fun d f hd => h.current d f (by rwa [← hcur'])) fun f => ?_
      rw [Kernel.status, henvs]
      exact ⟨rfl, h.used f⟩
  cases heff with
  | same r => exact h
  | print bytes => exact hsame rfl rfl
  | exit pgdir m k' _ _ hyield => exact (rules c).yield ((h.freed c cur m).setCur_none c) hyield
  | destroy e k' _ _ _ hd => exact h.destroyed hd
  | trapframe e k' tf _ _ hd =>
    rcases hd with rfl | ⟨-, -, hd⟩
    · exact h.frame rfl rfl rfl rfl
    · exact (h.destroyed hd).frame rfl rfl rfl rfl
  | exofork e r kva m =>
    have hnew := h.allocated e (k.envs cur).envId kva m
    refine hnew.update rfl rfl rfl fun _ => hnew.used e ?_
    simp [Kernel.status, Kernel.allocated, Kernel.log, Env.fresh]
  | setStatus e _ _ _ hfind => exact h.update rfl rfl rfl fun _ => h.found hcur hfind
  | upcall e => exact h.frame rfl rfl rfl rfl
  | pageAlloc r m => exact hsame rfl rfl
  | pageMap r m => exact hsame rfl rfl
  | pageUnmap r m => exact hsame rfl rfl
  | yield k' _ hyield => exact (rules c).yield h hyield
  | sendRefused => exact hsame rfl rfl
  | sendFailed e => exact h.frame rfl rfl rfl rfl
  | sent e _ _ _ hfind => exact h.update rfl rfl rfl fun _ => h.found hcur hfind
  | recv k' _ _ hyield =>
    have hrecv : Indexed (k.receiving cur q.a1) :=
      h.update rfl rfl rfl fun _ => h.current c cur hcur
    exact (rules c).yield hrecv hyield

theorem entered (h : Indexed k) (c : Nat) (cur : Slot) (tf : Trapframe) :
    Indexed (k.entered c cur tf) := by
  have hcur : (k.setCpuStatus c .started).curenv = k.curenv := Kernel.setCpuStatus_curenv ..
  have h1 : Indexed (k.setCpuStatus c .started) :=
    ⟨h.used, fun d e hd => h.current d e (by rwa [← hcur])⟩
  exact h1.frame rfl rfl rfl rfl

theorem started (h : Indexed k) (c : Nat) : Indexed (k.setCpuStatus c .started) := by
  have hcur : (k.setCpuStatus c .started).curenv = k.curenv := Kernel.setCpuStatus_curenv ..
  exact ⟨h.used, fun d e hd => h.current d e (by rwa [← hcur])⟩

theorem lcr3 (h : Indexed k) (c : Nat) (p : Ppn) : Indexed (k.lcr3 c p) := by
  have hcur : (k.lcr3 c p).curenv = k.curenv := Kernel.lcr3_curenv ..
  exact ⟨h.used, fun d e hd => h.current d e (by rwa [← hcur])⟩

theorem dispatched (h : Indexed k) {tf : Trapframe} {cr2 : Word} {key : Int} {o : Outcome Unit}
    (hcur : k.curenv c = some cur) (hd : Dispatched k c cur tf cr2 key o) :
    o.Ends Indexed Indexed := by
  refine (rules c).dispatched h hcur (fun m tf' pgdir _ _ _ _ => ?_)
    (fun pgdir m _ _ => (h.freed c cur m).setCur_none c) (fun o' _ heff => h.syscall hcur heff)
    (fun k1 r hk => hk.frame rfl rfl rfl rfl) hd
  have hset : Indexed ({ k with phys := m }.setEnv cur fun E => { E with envTf := tf' }) :=
    h.frame rfl rfl rfl rfl
  exact hset.ran (hset.current c cur hcur) c pgdir

theorem step {a : Action} (h : Indexed k) (hstep : Step k a k') : Indexed k' := by
  cases step_effect hstep with
  | start c _ _ hyield =>
    exact (rules c).yield ((h.started c).lcr3 c _) hyield
  | reap c tf cr2 key cur pgdir m _ _ _ _ _ hyield =>
    exact (rules c).yield (((h.started c).freed c cur m).setCur_none c) hyield
  | wake c tf cr2 key _ _ hback =>
    rcases hback with hyield | hback
    · exact (rules c).yield (h.started c) hyield
    · exact (rules c).trapReturn (h.started c) hback
  | store => exact ⟨h.used, h.current⟩
  | user c tf cr2 key cur o _ hmode _ hd hfinish =>
    have hcur : (k.entered c cur tf).curenv c = some cur := by
      simpa [Kernel.entered] using hmode.1
    exact (rules c).finish ((h.entered c cur tf).dispatched hcur hd) hfinish

theorem boot (h : Boot k) : Indexed k := by
  refine h.preserves (fun _ r _ => ?_) fun k elf type k' hk hcreate => ?_
  · refine ⟨fun e he => absurd ?_ he, fun c e hc => nomatch hc⟩
    rw [Kernel.status, kernelOf_envs]
    rfl
  · obtain ⟨e, kva, m, m', tf, -, -, -, rfl⟩ := envCreate_ok hcreate
    exact (hk.allocated e 0 kva m).frame rfl rfl rfl rfl

theorem run {k₀ : Kernel} {tr : List Action} (h₀ : Boot k₀) (h : Run Step k₀ tr k) : Indexed k :=
  h.preserves (I := Indexed) (fun _ _ _ hk hs => hk.step hs) (.boot h₀)

end Indexed

end

end SisOp.Jos
