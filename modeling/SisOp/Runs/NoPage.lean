/-
# `SisOp.Runs.NoPage` — a receiver that asks for no page

`sys_ipc_recv` with an address from `UTOP` on leaves `env_ipc_dstva` as it was, and the
field is below `UTOP` from the start and ever after (`DstLow.run`).  So whether such a
receiver gets a page depends on the sender alone.
-/
import SisOp.Jos.Deliver
import SisOp.Memory.Total
import SisOp.Runs.Fork

namespace SisOp.Jos

open SisOp.Lib

/-! ## The address of the last receive -/

/-- The argument of the last `sys_ipc_recv` of `e`. -/
def lastRecv (hist : List Event) (e : Slot) : Option Word :=
  hist.findSome? fun
    | .recv f dstva => if f = e then some dstva else none
    | _ => none

/-- `e` is blocked in `sys_ipc_recv` and has asked for no page. -/
structure WantsNoPage (k : Kernel) (e : Slot) : Prop where
  recving : (k.envs e).envIpcRecving = true
  asked : ∃ dstva, lastRecv k.hist e = some dstva ∧ UTOP ≤ dstva

/-- Every environment has an address below `UTOP` to receive at. -/
def DstLow (k : Kernel) : Prop := ∀ e, (k.envs e).envIpcDstva < UTOP

section

variable {k k' : Kernel} {c : Nat} {e cur : Slot} {q : Call} {m : Phys}

theorem DstLow.congr (h : DstLow k) (heq : ∀ f, (k'.envs f).envIpcDstva = (k.envs f).envIpcDstva) :
    DstLow k' := by
  intro f
  rw [heq]
  exact h f

theorem DstLow.update (h : DstLow k) {E : Env} (henvs : k'.envs = Function.update k.envs e E)
    (hE : E.envIpcDstva < UTOP) : DstLow k' := by
  intro f
  rw [henvs]
  rcases eq_or_ne f e with rfl | hne
  · rw [Function.update_self]
    exact hE
  · rw [Function.update_of_ne hne]
    exact h f

theorem DstLow.freed (h : DstLow k) (c : Nat) (e : Slot) (m : Phys) :
    DstLow ((k.freed c e m).setCur c none) :=
  h.update (k.freed_envs c e m) (h e)

theorem DstLow.allocated (h : DstLow k) (e : Slot) (parentId : Word) (kva : Ppn) (m : Phys) :
    DstLow (k.allocated e parentId kva m) :=
  h.update rfl (h e)

theorem DstLow.ran (h : DstLow k) (c : Nat) (e : Slot) (pgdir : Ppn) : DstLow (k.ran c e pgdir) :=
  h.congr fun f => by
    obtain ⟨st, runs, heq⟩ := k.ran_envs c e pgdir f
    rw [heq]

theorem DstLow.rules (c : Nat) : EntryRules c DstLow DstLow where
  ran := fun _ e pgdir h _ _ => h.ran c e pgdir
  halted := fun _ h _ => h

theorem DstLow.destroyed (h : DstLow k) (hd : Destroyed k c e (.back () k')) : DstLow k' := by
  cases hd with
  | zombie => exact h.update rfl (h e)
  | gone _ _ _ m => exact h.update (k.freed_envs c e m) (h e)

theorem DstLow.syscall {o : Outcome Int} (h : DstLow k) (heff : SyscallEffect k c cur q o) :
    o.Ends DstLow DstLow := by
  cases heff with
  | same r => exact h
  | print bytes => exact h
  | exit pgdir m k' _ _ hyield => exact (DstLow.rules c).yield (h.freed c cur m) hyield
  | destroy e k' _ _ _ hd => exact h.destroyed hd
  | trapframe e k' tf _ _ hd =>
    rcases hd with rfl | ⟨-, -, hd⟩
    · exact h.update rfl (h e)
    · exact (h.destroyed hd).update rfl (h.destroyed hd e)
  | exofork e r kva m =>
    have hnew := h.allocated e (k.envs cur).envId kva m
    exact hnew.update rfl (hnew e)
  | setStatus e => exact h.update rfl (h e)
  | upcall e => exact h.update rfl (h e)
  | pageAlloc r m => exact h
  | pageMap r m => exact h
  | pageUnmap r m => exact h
  | yield k' _ hyield => exact (DstLow.rules c).yield h hyield
  | sendRefused => exact h
  | sendFailed e => exact h.update rfl (h e)
  | sent e => exact h.update rfl (h e)
  | recv k' _ _ hyield =>
    have hlow : DstLow (k.receiving cur q.a1) := by
      refine h.update rfl ?_
      change (if q.a1 < UTOP then q.a1 else (k.envs cur).envIpcDstva) < UTOP
      by_cases hva : q.a1 < UTOP
      · rw [if_pos hva]
        exact hva
      · rw [if_neg hva]
        exact h cur
    exact (DstLow.rules c).yield hlow hyield

theorem DstLow.step {a : Action} (h : DstLow k) (hstep : Step k a k') : DstLow k' := by
  cases step_effect hstep with
  | start c _ _ hyield =>
    have hlow : DstLow ((k.setCpuStatus c .started).lcr3 c k.phys.kernPgdir) := h
    exact (DstLow.rules c).yield hlow hyield
  | reap c tf cr2 key cur pgdir m _ _ _ _ _ hyield =>
    have hlow : DstLow (k.setCpuStatus c .started) := h
    exact (DstLow.rules c).yield (hlow.freed c cur m) hyield
  | wake c tf cr2 key _ _ hback =>
    have hlow : DstLow (k.setCpuStatus c .started) := h
    rcases hback with hyield | hback
    · exact (DstLow.rules c).yield hlow hyield
    · exact (DstLow.rules c).trapReturn hlow hback
  | store => exact h
  | user c tf cr2 key cur o _ hmode _ hd hfinish =>
    have hin : DstLow (k.entered c cur tf) := h.update rfl (h cur)
    have hcur : (k.entered c cur tf).curenv c = some cur := by
      simpa [Kernel.entered] using hmode.1
    refine (DstLow.rules c).finish ((DstLow.rules c).dispatched hin hcur ?_ ?_ ?_ ?_ hd) hfinish
    · intro m tf' pgdir _ _ _ _
      have hset : DstLow ({ k.entered c cur tf with phys := m }.setEnv cur fun E =>
          { E with envTf := tf' }) := hin.update rfl (hin cur)
      exact hset.ran c cur pgdir
    · exact fun pgdir m _ _ => hin.freed c cur m
    · exact fun o' _ heff => hin.syscall heff
    · exact fun k1 r hk => hk.update rfl (hk cur)

theorem DstLow.boot (h : Boot k) : DstLow k := by
  refine h.preserves (fun hw r _ e => ?_) fun k elf type k' hk hcreate => ?_
  · rw [kernelOf_envs]
    exact show (0 : Word) < UTOP by decide
  · obtain ⟨e, kva, m, m', tf, -, -, -, rfl⟩ := envCreate_ok hcreate
    have hnew := hk.allocated e 0 kva m
    exact hnew.update rfl (hnew e)

theorem DstLow.run {k₀ : Kernel} {tr : List Action} (h₀ : Boot k₀) (h : Run Step k₀ tr k) : DstLow k :=
  h.preserves (I := DstLow) (fun _ _ _ hk hs => hk.step hs) (.boot h₀)

end

end SisOp.Jos
