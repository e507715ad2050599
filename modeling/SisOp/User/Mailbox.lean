/-
# `SisOp.User.Mailbox` — the message fields of an environment

`sys_ipc_recv` and `sys_ipc_try_send` work on the `env_ipc_*` fields of a
`struct Env`.  A `Mailbox` is these fields, with the page the last message mapped;
`Send` is what a send can do to it.  `sysIpcTrySend_send` and `sysIpcRecv_recv` tie
both to the system calls of `SisOp.Jos.Syscall`.
-/
import SisOp.Jos.Effects

namespace SisOp.User

open SisOp.Jos

variable {α : Type}

structure Mailbox (α : Type) where
  recving : Bool
  dstva : Word
  value : Word
  sender : Word
  perm : Word
  /-- The page the last message brought. -/
  mapped : Option α

/-- The arguments of `sys_ipc_try_send`, with the sender; `page` is the page at `srcva`, if that is
below `UTOP`. -/
structure Msg (α : Type) where
  sender : Word
  value : Word
  page : Option α
  perm : Word

namespace Mailbox

/-- `sys_ipc_recv(dstva)`. -/
def recv (b : Mailbox α) (dstva : Word) : Mailbox α :=
  { b with dstva := if dstva < UTOP then dstva else b.dstva, recving := true }

/-- The message arrives. -/
def deliver (b : Mailbox α) (m : Msg α) (mapped : Option α) : Mailbox α where
  recving := false
  dstva := b.dstva
  value := m.value
  sender := m.sender
  perm := if mapped.isSome then m.perm else 0
  mapped := mapped

/-- What `sys_ipc_try_send` can do, and return. -/
inductive Send (b : Mailbox α) (m : Msg α) : Int → Mailbox α → Prop
  | refused (h : b.recving = false) : Send b m (-E_IPC_NOT_RECV) b
  /-- `sys_page_map` fails. -/
  | failed (r : Int) (h : b.recving = true) (hpage : m.page.isSome ∧ b.dstva < UTOP) (hr : r ≠ 0) :
      Send b m r { b with perm := 0 }
  | plain (h : b.recving = true) (hpage : ¬ (m.page.isSome ∧ b.dstva < UTOP)) :
      Send b m 0 (b.deliver m none)
  | page (p : α) (h : b.recving = true) (hp : m.page = some p) (hdst : b.dstva < UTOP) :
      Send b m 0 (b.deliver m (some p))

end Mailbox

/-! ## The system calls -/

def Mailbox.ofEnv (E : Env) (mapped : Option α) : Mailbox α :=
  ⟨E.envIpcRecving, E.envIpcDstva, E.envIpcValue, E.envIpcFrom, E.envIpcPerm, mapped⟩

variable {k k' : Kernel} {c : Nat} {cur e : Slot} {q : Call}

/-- `sys_ipc_try_send` does to the fields of its target what `Send` says. -/
theorem sysIpcTrySend_send {r : Int} (page : α) (old : Option α)
    (hfind : envid2env k cur q.a1 false = .ok e)
    (h : sysIpcTrySend k cur q.a1 q.a2 q.a3 q.a4 = .ok (r, k')) :
    ∃ mapped, Mailbox.Send (.ofEnv (k.envs e) old)
      ⟨(k.envs cur).envId, q.a2, if q.a3 < UTOP then some page else none, q.a4⟩ r
      (.ofEnv (k'.envs e) mapped) := by
  unfold sysIpcTrySend at h
  rw [hfind] at h
  simp only at h
  by_cases hrecv : (k.envs e).envIpcRecving = true
  · rw [if_neg (not_not.mpr hrecv)] at h
    simp only [Kernel.setEnv_envs, Function.update_self] at h
    by_cases hpage : q.a3 < UTOP ∧ (k.envs e).envIpcDstva < UTOP
    · simp only [hpage, and_self, decide_true, if_true, bind_eq_ok] at h
      obtain ⟨⟨r1, k1⟩, hmap, h⟩ := h
      obtain ⟨m, rfl⟩ := sysPageMap_phys hmap
      by_cases hr : r1 = 0
      · subst hr
        simp only [ne_eq, not_true_eq_false, if_false] at h
        cases h
        have hsend := Mailbox.Send.page (b := Mailbox.ofEnv (k.envs e) old)
          (m := ⟨(k.envs cur).envId, q.a2, if q.a3 < UTOP then some page else none, q.a4⟩)
          page hrecv (by simp [hpage.1]) hpage.2
        refine ⟨some page, ?_⟩
        rcases eq_or_ne cur e with rfl | hne
        · simpa [Mailbox.ofEnv, Mailbox.deliver] using hsend
        · simpa [Mailbox.ofEnv, Mailbox.deliver, hne] using hsend
      · rw [if_pos hr] at h
        cases h
        have hsend := Mailbox.Send.failed (b := Mailbox.ofEnv (k.envs e) old)
          (m := ⟨(k.envs cur).envId, q.a2, if q.a3 < UTOP then some page else none, q.a4⟩)
          r1 hrecv (by simp [hpage, Mailbox.ofEnv]) hr
        exact ⟨old, by simpa [Mailbox.ofEnv] using hsend⟩
    · simp only [hpage, decide_false, Bool.false_eq_true, if_false, bind_eq_ok] at h
      obtain ⟨⟨r1, k1⟩, hmap, h⟩ := h
      cases hmap
      simp only [ne_eq, not_true_eq_false, if_false] at h
      cases h
      have hsend := Mailbox.Send.plain (b := Mailbox.ofEnv (k.envs e) old)
        (m := ⟨(k.envs cur).envId, q.a2, if q.a3 < UTOP then some page else none, q.a4⟩)
        hrecv (by simpa [Mailbox.ofEnv] using hpage)
      refine ⟨none, ?_⟩
      rcases eq_or_ne cur e with rfl | hne
      · simpa [Mailbox.ofEnv, Mailbox.deliver] using hsend
      · simpa [Mailbox.ofEnv, Mailbox.deliver, hne] using hsend
  · rw [if_pos hrecv] at h
    cases h
    exact ⟨old, .refused (Bool.eq_false_iff.mpr hrecv)⟩

/-- `sched_yield` leaves the fields of every environment. -/
theorem schedYield_ofEnv (mapped : Option α) (h : schedYield k c = .ok k') (f : Slot) :
    Mailbox.ofEnv (k'.envs f) mapped = .ofEnv (k.envs f) mapped := by
  have hran : ∀ e pgdir, Mailbox.ofEnv ((k.ran c e pgdir).envs f) mapped =
      .ofEnv (k.envs f) mapped := by
    intro e pgdir
    obtain ⟨st, runs, henv⟩ := k.ran_envs c e pgdir f
    rw [henv]
    rfl
  cases schedYield_cases h with
  | picked e pgdir _ _ heq => rw [heq, hran]
  | again e pgdir _ _ _ heq => rw [heq, hran]
  | halted _ heq => rw [heq]; rfl

/-- `sys_ipc_recv` does what `recv` says, whatever `sched_yield` runs next. -/
theorem sysIpcRecv_recv (mapped : Option α) (h : sysIpcRecv k c cur q.a1 = .ok (.away k')) :
    Mailbox.ofEnv (k'.envs cur) mapped = (Mailbox.ofEnv (k.envs cur) mapped).recv q.a1 := by
  unfold sysIpcRecv at h
  split at h
  · cases h
  · simp only [bind_eq_ok] at h
    obtain ⟨k1, hyield, h⟩ := h
    cases h
    rw [schedYield_ofEnv mapped hyield]
    by_cases hd : q.a1 < UTOP <;> simp [Mailbox.ofEnv, Mailbox.recv, hd]

end SisOp.User
