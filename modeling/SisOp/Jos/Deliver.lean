/-
# `SisOp.Jos.Deliver` — when a message goes through

`sys_ipc_try_send` to a waiting environment fails only if it carries a page that
`sys_page_map` refuses.  `Deliverable` says that it does not, in terms of the
checks of `sys_page_map` and of what `pgdir_walk` finds; a send that returned 0
was deliverable (`deliverable_of_sent`).
-/
import SisOp.Jos.Effects

namespace SisOp.Jos

/-! ## When a message is delivered -/

/-- A page transfer to `e` that reaches `page_insert` and finds a page table for it. -/
def Transferable (k : Kernel) (cur e : Slot) (q : Call) : Prop :=
  ∃ srcdir dstdir page pte,
    MapChecked k cur 0 q.a3 q.a1 (k.envs e).envIpcDstva q.a4 e srcdir dstdir page pte ∧
      (PTE_VALID (k.phys.load (dstdir, PDX (k.envs e).envIpcDstva)) ∨
        k.phys.pageFreeList ≠ none)

/-- The send `q` of `cur` to the waiting `e` goes through: it carries no page, or one that
can be mapped. -/
def Deliverable (k : Kernel) (cur e : Slot) (q : Call) : Prop :=
  q.a3 < UTOP → (k.envs e).envIpcDstva < UTOP → Transferable k cur e q

/-- A walk that creates fails only without a table and without a free page. -/
theorem pgdirWalk_none {m m' : Phys} {pgdir : Ppn} {va : Word}
    (h : pgdirWalk m pgdir va true = .ok (none, m')) :
    ¬ PTE_VALID (m.load (pgdir, PDX va)) ∧ m.pageFreeList = none ∧ m' = m := by
  unfold pgdirWalk at h
  by_cases hv : PTE_VALID (m.load (pgdir, PDX va))
  · simp only [hv, not_true_eq_false, if_false, bind_eq_ok] at h
    obtain ⟨p, -, h⟩ := h
    cases h
  · simp only [hv, not_false_eq_true, if_true, not_true_eq_false, if_false, bind_eq_ok] at h
    obtain ⟨⟨p, m1⟩, halloc, h⟩ := h
    cases p with
    | some p =>
        simp only [bind_eq_ok] at h
        obtain ⟨kva, -, h⟩ := h
        cases h
    | none =>
        cases h
        unfold pageAlloc at halloc
        split at halloc
        · rename_i hnone
          cases halloc
          exact ⟨hv, hnone, rfl⟩
        · simp only [if_true, bind_eq_ok] at halloc
          obtain ⟨kva, -, halloc⟩ := halloc
          cases halloc

/-- `page_insert` returns 0, or `-E_NO_MEM` having done nothing. -/
theorem pageInsert_ret {m m' : Phys} {pgdir pp : Ppn} {va perm : Word} {r : Int}
    (h : pageInsert m pgdir pp va perm = .ok (r, m')) :
    (r = -E_NO_MEM ∧ m' = m ∧ m.pageFreeList = none ∧ ¬ PTE_VALID (m.load (pgdir, PDX va))) ∨
      r = 0 := by
  simp only [pageInsert, bind_eq_ok] at h
  obtain ⟨⟨pte, m1⟩, hwalk, h⟩ := h
  cases pte with
  | none =>
      cases h
      obtain ⟨hv, hnone, rfl⟩ := pgdirWalk_none hwalk
      exact Or.inl ⟨rfl, rfl, hnone, hv⟩
  | some pte =>
      simp only at h
      split at h <;>
        · simp only [bind_eq_ok] at h
          obtain ⟨m2, -, h⟩ := h
          cases h
          exact Or.inr rfl

/-- Only ids, parents and statuses matter to `envid2env`. -/
theorem envid2env_congr {k k' : Kernel} {cur : Slot}
    (h : ∀ e, k'.status e = k.status e ∧ (k'.envs e).envId = (k.envs e).envId ∧
      (k'.envs e).envParentId = (k.envs e).envParentId) (envid : Word) (checkperm : Bool) :
    envid2env k' cur envid checkperm = envid2env k cur envid checkperm := by
  have hs : (k'.envs (ENVX envid)).envStatus = (k.envs (ENVX envid)).envStatus :=
    (h (ENVX envid)).1
  simp only [envid2env, hs, (h (ENVX envid)).2.1, (h (ENVX envid)).2.2, (h cur).2.1]

theorem clearPerm_envs (k : Kernel) (e f : Slot) :
    (k.clearPerm e).status f = k.status f ∧ ((k.clearPerm e).envs f).envId = (k.envs f).envId ∧
      ((k.clearPerm e).envs f).envParentId = (k.envs f).envParentId ∧
      ((k.clearPerm e).envs f).envPgdir = (k.envs f).envPgdir := by
  rcases eq_or_ne f e with rfl | hf
  · simp [Kernel.clearPerm, Kernel.status]
  · simp [Kernel.clearPerm, Kernel.status, Function.update_of_ne hf]

/-- `env_ipc_perm = 0` is not seen by the checks of `sys_page_map`. -/
theorem mapChecked_clearPerm {k : Kernel} {cur e dstenv : Slot}
    {srcenvid srcva dstenvid dstva perm : Word} {srcdir dstdir page : Ppn} {pte : PtePtr} :
    MapChecked (k.clearPerm e) cur srcenvid srcva dstenvid dstva perm dstenv srcdir dstdir page
        pte ↔
      MapChecked k cur srcenvid srcva dstenvid dstva perm dstenv srcdir dstdir page pte := by
  have henv : ∀ envid b, envid2env (k.clearPerm e) cur envid b = envid2env k cur envid b :=
    fun envid b => envid2env_congr (fun f => ⟨(clearPerm_envs k e f).1, (clearPerm_envs k e f).2.1,
      (clearPerm_envs k e f).2.2.1⟩) envid b
  constructor
  · rintro ⟨hp, hs, hd, ⟨srcenv, hsrc, hsrcdir⟩, hlook, hw, hdst, hdstdir⟩
    rw [henv] at hsrc hdst
    rw [(clearPerm_envs k e _).2.2.2] at hsrcdir hdstdir
    exact ⟨hp, hs, hd, ⟨srcenv, hsrc, hsrcdir⟩, hlook, hw, hdst, hdstdir⟩
  · rintro ⟨hp, hs, hd, ⟨srcenv, hsrc, hsrcdir⟩, hlook, hw, hdst, hdstdir⟩
    rw [← henv] at hsrc hdst
    rw [← (clearPerm_envs k e _).2.2.2] at hsrcdir hdstdir
    exact ⟨hp, hs, hd, ⟨srcenv, hsrc, hsrcdir⟩, hlook, hw, hdst, hdstdir⟩

/-- A send that returned 0 was deliverable. -/
theorem deliverable_of_sent {k : Kernel} {cur e : Slot} {q : Call} {page : Bool} {m : Phys}
    (hfind : envid2env k cur q.a1 false = .ok e)
    (hpage : page = decide (q.a3 < UTOP ∧ (k.envs e).envIpcDstva < UTOP))
    (hmap : if page then
        sysPageMap (k.clearPerm e) cur 0 q.a3 q.a1 (k.envs e).envIpcDstva q.a4 =
          .ok (0, { k.clearPerm e with phys := m })
      else m = k.phys) : Deliverable k cur e q := by
  intro hsrc hdst
  have htrue : page = true := by simp [hpage, hsrc, hdst]
  rw [htrue, if_pos rfl] at hmap
  rcases sysPageMap_cases hmap with ⟨hneg, -⟩ | ⟨dstenv, srcdir, dstdir, pg, pte, m1, hch, hins, -⟩
  · exact absurd hneg (by decide)
  · rw [mapChecked_clearPerm] at hch
    obtain rfl : e = dstenv := Except.ok.inj (hfind.symm.trans hch.dst)
    refine ⟨srcdir, dstdir, pg, pte, hch, ?_⟩
    obtain ⟨m2, hins, -⟩ := hins
    by_contra hno
    obtain ⟨hv, hlist⟩ := not_or.mp hno
    -- without a table and without a free page the insertion returns `-E_NO_MEM`
    have hwalk : pgdirWalk k.phys dstdir (k.envs e).envIpcDstva true = .ok (none, k.phys) := by
      simp [pgdirWalk, hv, pageAlloc, not_not.mp hlist, bind, Except.bind, pure, Except.pure]
    have hret : pageInsert k.phys dstdir pg (k.envs e).envIpcDstva (q.a4 ||| PTE_P ||| PTE_U) =
        .ok (-E_NO_MEM, k.phys) := by
      simp [pageInsert, hwalk, bind, Except.bind, pure, Except.pure]
    have hins' : pageInsert k.phys dstdir pg (k.envs e).envIpcDstva (q.a4 ||| PTE_P ||| PTE_U) =
        .ok (0, m2) := hins
    rw [hret] at hins'
    cases hins'

end SisOp.Jos
