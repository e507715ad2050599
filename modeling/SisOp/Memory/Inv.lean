/-
# `SisOp.Memory.Inv` — the memory invariant along a run

`MemKept K k₀ k` carries two things from the state `k₀` in which a kernel entry
began: the invariant (`MemInv`), and what the entry did to writable mappings
(`handed`).  The calls are cases on `Changed`; a step of the machine is
`MemKept.step`, under the condition that no counter wraps and that the CPU has the
directory of its own environment loaded (`MemGuard`).
-/
import SisOp.Memory.Calls
import SisOp.Jos.Boot

namespace SisOp.Jos

open SisOp.Lib

/-- `env_pgdir` of every slot. -/
def Kernel.dirs (k : Kernel) (e : Slot) : Option Ppn := (k.envs e).envPgdir

/-- What slot `e` has mapped below `UTOP`. -/
abbrev Kernel.mapped (k : Kernel) (e : Slot) : Idx → Idx → Option Word := entry k.dirs k.phys e

/-- Some environment has `p` mapped writable. -/
abbrev Kernel.Writable (k : Kernel) (p : Ppn) : Prop := WritableIn k.dirs k.phys p

structure MemInv (K : Ppn → Prop) (k : Kernel) : Prop where
  sound : Sound K k.dirs k.phys
  slots : ∃ l, Chain (fun e => (k.envs e).envLink) k.envFreeList l ∧ ∀ e ∈ l, k.dirs e = none

/-- The invariant of `k`, and how it came from `k₀`. -/
structure MemKept (K : Ppn → Prop) (k₀ k : Kernel) : Prop where
  inv : MemInv K k
  handed : ∃ hs, k.phys.handed = hs ++ k₀.phys.handed ∧
    ∀ p, p ∉ hs → k.Writable p → k₀.Writable p

/-! ## The guard -/

/-- The page `e` has mapped at `va` can be mapped once more. -/
def Kernel.Unsaturated (k : Kernel) (e : Slot) (va : Word) : Prop :=
  ∀ w, k.mapped e (PDX va) (PTX va) = some w → (k.phys.pages (PGNUM w)).ppRef ≠ 0xFFFF

/-- The call does not map a page whose `pp_ref` is 65535 already. -/
def Call.NoWrap (q : Call) (k : Kernel) (cur : Slot) : Prop :=
  match q.op with
  | some .pageMap => ∀ e, envid2env k cur q.a1 false = .ok e → k.Unsaturated e q.a2
  | some .ipcTrySend => k.Unsaturated cur q.a3
  | _ => True

/-- CPU `c` has the directory of its current environment loaded. -/
def Kernel.Loaded (k : Kernel) (c : Nat) : Prop :=
  ∀ e, k.curenv c = some e → k.dirs e = some (k.cpus c).cr3

/-- The condition on a step: calls do not make a counter wrap, and what is written through the
loaded directory is written by the environment it belongs to. -/
def MemGuard (k : Kernel) : Action → Prop
  | .start _ => True
  | .trap c tf _ _ =>
      (∀ cur, UserMode k c cur → tf.tfTrapno = T_SYSCALL → tf.call.NoWrap k cur) ∧
      (tf.tfTrapno = T_PGFLT → k.Loaded c)
  | .store c _ _ => k.Loaded c

section

variable {K : Ppn → Prop} {k₀ k k' : Kernel} {c : Nat} {cur e : Slot} {q : Call} {m : Phys} {r : Int}

/-! ## Changes of one kind -/

theorem dirs_setEnv {g : Env → Env} (hg : (g (k.envs e)).envPgdir = (k.envs e).envPgdir) :
    (k.setEnv e g).dirs = k.dirs := by
  funext f
  rcases eq_or_ne f e with rfl | hne
  · simp [Kernel.dirs, hg]
  · simp [Kernel.dirs, Function.update_of_ne hne]

theorem MemInv.refl (h : MemInv K k) : MemKept K k k :=
  ⟨h, [], rfl, fun _ _ => id⟩

/-- A change that concerns neither memory nor directories nor the free list. -/
theorem MemKept.congr (h : MemKept K k₀ k) (hphys : k'.phys = k.phys) (hdirs : k'.dirs = k.dirs)
    (hlist : k'.envFreeList = k.envFreeList)
    (hlink : ∀ e, (k'.envs e).envLink = (k.envs e).envLink) : MemKept K k₀ k' := by
  obtain ⟨l, hl, hnone⟩ := h.inv.slots
  refine ⟨⟨?_, l, ?_, fun e he => ?_⟩, ?_⟩
  · rw [hphys, hdirs]
    exact h.inv.sound
  · rw [hlist]
    exact hl.congr fun e _ => hlink e
  · rw [hdirs]
    exact hnone e he
  · simp only [Kernel.Writable, hphys, hdirs]
    exact h.handed

theorem MemKept.setEnv (h : MemKept K k₀ k) {g : Env → Env}
    (hdir : (g (k.envs e)).envPgdir = (k.envs e).envPgdir)
    (hlink : (g (k.envs e)).envLink = (k.envs e).envLink) : MemKept K k₀ (k.setEnv e g) :=
  h.congr rfl (dirs_setEnv hdir) rfl fun f => by
    rcases eq_or_ne f e with rfl | hne
    · simp [hlink]
    · simp [Function.update_of_ne hne]

theorem MemKept.log (h : MemKept K k₀ k) (ev : Event) : MemKept K k₀ (k.log ev) :=
  h.congr rfl rfl rfl fun _ => rfl

/-- What a call did to memory is added to what happened before. -/
theorem MemKept.widen (h : MemKept K k₀ k) (hc : Changed K k.dirs k.phys e k'.dirs k'.phys) :
    ∃ hs, k'.phys.handed = hs ++ k₀.phys.handed ∧
      ∀ p, p ∉ hs → k'.Writable p → k₀.Writable p := by
  obtain ⟨hs, heq, hwide⟩ := h.handed
  obtain ⟨hs', heq', hwide'⟩ := hc.handed
  refine ⟨hs' ++ hs, by rw [heq', heq, List.append_assoc], fun p hp hwr => ?_⟩
  obtain ⟨hp', hp⟩ := not_or.mp fun hor => hp (List.mem_append.mpr hor)
  exact hwide p hp (hwide' p hp' hwr)

theorem MemKept.phys (h : MemKept K k₀ k) (hc : Changed K k.dirs k.phys e k.dirs m) :
    MemKept K k₀ { k with phys := m } where
  inv := ⟨hc.sound, h.inv.slots⟩
  handed := h.widen hc

theorem dirs_freed (k : Kernel) (c : Nat) (e : Slot) (m : Phys) :
    (k.freed c e m).dirs = Function.update k.dirs e none := by
  funext f
  rcases eq_or_ne f e with rfl | hne
  · simp [Kernel.dirs]
  · simp [Kernel.dirs, Function.update_of_ne hne]

theorem MemKept.freed (h : MemKept K k₀ k) (c : Nat) {pgdir : Ppn}
    (hdir : (k.envs e).envPgdir = some pgdir) (hm : freeMem k.phys pgdir = .ok m) :
    MemKept K k₀ (k.freed c e m) := by
  have hd : k.dirs e = some pgdir := hdir
  have hc := h.inv.sound.freeMem hd hm
  rw [← dirs_freed k c e m, ← Kernel.freed_phys k c e m] at hc
  obtain ⟨l, hl, hnone⟩ := h.inv.slots
  have hel : e ∉ l := fun hmem => by
    have hnone' := hnone e hmem
    rw [Kernel.dirs, hdir] at hnone'
    cases hnone'
  refine ⟨⟨hc.sound, e :: l, ?_, fun f hf => ?_⟩, h.widen hc⟩
  · have hpush := hl.push hel
    rw [Kernel.freed_envFreeList]
    refine hpush.congr fun f _ => ?_
    rcases eq_or_ne f e with rfl | hne
    · simp
    · simp [Function.update_of_ne hne]
  · rw [dirs_freed]
    rcases eq_or_ne f e with rfl | hne
    · simp
    · rw [Function.update_of_ne hne]
      exact hnone f ((List.mem_cons.mp hf).resolve_left hne)

theorem dirs_allocated (k : Kernel) (e : Slot) (parentId : Word) (kva : Ppn) (m : Phys) :
    (k.allocated e parentId kva m).dirs = Function.update k.dirs e (some kva) := by
  funext f
  rcases eq_or_ne f e with rfl | hne
  · simp [Kernel.dirs, Kernel.allocated, Env.fresh, Kernel.log]
  · simp [Kernel.dirs, Kernel.allocated, Kernel.log, Function.update_of_ne hne]

theorem MemKept.allocated (h : MemKept K k₀ k) (hlist : k.envFreeList = some e) (parentId : Word)
    {kva : Ppn} (hm : SetupVm k.phys kva m) : MemKept K k₀ (k.allocated e parentId kva m) := by
  obtain ⟨l, hl, hnone⟩ := h.inv.slots
  rw [hlist] at hl
  obtain ⟨t, rfl, ht⟩ := hl.of_some
  have het : e ∉ t := (List.nodup_cons.mp hl.nodup).1
  have hc := h.inv.sound.setupVm (hnone e List.mem_cons_self) hm
  rw [← dirs_allocated k e parentId kva m] at hc
  refine ⟨⟨hc.sound, t, ?_, fun f hf => ?_⟩, h.widen hc⟩
  · refine ht.congr fun f hf => ?_
    have hne : f ≠ e := fun heq => het (heq ▸ hf)
    simp [Kernel.allocated, Kernel.log, Function.update_of_ne hne]
  · have hne : f ≠ e := fun heq => het (heq ▸ hf)
    rw [dirs_allocated, Function.update_of_ne hne]
    exact hnone f (List.mem_cons_of_mem _ hf)

/-! ## Leaving the kernel -/

theorem MemKept.ran (h : MemKept K k₀ k) (c : Nat) (e : Slot) (pgdir : Ppn) :
    MemKept K k₀ (k.ran c e pgdir) := by
  refine h.congr (k.ran_phys c e pgdir) ?_ (k.ran_envFreeList c e pgdir) fun f => ?_
  · funext f
    obtain ⟨st, runs, heq⟩ := k.ran_envs c e pgdir f
    rw [Kernel.dirs, Kernel.dirs, heq]
  · obtain ⟨st, runs, heq⟩ := k.ran_envs c e pgdir f
    rw [heq]

theorem MemKept.rules (K : Ppn → Prop) (k₀ : Kernel) (c : Nat) :
    EntryRules c (MemKept K k₀) (MemKept K k₀) where
  ran := fun _ e pgdir h _ _ => h.ran c e pgdir
  halted := fun _ h _ => h.congr rfl rfl rfl fun _ => rfl

/-! ## The page calls -/

theorem VaOk.user {va : Word} (h : VaOk va) : UserPdx (PDX va) := by
  rw [userPdx_iff]
  exact BitVec.not_le.mp (not_or.mp h).1

/-- `sys_page_map` maps what the source has mapped, or changes nothing. -/
theorem Sound.sysPageMap {srcenvid srcva dstenvid dstva perm : Word}
    (h : Sound K k.dirs k.phys)
    (hwrap : ∀ s, envid2env k cur srcenvid false = .ok s → k.Unsaturated s srcva)
    (hcall : sysPageMap k cur srcenvid srcva dstenvid dstva perm = .ok (r, { k with phys := m })) :
    (r < 0 ∧ m = k.phys) ∨ ∃ e w, r = 0 ∧ envid2env k cur dstenvid false = .ok e ∧ VaOk dstva ∧
      Changed K k.dirs k.phys e k.dirs m ∧
      entry k.dirs m = setEntry (entry k.dirs k.phys) e (PDX dstva) (PTX dstva) (some w) := by
  rcases sysPageMap_cases hcall with ⟨hr, heq⟩ | ⟨e, srcdir, dstdir, page, pte, m', hck, hins, heq⟩
  · exact Or.inl ⟨hr, congrArg Kernel.phys heq⟩
  · obtain rfl : m = m' := congrArg Kernel.phys heq
    obtain ⟨s, hsrc, hsrcdir⟩ := hck.src
    have hsdir : k.dirs s = some srcdir := hsrcdir
    have hddir : k.dirs e = some dstdir := hck.dstdir
    rcases pageLookup_cases hsdir hck.srcvaOk.user hck.look with
      ⟨hnone, -⟩ | ⟨t, w, hsome, -, hw, hmem⟩
    · cases hnone
    · cases hsome
      obtain ⟨hr, hc, hs, -, -, hent⟩ := h.insert_mapped hddir
        hck.dstvaOk.user (flagsOnly_or_PU hck.permOk.flagsOnly) hw (hwrap s hsrc w hw)
        (fun hwr => hmem ▸ hck.write ((writable_or_PU perm).mp hwr)) hins
      exact Or.inr ⟨e, _, hr, hck.dst, hck.dstvaOk, hc, hent⟩

theorem Sound.sysPageAlloc {envid va perm : Word} (h : Sound K k.dirs k.phys)
    (hcall : sysPageAlloc k cur envid va perm = .ok (r, { k with phys := m })) :
    m = k.phys ∨ ∃ e, envid2env k cur envid false = .ok e ∧ Changed K k.dirs k.phys e k.dirs m := by
  rcases sysPageAlloc_cases hcall with
    ⟨-, heq⟩ | ⟨e, pgdir, page, m1, m', hperm, hva, hfind, hdir, halloc, hins, heq⟩
  · exact Or.inl (congrArg Kernel.phys heq)
  · obtain rfl : m = m' := congrArg Kernel.phys heq
    have hd : k.dirs e = some pgdir := hdir
    exact Or.inr ⟨e, hfind, h.insert_new hd hva.user hperm.flagsOnly halloc hins⟩

theorem Sound.sysPageUnmap {envid va : Word} (h : Sound K k.dirs k.phys)
    (hcall : sysPageUnmap k cur envid va = .ok (r, { k with phys := m })) :
    m = k.phys ∨ ∃ e, envid2env k cur envid false = .ok e ∧ Changed K k.dirs k.phys e k.dirs m := by
  rcases sysPageUnmap_cases hcall with ⟨-, heq⟩ | ⟨e, pgdir, m', -, hva, hfind, hdir, hrem, heq⟩
  · exact Or.inl (congrArg Kernel.phys heq)
  · obtain rfl : m = m' := congrArg Kernel.phys heq
    have hd : k.dirs e = some pgdir := hdir
    exact Or.inr ⟨e, hfind, h.remove hd hva.user hrem⟩

/-! ## System calls -/

theorem MemKept.setCur (h : MemKept K k₀ k) (c : Nat) (x : Option Slot) :
    MemKept K k₀ (k.setCur c x) :=
  h.congr rfl rfl rfl fun _ => rfl

theorem MemKept.destroyed (h : MemKept K k₀ k) (hd : Destroyed k c e (.back () k')) :
    MemKept K k₀ k' := by
  cases hd with
  | zombie => exact h.setEnv rfl rfl
  | gone _ _ pgdir m hdir hm => exact h.freed c hdir hm

theorem MemKept.sysPageMap {s va d dva perm : Word} (h : MemKept K k₀ k)
    (hwrap : ∀ f, envid2env k cur s false = .ok f → k.Unsaturated f va)
    (hcall : sysPageMap k cur s va d dva perm = .ok (r, { k with phys := m })) :
    MemKept K k₀ { k with phys := m } := by
  rcases h.inv.sound.sysPageMap hwrap hcall with ⟨-, rfl⟩ | ⟨e, w, -, -, -, hc, -⟩
  · exact h
  · exact h.phys hc

/-- The caller of `sys_ipc_try_send` names itself as the source. -/
theorem MemKept.transfer {va d dva perm : Word} {f : Slot} (h : MemKept K k₀ k)
    (hwrap : k.Unsaturated cur va)
    (hcall : SisOp.Jos.sysPageMap (k.clearPerm f) cur 0 va d dva perm =
      .ok (r, { k.clearPerm f with phys := m })) :
    MemKept K k₀ { k with phys := m } := by
  have hclear : MemKept K k₀ (k.clearPerm f) := h.setEnv rfl rfl
  have hdirs : (k.clearPerm f).dirs = k.dirs := dirs_setEnv rfl
  have hmoved := hclear.sysPageMap (fun e he => ?_) hcall
  · refine hmoved.congr rfl hdirs.symm rfl fun e => ?_
    rcases eq_or_ne e f with rfl | hne
    · simp [Kernel.clearPerm]
    · simp [Kernel.clearPerm, Function.update_of_ne hne]
  · obtain rfl : cur = e := by simpa [envid2env] using he
    rw [Kernel.Unsaturated, Kernel.mapped, hdirs]
    exact hwrap

theorem MemKept.syscall {o : Outcome Int} (h : MemKept K k₀ k) (hwrap : q.NoWrap k cur)
    (heff : SyscallEffect k c cur q o) : o.Ends (MemKept K k₀) (MemKept K k₀) := by
  have hrules := MemKept.rules K k₀ c
  cases heff with
  | same r => exact h
  | print bytes hop => exact h.log _
  | exit pgdir m k' hdir hm hyield => exact hrules.yield ((h.freed c hdir hm).setCur c none) hyield
  | destroy e k' hop hperm hne hd => exact h.destroyed hd
  | trapframe e k' tf hop hperm hd =>
      rcases hd with rfl | ⟨-, -, hd⟩
      · exact h.setEnv rfl rfl
      · exact (h.destroyed hd).setEnv rfl rfl
  | exofork e r kva m hop hlist hm =>
      have halloc := h.allocated hlist (k.envs cur).envId hm
      show MemKept K k₀ (k.exoforked cur e kva m)
      unfold Kernel.exoforked
      exact halloc.setEnv rfl rfl
  | setStatus e st hop harg hperm => exact h.setEnv rfl rfl
  | upcall e hop hfind => exact h.setEnv rfl rfl
  | pageAlloc r m hop hcall =>
      rcases h.inv.sound.sysPageAlloc hcall with rfl | ⟨e, -, hc⟩
      · exact h
      · exact h.phys hc
  | pageMap r m hop hcall =>
      rw [Call.NoWrap, hop] at hwrap
      exact h.sysPageMap hwrap hcall
  | pageUnmap r m hop hcall =>
      rcases h.inv.sound.sysPageUnmap hcall with rfl | ⟨e, -, hc⟩
      · exact h
      · exact h.phys hc
  | yield k' hop hyield => exact hrules.yield h hyield
  | sendRefused e hop hfind hrecv => exact h.log _
  | sendFailed e r m hop hfind hrecv hpage hr hmap =>
      rw [Call.NoWrap, hop] at hwrap
      have hclear : MemKept K k₀ (Kernel.clearPerm { k with phys := m } e) :=
        (h.transfer hwrap hmap).setEnv rfl rfl
      exact hclear.log _
  | sent e page m hop hfind hrecv hpage hmap =>
      rw [Call.NoWrap, hop] at hwrap
      have hmoved : MemKept K k₀ { k with phys := m } := by
        split at hmap
        · exact h.transfer hwrap hmap
        · rw [hmap]
          exact h
      exact (hmoved.setEnv rfl rfl).log _
  | recv k' hop hva hyield => exact hrules.yield ((h.setEnv rfl rfl).log _) hyield

/-! ## Steps -/

/-- The states of a call and of the trap it is made with name the same environments. -/
theorem envid2env_entered {tf : Trapframe} {envid : Word} {checkperm : Bool} :
    envid2env (k.entered c cur tf) cur envid checkperm = envid2env k cur envid checkperm := by
  refine envid2env_congr (fun e => ?_) envid checkperm
  rcases eq_or_ne e cur with rfl | hne
  · simp [Kernel.entered, Kernel.status]
  · simp [Kernel.entered, Kernel.status, Function.update_of_ne hne]

theorem dirs_entered {tf : Trapframe} : (k.entered c cur tf).dirs = k.dirs :=
  dirs_setEnv (k := k.setCpuStatus c .started) rfl

theorem Call.NoWrap.entered {tf : Trapframe} (h : q.NoWrap k cur) :
    q.NoWrap (k.entered c cur tf) cur := by
  unfold Call.NoWrap at h ⊢
  split
  · rename_i hop
    rw [hop] at h
    intro e he
    rw [Kernel.Unsaturated, Kernel.mapped, dirs_entered]
    exact h e (envid2env_entered ▸ he)
  · rename_i hop
    rw [hop] at h
    rw [Kernel.Unsaturated, Kernel.mapped, dirs_entered]
    exact h
  · trivial

/-- The frame of a page fault is pushed below `UTOP`. -/
theorem utfTop_le (esp : Word) :
    (utfTop esp - UTF_SIZE).toNat + 56 = (utfTop esp).toNat ∧ (utfTop esp).toNat ≤ UTOP.toNat := by
  unfold utfTop
  split
  · rename_i h
    obtain ⟨h1, h2⟩ := h
    rw [BitVec.lt_def] at h1
    rw [BitVec.le_def] at h2
    rw [BitVec.toNat_sub]
    have hx : UXSTACKTOP.toNat = 4005560320 := rfl
    have hy : (UXSTACKTOP - PGSIZE).toNat = 4005556224 := rfl
    have hz : UTF_SIZE.toNat = 56 := rfl
    rw [UTOP_toNat]
    omega
  · exact ⟨rfl, le_rfl⟩

theorem MemKept.started (h : MemKept K k₀ k) (c : Nat) :
    MemKept K k₀ (k.setCpuStatus c .started) :=
  h.congr rfl rfl rfl fun _ => rfl

theorem MemKept.step {a : Action} (h : MemInv K k) (hguard : MemGuard k a) (hstep : Step k a k') :
    MemKept K k k' := by
  have h0 := h.refl
  obtain ⟨l, hl⟩ := h.sound.ledger
  cases step_effect hstep with
  | start c _ hcur hyield =>
      have hin : MemKept K k ((k.setCpuStatus c .started).lcr3 c k.phys.kernPgdir) :=
        h0.congr rfl rfl rfl fun _ => rfl
      exact (MemKept.rules K k c).yield hin hyield
  | reap c tf cr2 key cur pgdir m _ hmode hstatus hdir hm hyield =>
      exact (MemKept.rules K k c).yield (((h0.started c).freed c hdir hm).setCur c none) hyield
  | wake c tf cr2 key _ hhalted hback =>
      rcases hback with hyield | hback
      · exact (MemKept.rules K k c).yield (h0.started c) hyield
      · exact (MemKept.rules K k c).trapReturn (h0.started c) hback
  | store c va b cur m hmode hstore =>
      have hpoked := hl.storeByte (hguard cur hmode.1) (by decide) (Or.inr rfl)
        hstore
      exact h0.phys (hpoked.changed h.sound.narrow cur)
  | user c tf cr2 key cur o _ hmode hstatus hd hfinish =>
      obtain ⟨hwrap, hloaded⟩ := hguard
      have hin : MemKept K k (k.entered c cur tf) := (h0.started c).setEnv rfl rfl
      have hcur : (k.entered c cur tf).curenv c = some cur := by
        simpa [Kernel.entered] using hmode.1
      have hcr3 : ((k.entered c cur tf).cpus c).cr3 = (k.cpus c).cr3 := by
        simp [Kernel.entered, Kernel.setCpuStatus]
      refine (MemKept.rules K k c).finish ((MemKept.rules K k c).dispatched hin hcur ?_ ?_ ?_ ?_ hd)
        hfinish
      · intro m tf' pgdir htrap _ hstore _
        obtain ⟨hle, htop⟩ := utfTop_le ((k.entered c cur tf).envs cur).envTf.tfEsp
        rw [hcr3] at hstore
        have hlen : ((utrapframe cr2 ((k.entered c cur tf).envs cur).envTf).flatMap
            wordBytes).length = 52 := rfl
        have hpoked := Ledger.storeBytes (hloaded htrap cur hmode.1) (by decide) _
          hl (by omega) hstore
        have hchanged := hpoked.changed h.sound.narrow cur
        rw [← dirs_entered (c := c)] at hchanged
        exact ((hin.phys hchanged).setEnv rfl rfl).ran c cur pgdir
      · intro pgdir m hdir hm
        exact (hin.freed c hdir hm).setCur c none
      · intro o' htrap heff
        exact hin.syscall (hwrap cur hmode htrap).entered heff
      · intro k1 r hk
        exact hk.setEnv rfl rfl

end

end SisOp.Jos
