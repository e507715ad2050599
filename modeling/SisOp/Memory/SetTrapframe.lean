/-
# `SisOp.Memory.SetTrapframe` — whose memory `sys_env_set_trapframe` reads

The call checks `tf` in the address space of its target `e` and reads it through the
one that is loaded, its caller's.  When the check fails `env_destroy(e)` is called; it
does not return if `e` is the caller, and otherwise the frame is read all the same.
-/
import SisOp.Memory.Cputs
import SisOp.Runs.Fork

namespace SisOp.Jos

open SisOp.Lib

/-! ## The property -/

/-- `tf` is `frame` for user mode: CPL 3, interrupts on, IOPL 0, the rest unchanged. -/
structure Trapframe.ForUser (frame tf : Trapframe) : Prop where
  cpl : tf.tfCs &&& 3 = 3
  intr : tf.tfEflags &&& FL_IF = FL_IF
  iopl : tf.tfEflags &&& FL_IOPL_MASK = 0
  cs : tf.tfCs ||| 3 = frame.tfCs ||| 3
  eflags : tf.tfEflags ||| (FL_IF ||| FL_IOPL_MASK) = frame.tfEflags ||| (FL_IF ||| FL_IOPL_MASK)
  rest : tf = { frame with tfCs := tf.tfCs, tfEflags := tf.tfEflags }

/-- An environment that is neither free nor on its way to be. -/
def Live (k : Kernel) (e : Slot) : Prop := k.status e ≠ .free ∧ k.status e ≠ .dying

/-- No trap frame of an environment has changed. -/
def SameFrames (k k' : Kernel) : Prop := ∀ f, (k'.envs f).envTf = (k.envs f).envTf

/-- `sys_env_set_trapframe(envid, tf)` reads only what its caller may read. -/
structure SetTrapframeOk (k : Kernel) (c : Nat) (cur : Slot) (envid tf : Word) : Prop where
  noFault : NoFault (sysEnvSetTrapframe k c cur envid tf)
  zero : ∀ k', sysEnvSetTrapframe k c cur envid tf = .ok (.back 0 k') → ∃ e bs frame,
    envid2env k cur envid true = .ok e ∧
      loadBytes k.phys (k.cpus c).cr3 (PTE_P ||| PTE_U) tf 68 = some bs ∧
      loadTrapframe k.phys (k.cpus c).cr3 tf = some frame ∧ Live k' e ∧
      frame.ForUser (k'.envs e).envTf
  failed : ∀ r k', sysEnvSetTrapframe k c cur envid tf = .ok (.back r k') → r ≠ 0 → SameFrames k k'
  left : ∀ k', sysEnvSetTrapframe k c cur envid tf = .ok (.away k') → SameFrames k k'

/-- When it does, for the target `e`: the check panics, or it passes in the target's address
space while the target lives and the frame is readable in the caller's, or it fails and the
target is the caller. -/
def TrapframeSafe (k : Kernel) (c : Nat) (cur e : Slot) (tf : Word) : Prop :=
  ∃ d, (k.envs e).envPgdir = some d ∧
    ((∃ msg, userMemAssert k c e tf 68 PTE_W = .error msg) ∨
      (userMemCheck k.phys d tf 68 (PTE_W ||| PTE_U) = .ok (0, none) ∧ Live k e ∧
        ∃ bs, loadBytes k.phys (k.cpus c).cr3 (PTE_P ||| PTE_U) tf 68 = some bs) ∨
      (userMemCheck k.phys d tf 68 (PTE_W ||| PTE_U) ≠ .ok (0, none) ∧ e = cur))

section

variable {k k' : Kernel} {c : Nat} {cur e : Slot} {envid tf : Word} {d : Ppn}

theorem or_and_self_right {w : Nat} (x f : BitVec w) : (x ||| f) &&& f = f := by
  ext i
  simp only [BitVec.getElem_or, BitVec.getElem_and]
  cases x[i] <;> cases f[i] <;> rfl

/-- The frame the call stores. -/
theorem Trapframe.forUser (frame : Trapframe) : frame.ForUser
    { frame with
      tfCs := frame.tfCs ||| 3
      tfEflags := (frame.tfEflags ||| FL_IF) &&& ~~~FL_IOPL_MASK } where
  cpl := or_and_self_right _ 3
  intr := by
    calc (frame.tfEflags ||| FL_IF) &&& ~~~FL_IOPL_MASK &&& FL_IF
        = (frame.tfEflags ||| FL_IF) &&& FL_IF &&& ~~~FL_IOPL_MASK := by
          rw [BitVec.and_assoc, BitVec.and_comm (~~~FL_IOPL_MASK), ← BitVec.and_assoc]
      _ = FL_IF &&& ~~~FL_IOPL_MASK := by rw [or_and_self_right]
      _ = FL_IF := by decide
  iopl := by
    rw [BitVec.and_assoc, BitVec.and_comm (~~~FL_IOPL_MASK)]
    simp
  cs := by
    rw [BitVec.or_assoc, BitVec.or_self]
  eflags := by
    ext i
    simp only [BitVec.getElem_or, BitVec.getElem_and, BitVec.getElem_not]
    cases frame.tfEflags[i] <;> cases FL_IF[i] <;> cases FL_IOPL_MASK[i] <;> rfl
  rest := rfl

/-! ## Frames stay where they are -/

theorem sameFrames_schedYield (h : schedYield k c = .ok k') : SameFrames k k' := by
  intro f
  cases schedYield_cases h with
  | picked e pgdir _ _ heq | again e pgdir _ _ _ heq =>
      obtain ⟨st, runs, hf⟩ := k.ran_envs c e pgdir f
      rw [heq, hf]
  | halted _ heq =>
      rw [heq]
      rfl

theorem sameFrames_freed (m : Phys) : SameFrames k (k.freed c e m) := by
  intro f
  rw [Kernel.freed_envs]
  rcases eq_or_ne f e with rfl | hne
  · rw [Function.update_self]
  · rw [Function.update_of_ne hne]

/-! ## The call -/

/-- What the call does with its target `e` once the check is over. -/
def storeFrame (k : Kernel) (c : Nat) (e : Slot) (tf : Word) : Except String (Outcome Int) :=
  match loadTrapframe k.phys (k.cpus c).cr3 tf with
  | none => .error "Kernel Page Fault"
  | some frame =>
      .ok (.back 0 (k.setEnv e fun E =>
        { E with envTf :=
            { frame with
              tfCs := frame.tfCs ||| 3
              tfEflags := (frame.tfEflags ||| FL_IF) &&& ~~~FL_IOPL_MASK } }))

theorem setTrapframe_back (hfind : envid2env k cur envid true = .ok e)
    (hassert : userMemAssert k c e tf 68 PTE_W = .ok (.back () k')) :
    sysEnvSetTrapframe k c cur envid tf = storeFrame k' c e tf := by
  simp only [sysEnvSetTrapframe, hfind, hassert]
  rfl

/-- With the check passed. -/
theorem setTrapframe_checked (hfind : envid2env k cur envid true = .ok e)
    (hassert : userMemAssert k c e tf 68 PTE_W = .ok (.back () k)) :
    SetTrapframeOk k c cur envid tf ↔ Live k e ∧
      ∃ bs, loadBytes k.phys (k.cpus c).cr3 (PTE_P ||| PTE_U) tf 68 = some bs := by
  have hcall := setTrapframe_back hfind hassert
  cases hload : loadTrapframe k.phys (k.cpus c).cr3 tf with
  | none =>
      have hfault : sysEnvSetTrapframe k c cur envid tf = .error "Kernel Page Fault" := by
        rw [hcall, storeFrame, hload]
      refine iff_of_false (fun h => h.noFault hfault) ?_
      rintro ⟨-, bs, hbs⟩
      rw [loadTrapframe, loadBytes_kernel hbs] at hload
      cases hload
  | some frame =>
      rw [storeFrame, hload] at hcall
      dsimp only at hcall
      constructor
      · intro h
        obtain ⟨e', bs, frame', hfind', hbs, -, hlive, -⟩ := h.zero _ hcall
        obtain rfl : e = e' := Except.ok.inj (hfind.symm.trans hfind')
        refine ⟨?_, bs, hbs⟩
        simpa [Live, Kernel.status] using hlive
      · rintro ⟨hlive, bs, hbs⟩
        refine ⟨hcall ▸ noFault_ok _, fun k' hk' => ?_, fun r k' hr h0 => ?_, fun k' hk' => ?_⟩
        · rw [hcall] at hk'
          cases hk'
          refine ⟨e, bs, frame, hfind, hbs, hload, ?_, ?_⟩
          · simpa [Live, Kernel.status] using hlive
          · simpa using frame.forUser
        · rw [hcall] at hr
          cases hr
          exact absurd rfl h0
        · rw [hcall] at hk'
          cases hk'

/-- When the check fails for another environment, `env_destroy` comes back and the call goes
on with a target that does not live. -/
theorem setTrapframe_foreign (hfind : envid2env k cur envid true = .ok e)
    (hassert : userMemAssert k c e tf 68 PTE_W = .ok (.back () k')) (hdead : ¬ Live k' e) :
    ¬ SetTrapframeOk k c cur envid tf := by
  intro h
  have hcall := setTrapframe_back hfind hassert
  cases hload : loadTrapframe k'.phys (k'.cpus c).cr3 tf with
  | none =>
      rw [storeFrame, hload] at hcall
      exact h.noFault hcall
  | some frame =>
      rw [storeFrame, hload] at hcall
      dsimp only at hcall
      obtain ⟨e', bs, frame', hfind', -, -, hlive, -⟩ := h.zero _ hcall
      obtain rfl : e = e' := Except.ok.inj (hfind.symm.trans hfind')
      exact hdead (by simpa [Live, Kernel.status] using hlive)

/-- A check that fails: `env_destroy(e)`. -/
theorem userMemAssert_fails {len perm : Word} (hdir : (k.envs e).envPgdir = some d)
    (hcheck : userMemCheck k.phys d tf len (perm ||| PTE_U) ≠ .ok (0, none)) {o : Outcome Unit}
    (hassert : userMemAssert k c e tf len perm = .ok o) : Destroyed k c e o := by
  obtain ⟨pgdir, r, x, hdir', hres, hend⟩ := userMemAssert_cases hassert
  obtain rfl : d = pgdir := Option.some.inj (hdir.symm.trans hdir')
  rcases hend with ⟨hr, -⟩ | ⟨-, hd⟩
  · rcases userMemCheck_result hres with rfl | rfl
    · rw [(userMemCheck_ok.mp hres).1] at hres
      exact absurd hres hcheck
    · exact absurd (by decide) hr
  · exact hd

/-- A panic that is not a page fault does no harm. -/
theorem setTrapframe_panic {msg : String} (hcall : sysEnvSetTrapframe k c cur envid tf = .error msg)
    (hno : NoFault (sysEnvSetTrapframe k c cur envid tf)) : SetTrapframeOk k c cur envid tf where
  noFault := hno
  zero := fun _ h => nomatch hcall.symm.trans h
  failed := fun _ _ h => nomatch hcall.symm.trans h
  left := fun _ h => nomatch hcall.symm.trans h

theorem setTrapframe_left (hcall : sysEnvSetTrapframe k c cur envid tf = .ok (.away k'))
    (hsame : SameFrames k k') : SetTrapframeOk k c cur envid tf where
  noFault := hcall ▸ noFault_ok _
  zero := fun _ h => nomatch hcall.symm.trans h
  failed := fun _ _ h => nomatch hcall.symm.trans h
  left := fun k'' h => by
    cases hcall.symm.trans h
    exact hsame

theorem setTrapframe_badEnv {r : Int} (hfind : envid2env k cur envid true = .error r) :
    SetTrapframeOk k c cur envid tf := by
  have hcall : sysEnvSetTrapframe k c cur envid tf = .ok (.back (-E_BAD_ENV) k) := by
    simp only [sysEnvSetTrapframe, hfind]
    rfl
  refine ⟨hcall ▸ noFault_ok _, fun k' h => ?_, fun r k' h _ => ?_, fun k' h => ?_⟩
  · exact absurd (Outcome.back.inj (Except.ok.inj (hcall.symm.trans h))).1 (by decide)
  · cases hcall.symm.trans h
    exact fun _ => rfl
  · cases hcall.symm.trans h

/-- A check that fails is harmless for the caller itself, and for nobody else. -/
theorem setTrapframe_refused (hcur : k.curenv c = some cur)
    (hfind : envid2env k cur envid true = .ok e) {o : Outcome Unit}
    (hassert : userMemAssert k c e tf 68 PTE_W = .ok o) (hd : Destroyed k c e o) :
    SetTrapframeOk k c cur envid tf ↔ e = cur := by
  cases hd with
  | zombie _ hother =>
      refine iff_of_false (setTrapframe_foreign hfind hassert ?_) fun heq => hother (heq ▸ hcur)
      simp [Live, Kernel.status]
  | gone _ hother pgdir m _ _ =>
      refine iff_of_false (setTrapframe_foreign hfind hassert ?_) fun heq => hother (heq ▸ hcur)
      simp [Live, Kernel.status]
  | left hself pgdir m k' _ _ hyield =>
      have hcall : sysEnvSetTrapframe k c cur envid tf = .ok (.away k') := by
        simp only [sysEnvSetTrapframe, hfind, hassert]
        rfl
      exact iff_of_true (setTrapframe_left hcall fun f =>
        (sameFrames_schedYield hyield f).trans (sameFrames_freed m f))
        (Option.some.inj (hself.symm.trans hcur))

/-- Exactly when `sys_env_set_trapframe` reads only what its caller may read. -/
theorem sysEnvSetTrapframe_reads_own (hcur : k.curenv c = some cur) :
    SetTrapframeOk k c cur envid tf ↔
      ∀ e, envid2env k cur envid true = .ok e → TrapframeSafe k c cur e tf := by
  cases hfind : envid2env k cur envid true with
  | error r =>
      refine iff_of_true (setTrapframe_badEnv hfind) fun e he => ?_
      cases he
  | ok e =>
      have hall : (∀ e', (.ok e : Except Int Slot) = .ok e' → TrapframeSafe k c cur e' tf) ↔
          TrapframeSafe k c cur e tf :=
        ⟨fun h => h e rfl, fun h e' he => Except.ok.inj he ▸ h⟩
      rw [hall]
      cases hdir : (k.envs e).envPgdir with
      | none =>
          have hcall : sysEnvSetTrapframe k c cur envid tf = .error "Kernel Page Fault" := by
            simp only [sysEnvSetTrapframe, hfind, userMemAssert, hdir]
            rfl
          refine iff_of_false (fun h => h.noFault hcall) ?_
          rintro ⟨d, hd, -⟩
          cases hdir.symm.trans hd
      | some d =>
          have hsafe : TrapframeSafe k c cur e tf ↔
              (∃ msg, userMemAssert k c e tf 68 PTE_W = .error msg) ∨
              (userMemCheck k.phys d tf 68 (PTE_W ||| PTE_U) = .ok (0, none) ∧ Live k e ∧
                ∃ bs, loadBytes k.phys (k.cpus c).cr3 (PTE_P ||| PTE_U) tf 68 = some bs) ∨
              (userMemCheck k.phys d tf 68 (PTE_W ||| PTE_U) ≠ .ok (0, none) ∧ e = cur) := by
            simp [TrapframeSafe, hdir]
          rw [hsafe]
          cases hassert : userMemAssert k c e tf 68 PTE_W with
          | error msg =>
              have hno : NoFault (userMemAssert k c e tf 68 PTE_W) := noFault_userMemAssert hdir
              have hcall : sysEnvSetTrapframe k c cur envid tf = .error msg := by
                simp only [sysEnvSetTrapframe, hfind, hassert]
                rfl
              rw [hassert] at hno
              refine iff_of_true (setTrapframe_panic hcall ?_) (Or.inl ⟨msg, rfl⟩)
              rw [hcall]
              exact fun h => hno (congrArg Except.error (Except.error.inj h))
          | ok o =>
              rw [or_iff_right fun h => by
                obtain ⟨msg, hmsg⟩ := h
                cases hmsg]
              by_cases hcheck : userMemCheck k.phys d tf 68 (PTE_W ||| PTE_U) = .ok (0, none)
              · have hback : userMemAssert k c e tf 68 PTE_W = .ok (.back () k) := by
                  simp only [userMemAssert, hdir]
                  rw [hcheck]
                  rfl
                rw [setTrapframe_checked hfind hback, or_iff_left fun h => h.1 hcheck,
                  and_iff_right hcheck]
              · rw [setTrapframe_refused hcur hfind hassert (userMemAssert_fails hdir hcheck hassert),
                  or_iff_right fun h => hcheck h.1, and_iff_right hcheck]

end

/-- A frame of zeros in the caller's own page. -/
theorem sysEnvSetTrapframe_reads_own_page : SetTrapframeOk edgeKernel 0 0 0 0x1000 := by
  refine (sysEnvSetTrapframe_reads_own rfl).mpr fun e he => ?_
  obtain rfl : 0 = e := Except.ok.inj he
  refine ⟨1, rfl, Or.inr (Or.inl ⟨?_, ⟨by decide, by decide⟩, List.replicate 68 0, by decide⟩)⟩
  refine userMemCheck_ok.mpr ⟨rfl, fun p hp hle hlt => ?_⟩
  have hle' : 4096 ≤ p.toNat := hle
  have hlt' : p.toNat < 8192 := hlt
  obtain rfl : p = 0x1000 := BitVec.eq_of_toNat_eq (by show p.toNat = 4096; omega)
  refine ⟨by decide, (2, 1), ?_, by decide⟩
  rw [pgdirWalk_look, if_pos (by decide), if_neg (by decide)]
  rfl

/-- `sys_env_set_trapframe(child, stackVa)`. -/
def trapframeCall : Call := ⟨9, 0x1001, stackVa, 0, 0, 0⟩

/-- A parent hands its child, which runs on another CPU and has nothing mapped, a frame on its
own stack: the child is destroyed, and the call returns 0 or faults. -/
theorem sysEnvSetTrapframe_reads_other : ¬ ∀ (k₀ k : Kernel) (as : List Action) (c : Nat)
    (cur : Slot) (q : Call), Boot k₀ → Run Step k₀ as k → UserMode k c cur →
    SetTrapframeOk (k.entered c cur q.frame) c cur q.a1 q.a2 := by
  intro hall
  obtain ⟨K, k₀, h⟩ := first_exists
  obtain ⟨k1, k2, k, hrun, -, hset, hstart, hfam, hs⟩ := h.both
  have hex := hs.executes (c := 0) (e := 0) rfl (pair_parent .running)
  have hok := hall k₀ k _ 0 0 trapframeCall h.boot ((hrun.snoc hset).snoc hstart) hex.mode
  have hin := hex.entered trapframeCall.frame
  have hsin := hs.like hin
  have hfam1 := hfam.near hin.near
  generalize k.entered 0 0 trapframeCall.frame = k1 at hok hsin hfam1
  have hfind : envid2env k1 0 0x1001 true = .ok 1 := hfam1.finds (by
    rw [hsin.status, pair_self]
    decide)
  obtain ⟨d, hd⟩ := hfam1.dir1
  have hpde : ¬ PTE_VALID (k1.phys.mem d (PDX (ROUNDDOWN stackVa PGSIZE))) := fun hv => by
    have hnone := hfam1.bare (PDX (ROUNDDOWN stackVa PGSIZE))
    rw [tableOf_some.mpr ⟨by decide, d, hd, hv, rfl⟩] at hnone
    cases hnone
  have hlt : ROUNDDOWN stackVa PGSIZE < ROUNDUP (stackVa + 68) PGSIZE := by decide
  obtain ⟨x, hcheck⟩ := userMemCheck_unmapped (PTE_W ||| PTE_U) hpde hlt
  have hassert : userMemAssert k1 0 1 stackVa 68 PTE_W =
      .ok (.back () (k1.setEnv 1 fun E => { E with envStatus := .dying })) := by
    have hrunning : (k1.envs 1).envStatus = .running :=
      (congrFun hsin.status 1).trans (pair_self .running)
    have hother : k1.curenv 0 ≠ some 1 := by
      rw [hsin.curenv]
      decide
    simp only [userMemAssert, hd]
    rw [hcheck]
    show envDestroy k1 0 1 = _
    rw [envDestroy, if_pos ⟨hrunning, hother⟩]
    rfl
  refine setTrapframe_foreign hfind hassert ?_ hok
  simp [Live, Kernel.status]

end SisOp.Jos
