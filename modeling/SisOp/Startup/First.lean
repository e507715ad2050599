/-
# `SisOp.Startup.First` — the machine that has booted

Every state in which a machine starts to run environments meets the memory
invariant (`MemInv.boot`): the free list `mem_init` leaves is as `Ledger` wants
it, the pages that are not on it are the kernel's, and `env_create` works through
`page_insert` like the system calls.
-/
import SisOp.Startup.Exposed
import SisOp.Memory.Inv

namespace SisOp.Jos

open SisOp.Lib

section

variable {S l : List Ppn} {K : Ppn → Prop} {dirs : Slot → Option Ppn} {m m' : Phys} {e : Slot}
  {d : Ppn} {va len : Word} {k k' : Kernel}

/-! ## After `mem_init` -/

/-- Without environments nothing is referred to. -/
theorem target_none (m : Phys) (r : Ref) : target (fun _ => none) m r = none := by
  cases r <;> simp [target, tableOf, entry]

theorem uses_none (m : Phys) (p : Ppn) : uses (fun _ => none) m [] p = 0 :=
  total_eq_zero.mpr ⟨fun r => by rw [target_none]; nofun, List.not_mem_nil⟩

/-- The kernel keeps what is not on the free list. -/
theorem Booting.ledger (h : Booting S [] l m) : Ledger (· ∉ l) (fun _ => none) [] l m where
  kern := h.kern
  blank := h.blank
  upper := fun _ _ _ hd => nomatch hd
  shield := fun i hi hu hv => by
    obtain ⟨h1, -, -, h2⟩ := h.table i _ (kernTable_some.mpr ⟨hu, hv, rfl⟩)
    exact ⟨h1, h2⟩
  pool :=
    { chain := h.chain
      off := h.off
      fixed := fun p hp => ⟨hp, uses_none m p⟩
      free := fun p _ => uses_none m p
      count := fun p hp => by
        rw [h.unref p (not_not.mp hp), show total (target (fun _ => none) m) [] p = 0 from uses_none m p]
        rfl
      sole := fun r p _ hr => by
        rw [target_none] at hr
        cases hr }
  bound := fun p hp => by
    rw [uses_none] at hp
    exact h.bound p (hp.resolve_right (lt_irrefl 0))

theorem Booting.sound (h : Booting S [] l m) : Sound (· ∉ l) (fun _ => none) m :=
  ⟨⟨l, h.ledger⟩, fun p => by rw [uses_none]; decide⟩

theorem kernelOf_dirs (m : Phys) : (kernelOf m).dirs = fun _ => none := by
  funext e
  rw [Kernel.dirs, kernelOf_envs]
  rfl

theorem Booting.memInv (h : Booting S [] l m) : MemInv (· ∉ l) (kernelOf m) where
  sound := by
    rw [kernelOf_dirs]
    exact h.sound
  slots := ⟨List.finRange 1024, envInit_chain, fun e _ => by rw [kernelOf_dirs]⟩

/-! ## Loading a program -/

/-- The loop of `region_alloc` below `UTOP`. -/
theorem Sound.regionAllocLoop (hd : dirs e = some d) (n : Nat) : ∀ {m m' : Phys} {va : Word},
    Sound K dirs m → va.toNat + n * 4096 ≤ UTOP.toNat → regionAllocLoop d n m va = .ok m' →
    Sound K dirs m' := by
  induction n with
  | zero =>
      intro m m' va h _ hloop
      cases hloop
      exact h
  | succ n ih =>
      intro m m' va h hle hloop
      rw [UTOP_toNat] at hle
      simp only [SisOp.Jos.regionAllocLoop, bind_eq_ok] at hloop
      obtain ⟨⟨p, m1⟩, halloc, hloop⟩ := hloop
      cases p with
      | none => cases hloop
      | some p =>
          simp only [bind_eq_ok] at hloop
          obtain ⟨⟨r, m2⟩, hins, hloop⟩ := hloop
          simp only at hloop
          split at hloop
          · cases hloop
          · rename_i hr
            have hi : UserPdx (PDX va) := by
              rw [userPdx_iff, BitVec.lt_def, UTOP_toNat]
              omega
            have h2 := (h.insert_new hd hi (by decide) halloc ⟨m2, hins, by rw [if_neg hr]⟩).sound
            cases n with
            | zero =>
                cases hloop
                exact h2
            | succ n =>
                refine ih h2 ?_ hloop
                rw [BitVec.toNat_add, PGSIZE_toNat, UTOP_toNat]
                omega

theorem Sound.regionAlloc (h : Sound K dirs m) (hd : dirs e = some d)
    (hle : va.toNat + len.toNat ≤ USTACKTOP.toNat) (hregion : regionAlloc m d va len = .ok m') :
    Sound K dirs m' := by
  unfold SisOp.Jos.regionAlloc at hregion
  split at hregion
  · cases hregion
    exact h
  · refine h.regionAllocLoop hd _ ?_ hregion
    rw [show USTACKTOP.toNat = 4005552128 from rfl] at hle
    rw [ROUNDDOWN_PGSIZE, ROUNDUP_PGSIZE, BitVec.toNat_add, UTOP_toNat]
    omega

theorem Sound.loadSegment {ph : Segment} (h : Sound K dirs m) (hd : dirs e = some d)
    (hload : loadSegment d m ph = .ok m') : Sound K dirs m' := by
  simp only [SisOp.Jos.loadSegment, bind_eq_ok] at hload
  obtain ⟨m1, hregion, hload⟩ := hload
  have h1 := h.regionAlloc hd ph.userFits hregion
  split at hload
  · cases hload
  · rename_i m2 hstore
    cases hload
    obtain ⟨l, hl⟩ := h1.ledger
    have hlen : (ph.bytes ++ List.replicate (ph.memsz.toNat - ph.bytes.length) 0).length =
        ph.memsz.toNat := by
      have hfits := ph.fileFits
      rw [List.length_append, List.length_replicate]
      omega
    have hle := ph.userFits
    rw [show USTACKTOP.toNat = 4005552128 from rfl] at hle
    exact ((Ledger.storeBytes hd (by decide) _ hl (by rw [hlen, UTOP_toNat]; omega)
      hstore).changed h1.narrow e).sound

theorem Sound.loadIcode {elf : Elf} (h : Sound K dirs m) (hd : dirs e = some d)
    (hload : loadIcode m d elf = .ok m') : Sound K dirs m' := by
  simp only [SisOp.Jos.loadIcode, bind_eq_ok] at hload
  obtain ⟨m1, hsegs, hstack⟩ := hload
  have h1 : Sound K dirs m1 :=
    foldlM_preserves (fun _ _ _ hm hload => hm.loadSegment hd hload) hsegs h
  exact h1.regionAlloc hd (by decide) hstack

theorem MemInv.envCreate {elf : Elf} {type : EnvType} (h : MemInv K k)
    (hcreate : envCreate k elf type = .ok k') : MemInv K k' := by
  obtain ⟨e, kva, m, m', tf, hlist, hsetup, hload, rfl⟩ := envCreate_ok hcreate
  have halloc := (h.refl.allocated hlist 0 hsetup).inv
  have hd : (k.allocated e 0 kva m).dirs e = some kva := by
    rw [dirs_allocated, Function.update_self]
  have hloaded : MemInv K { k.allocated e 0 kva m with phys := m' } :=
    ⟨halloc.sound.loadIcode hd hload, halloc.slots⟩
  exact (hloaded.refl.setEnv rfl rfl).inv

/-- Every machine that has booted meets the memory invariant. -/
theorem MemInv.boot (h : Boot k) : ∃ K, MemInv K k := by
  refine h.preserves (P := fun k => ∃ K, MemInv K k) (fun hw r hr => ?_) fun k elf type k' hk hc => ?_
  · obtain ⟨ep, l, hl, -⟩ := memInit_state hr
    exact ⟨_, hl.memInv⟩
  · obtain ⟨K, hK⟩ := hk
    exact ⟨K, hK.envCreate hc⟩

end

end SisOp.Jos
