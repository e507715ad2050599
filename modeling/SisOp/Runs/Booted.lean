/-
# `SisOp.Runs.Booted` — a machine with one environment

The machine with 8 MB and one program without segments: what `i386_init` leaves on
it, as far as the runs that follow need to know (`First`).
-/
import SisOp.Startup.First
import SisOp.Memory.Total

namespace SisOp.Jos

open SisOp.Lib

/-- Where the user stack is. -/
def stackVa : Word := USTACKTOP - PGSIZE

/-- Memory with the invariant and at least `n` free pages. -/
def Roomy (K : Ppn → Prop) (n : Nat) (k : Kernel) : Prop :=
  ∃ l, Ledger K k.dirs [] l k.phys ∧ n ≤ l.length

/-- One environment, in slot 0, that has its stack and nothing else. -/
structure First (K : Ppn → Prop) (k : Kernel) : Prop where
  boot : Boot k
  inv : MemInv K k
  room : Roomy K 900 k
  status : k.status = Function.update (fun _ => .free) 0 .runnable
  curenv : k.curenv = fun _ => none
  awake : ∀ c, (k.cpus c).cpuStatus ≠ .halted
  id : (k.envs 0).envId = 0x1000
  parent : (k.envs 0).envParentId = 0
  unused : ∀ e, e ≠ 0 → k.envs e = { Env.zero with envLink := nextSlot e }
  slots : k.envFreeList = some 1
  waiting : (k.envs 0).envIpcRecving = false ∧ (k.envs 0).envIpcDstva = 0
  upcall : (k.envs 0).envPgfaultUpcall = 0
  dir : ∃ d, (k.envs 0).envPgdir = some d
  shared : ∃ i, ¬ UserPdx i ∧ i ≠ PDX UVPT ∧ PTE_VALID (k.phys.mem k.phys.kernPgdir i) ∧
    Writable (k.phys.mem k.phys.kernPgdir i)
  stack : ∃ p, entry k.dirs k.phys = setEntry (fun _ _ _ => none) 0 (PDX stackVa) (PTX stackVa)
    (some (mkPte p (PTE_W ||| PTE_U)))

section

variable {K : Ppn → Prop} {dirs : Slot → Option Ppn} {l : List Ppn} {m m' : Phys} {e : Slot}
  {d : Ppn} {k : Kernel}

/-- `region_alloc` of the stack page. -/
theorem stack_total (h : Ledger K dirs [] l m) (hd : dirs e = some d) (hlen : 2 ≤ l.length)
    (hnone : entry dirs m e (PDX stackVa) (PTX stackVa) = none) :
    ∃ p l' m', regionAlloc m d stackVa PGSIZE = .ok m' ∧ Ledger K dirs [] l' m' ∧
      l.length ≤ l'.length + 2 ∧ m'.mem m'.kernPgdir = m.mem m.kernPgdir ∧ entry dirs m' = setEntry (entry dirs m) e (PDX stackVa) (PTX stackVa)
        (some (mkPte p (PTE_W ||| PTE_U))) := by
  obtain ⟨p, l1, rfl⟩ : ∃ p l1, l = p :: l1 := List.exists_cons_of_ne_nil (by
    rintro rfl
    simp at hlen)
  obtain ⟨m1, m2, l2, halloc, hins, hmapped⟩ := h.map_total false hd
    (show UserPdx (PDX stackVa) by decide) hnone (fun _ hl => by simp [hl] at hlen)
    (show FlagsOnly (PTE_W ||| PTE_U) by decide)
  refine ⟨p, l2, m2, ?_, hmapped.ledger, ?_, hmapped.kernPgdir, hmapped.entries⟩
  · have hloop : regionAllocLoop d 1 m stackVa = .ok m2 :=
      bind_eq_ok.mpr ⟨_, halloc, bind_eq_ok.mpr ⟨_, hins, rfl⟩⟩
    exact hloop
  · obtain ⟨hs, htaken⟩ := hmapped.taken
    have hsplit := congrArg List.length htaken.split
    have hone := htaken.one
    rw [List.length_append] at hsplit
    rw [List.length_cons]
    omega

/-! ## Booting -/

/-- The free list `mem_init` leaves on this machine. -/
theorem machine8M_room {r : MemInit} (hr : memInit machine8M = .ok r) :
    ∃ S l, Booting S [] l r.phys ∧ 950 ≤ l.length ∧ l.length ≤ 2048 ∧
      ∃ i t, kernTable r.phys i = some t := by
  obtain ⟨ep, l, hl, hwin, hend, hfits, hn, -⟩ := memInit_state hr
  have hnp : (i386DetectMemory machine8M).toNat = 2048 := rfl
  refine ⟨_, l, hl, ?_, ?_, ?_⟩
  · have hsub : pageRange 1024 1024 ⊆ initialFree (page2pa (ep + 31)) 2048 := fun p hp => by
      rw [mem_pageRange (by decide)] at hp
      rw [mem_initialFree (by decide), hend]
      omega
    have hle := ((nodup_pageRange (by decide)).subperm hsub).length_le
    rw [length_pageRange] at hle
    have hleft := hl.length (nodup_initialFree hn _)
    rw [hnp, List.length_nil] at hleft
    omega
  · have hnodup : (l.map BitVec.toNat).Nodup :=
      (List.Nodup.of_append_right hl.nodup).map (fun _ _ => BitVec.eq_of_toNat_eq)
    have hsub : l.map BitVec.toNat ⊆ List.range 2048 := fun n hn => by
      obtain ⟨p, hp, rfl⟩ := List.mem_map.mp hn
      have hfree := hl.sub p hp
      rw [mem_initialFree (by decide)] at hfree
      exact List.mem_range.mpr hfree.2.1
    have hle := (hnodup.subperm hsub).length_le
    rwa [List.length_map, List.length_range] at hle
  · have hpte := hwin 0 (by decide)
    obtain ⟨t, ht, -⟩ := Option.bind_eq_some_iff.mp hpte
    exact ⟨_, t, ht⟩

theorem allocated_envFreeList (k : Kernel) (e : Slot) (parentId : Word) (kva : Ppn) (m : Phys) :
    (k.allocated e parentId kva m).envFreeList = (k.envs e).envLink := rfl

theorem nextSlot_zero : nextSlot 0 = some 1 := by
  have hlt : (0 : Slot).val + 1 < 1024 := by decide
  exact (dif_pos hlt).trans (congrArg some (Fin.ext rfl))

/-- The program: an entry point and no segments. -/
def emptyElf : Elf := ⟨0x800020, []⟩

/-- With such a program the machine boots; not all of its 2048 pages are free. -/
theorem first_small :
    ∃ K k, First K k ∧ ∃ l : List Ppn, (∀ p, ¬ K p → p ∈ l) ∧ l.length ≤ 2048 := by
  obtain ⟨r, hr⟩ := machine8M_completes
  obtain ⟨S, l, hl, hlen, hmax, i, t, hit⟩ := machine8M_room hr
  obtain ⟨hu, hv, -⟩ := kernTable_some.mp hit
  -- the directory of the environment
  obtain ⟨a, l0, rfl⟩ : ∃ a l0, l = a :: l0 := List.exists_cons_of_ne_nil (by
    rintro rfl
    simp at hlen)
  rw [List.length_cons] at hlen
  have hledger := hl.ledger
  have hlist : (kernelOf r.phys).envFreeList = some 0 := by
    show (envInit fun _ => .zero).2 = some 0
    rw [envInit_zero]
  obtain ⟨m1, hsetup⟩ := hledger.setupVm_total
  have halloc := envAlloc_total (k := kernelOf r.phys) hlist hsetup 0
  set k1 := (kernelOf r.phys).allocated 0 0 a m1 with hk1
  have hdirs1 : k1.dirs = Function.update (fun _ => none) 0 (some a) := by
    rw [hk1, dirs_allocated, kernelOf_dirs]
  obtain ⟨l1, heq, h1, hent1, htouch1, -⟩ := hledger.setupVm rfl hsetup
  obtain ⟨-, rfl⟩ := List.cons.inj heq
  rw [← hdirs1] at h1 hent1 htouch1
  have hkern1 : m1.mem m1.kernPgdir = r.phys.mem r.phys.kernPgdir :=
    Touches.kernPgdir_mem htouch1 hledger
  -- its stack
  have hempty : entry (fun _ => none) r.phys = fun _ _ _ => none := by
    funext e i j
    simp [entry, tableOf]
  obtain ⟨p, l2, m2, hregion, h2, hlen2, hkern2, hent2⟩ := stack_total h1
    (show k1.dirs 0 = some a by rw [hdirs1, Function.update_self]) (by omega)
    (by rw [hent1, hempty])
  have hload : loadIcode k1.phys a emptyElf = .ok m2 := bind_eq_ok.mpr ⟨m1, rfl, hregion⟩
  have hcreate : ∃ k, envCreate (kernelOf r.phys) emptyElf .user = .ok k ∧ k = { k1 with phys := m2 }.setEnv 0
      fun E => { E with envType := .user, envTf := { E.envTf with tfEip := emptyElf.entry } } := by
    refine ⟨_, bind_eq_ok.mpr ⟨_, halloc, ?_⟩, rfl⟩
    have hdir : (k1.envs 0).envPgdir = some a := congrFun hdirs1 0
    simp only [hdir]
    exact bind_eq_ok.mpr ⟨m2, hload, rfl⟩
  obtain ⟨k, hcreate, hk⟩ := hcreate
  have hboot : Boot k := ⟨machine8M, [(emptyElf, .user)], bind_eq_ok.mpr ⟨r, hr, by
    rw [List.foldlM_cons]
    exact bind_eq_ok.mpr ⟨k, hcreate, rfl⟩⟩⟩
  -- what the slots hold
  have hzero : (kernelOf r.phys).envs = fun e => { Env.zero with envLink := nextSlot e } :=
    funext (kernelOf_envs r.phys)
  have henvs : k.envs = Function.update (fun e => { Env.zero with envLink := nextSlot e }) 0
      { Env.fresh { Env.zero with envLink := nextSlot 0 } 0 0 a with
        envTf := { initialTf with tfEip := emptyElf.entry } } := by
    rw [hk, hk1]
    simp only [Kernel.allocated, Kernel.setEnv, Kernel.log, hzero, Function.update_self,
      Function.update_idem]
    rfl
  have hdirs : k.dirs = k1.dirs := by
    rw [hk]
    exact dirs_setEnv (k := { k1 with phys := m2 }) rfl
  have hphys : k.phys = m2 := by
    rw [hk]
    rfl
  have hother : ∀ e, e ≠ 0 → k.envs e = { Env.zero with envLink := nextSlot e } := fun e he => by
    rw [henvs, Function.update_of_ne he]
  have hself : k.envs 0 = { Env.fresh { Env.zero with envLink := nextSlot 0 } 0 0 a with
      envTf := { initialTf with tfEip := emptyElf.entry } } := by
    rw [henvs, Function.update_self]
  have hroom : Roomy (· ∉ a :: l0) 900 k := ⟨l2, by rw [hdirs, hphys]; exact h2, by omega⟩
  have hinv : MemInv (· ∉ a :: l0) k := hl.memInv.envCreate hcreate
  refine ⟨_, k, ?_, a :: l0, fun p => not_not.mp, hmax⟩
  exact
    { boot := hboot
      inv := hinv
      room := hroom
      status := by
        funext e
        rcases eq_or_ne e 0 with rfl | he
        · rw [Kernel.status, hself, Function.update_self]
          rfl
        · rw [Kernel.status, hother e he, Function.update_of_ne he]
          rfl
      curenv := by
        rw [hk, hk1]
        rfl
      awake := fun c => by
        rw [hk, hk1]
        show (if c = 0 then CpuStatus.started else .unused) ≠ .halted
        split <;> decide
      id := by
        rw [hself]
        rfl
      parent := by
        rw [hself]
        rfl
      unused := hother
      slots := by
        have hk1list := allocated_envFreeList (kernelOf r.phys) 0 0 a m1
        rw [kernelOf_envs, ← hk1] at hk1list
        have hlist1 : k.envFreeList = k1.envFreeList := by
          rw [hk, Kernel.setEnv_envFreeList]
        exact (hlist1.trans hk1list).trans nextSlot_zero
      waiting := by
        rw [hself]
        exact ⟨rfl, rfl⟩
      upcall := by
        rw [hself]
        rfl
      dir := by
        rw [hself]
        exact ⟨a, rfl⟩
      shared := by
        rw [hphys, hkern2, hkern1]
        have huser : ¬ UserPdx i := fun hi => hl.blank i hi hv
        exact ⟨i, huser, hu, hv, hl.writable i t hit⟩
      stack := by
        refine ⟨p, ?_⟩
        rw [hdirs, hphys, hent2, hent1, hempty] }

theorem first_exists : ∃ K k, First K k := by
  obtain ⟨K, k, h, -⟩ := first_small
  exact ⟨K, k, h⟩

end

end SisOp.Jos
