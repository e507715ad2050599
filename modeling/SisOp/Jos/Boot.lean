/-
# `SisOp.Jos.Boot` — up to the first environment (`i386_init`)

`env_init` threads the free list through the cleared `envs` array, `env_create`
loads a program into a fresh environment.  The programs are part of the kernel
image; `Elf` keeps what `load_icode` reads of one, with what the linker script of
the user programs guarantees about its segments.
-/
import SisOp.Jos.MemInit
import SisOp.Jos.Effects
import SisOp.Lib.Chain

namespace SisOp.Jos

open SisOp.Lib

/-! ## `env_init` -/

/-- The turns of the loop of `env_init` for the indices from `i` down to 1. -/
def envInitLoop : Nat → (Slot → Env) → Slot → Env
  | 0, envs => envs
  | i + 1, envs =>
      let hi : Slot := Fin.ofNat 1024 (i + 1)
      let lo : Slot := Fin.ofNat 1024 i
      let envs := Function.update envs hi { envs hi with envId := 0 }
      let envs := Function.update envs lo { envs lo with envLink := some hi }
      envInitLoop i envs

/-- `env_init()`: the table and the free list. -/
def envInit (envs : Slot → Env) : (Slot → Env) × Option Slot :=
  let last : Slot := Fin.ofNat 1024 (NENV - 1)
  let envs := Function.update envs last { envs last with envLink := none }
  let envs := envInitLoop (NENV - 1) envs
  (Function.update envs 0 { envs 0 with envId := 0 }, some 0)

/-- The link `env_init` gives a slot: to the next one. -/
def nextSlot (e : Slot) : Option Slot :=
  if h : e.val + 1 < 1024 then some ⟨e.val + 1, h⟩ else none

/-- On a cleared table the loop sets the links below its start. -/
theorem envInitLoop_zero : ∀ (i : Nat), i ≤ 1023 → ∀ f : Slot → Option Slot,
    envInitLoop i (fun e => { Env.zero with envLink := f e }) =
      fun e => { Env.zero with envLink := if e.val < i then nextSlot e else f e }
  | 0, _, f => by simp [envInitLoop]
  | i + 1, hi, f => by
      have hlo : (Fin.ofNat 1024 i : Slot).val = i := Nat.mod_eq_of_lt (by omega)
      have hhi : (Fin.ofNat 1024 (i + 1) : Slot).val = i + 1 := Nat.mod_eq_of_lt (by omega)
      simp only [envInitLoop]
      generalize (Fin.ofNat 1024 i : Slot) = lo at hlo ⊢
      generalize (Fin.ofNat 1024 (i + 1) : Slot) = hi' at hhi ⊢
      have hne : lo ≠ hi' := fun h => by
        have hval := congrArg Fin.val h
        omega
      -- after one turn the table is again of the form the induction speaks of
      have hturn : Function.update
          (Function.update (fun e => { Env.zero with envLink := f e }) hi'
            { Env.zero with envLink := f hi', envId := 0 }) lo
          { (Function.update (fun e => { Env.zero with envLink := f e }) hi'
            { Env.zero with envLink := f hi', envId := 0 } lo) with envLink := some hi' } =
          fun e => { Env.zero with envLink := Function.update f lo (some hi') e } := by
        funext e
        rcases eq_or_ne e lo with rfl | he
        · simp [Function.update_of_ne hne, Env.zero]
        · rcases eq_or_ne e hi' with rfl | he'
          · simp [Function.update_of_ne he, Env.zero]
          · simp [Function.update_of_ne he, Function.update_of_ne he']
      rw [hturn, envInitLoop_zero i (by omega)]
      funext e
      by_cases hlt : e.val < i
      · simp [hlt, Nat.lt_succ_of_lt hlt]
      · by_cases heq : e.val = i
        · obtain rfl : e = lo := Fin.ext (heq.trans hlo.symm)
          have hnext : e.val + 1 < 1024 := by omega
          have hself : nextSlot e = some hi' := by
            rw [nextSlot, dif_pos hnext]
            exact congrArg some (Fin.ext (show e.val + 1 = hi'.val by omega))
          rw [if_neg hlt, if_pos (by omega), Function.update_self, hself]
        · have hne' : e ≠ lo := fun h => heq (by rw [h, hlo])
          have hge : ¬ e.val < i + 1 := by omega
          simp [hlt, hge, Function.update_of_ne hne']

/-- The table of a machine that has no environments yet. -/
theorem envInit_zero :
    envInit (fun _ => .zero) = (fun e => { Env.zero with envLink := nextSlot e }, some 0) := by
  have hlast : Function.update (fun _ : Slot => Env.zero) (Fin.ofNat 1024 (NENV - 1))
      { Env.zero with envLink := none } = fun e => { Env.zero with envLink := none } := by
    funext e
    rcases eq_or_ne e (Fin.ofNat 1024 (NENV - 1)) with rfl | he
    · simp
    · rw [Function.update_of_ne he]
      rfl
  have hloop := envInitLoop_zero (NENV - 1) (by decide) fun _ => none
  simp only [envInit, hlast, hloop, Prod.mk.injEq, and_true]
  funext e
  have hlink : (if e.val < NENV - 1 then nextSlot e else none) = nextSlot e := by
    by_cases h : e.val < NENV - 1
    · rw [if_pos h]
    · have he : ¬ e.val + 1 < 1024 := by
        simp only [NENV] at h
        omega
      rw [if_neg h, nextSlot, dif_neg he]
  rcases eq_or_ne e 0 with rfl | he
  · simp only [Function.update_self]
    rw [hlink]
    rfl
  · rw [Function.update_of_ne he, hlink]

/-- The slots from `i` on, in the order of the free list. -/
theorem chain_nextSlot (n : Nat) : ∀ i : Slot, i.val + n + 1 = 1024 →
    Chain nextSlot (some i) ((List.finRange 1024).drop i.val) := by
  induction n with
  | zero =>
      intro i h
      have hlast : ¬ i.val + 1 < 1024 := by omega
      rw [List.drop_eq_getElem_cons (by simp), List.getElem_finRange,
        List.drop_eq_nil_of_le (by simp; omega)]
      refine .cons ?_
      rw [nextSlot, dif_neg hlast]
      exact .nil
  | succ n ih =>
      intro i h
      have hnext : i.val + 1 < 1024 := by omega
      have hrest := ih ⟨i.val + 1, hnext⟩ (by simp only; omega)
      rw [List.drop_eq_getElem_cons (by simp), List.getElem_finRange]
      refine .cons ?_
      rw [nextSlot, dif_pos hnext]
      exact hrest

theorem envInit_chain :
    Chain (fun e => ((envInit fun _ => .zero).1 e).envLink) (envInit fun _ => .zero).2
      (List.finRange 1024) := by
  have h := chain_nextSlot 1023 0 (by decide)
  rw [show ((0 : Slot).val) = 0 from rfl, List.drop_zero] at h
  rw [envInit_zero]
  exact h

/-! ## Loading a program -/

/-- A loadable segment of an ELF file. -/
structure Segment where
  va : Word
  memsz : Word
  /-- The `p_filesz` bytes of the segment in the file. -/
  bytes : List Byte
  fileFits : bytes.length ≤ memsz.toNat
  userFits : va.toNat + memsz.toNat ≤ USTACKTOP.toNat

/-- What `load_icode` reads of a program. -/
structure Elf where
  entry : Word
  segments : List Segment

/-- The loop of `region_alloc`, for the `n` pages from `page` on. -/
def regionAllocLoop (pgdir : Ppn) : Nat → Phys → Word → Except String Phys
  | 0, m, _ => .ok m
  | n + 1, m, page => do
      match ← pageAlloc m false with
      | (none, _) => .error "Could not alloc page!"
      | (some p, m) =>
          let (r, m) ← pageInsert m pgdir p page (PTE_W ||| PTE_U)
          if r < 0 then .error "Could not insert page!"
          else regionAllocLoop pgdir n m (page + PGSIZE)

/-- `region_alloc(e, va, len)`. -/
def regionAlloc (m : Phys) (pgdir : Ppn) (va len : Word) : Except String Phys :=
  if len = 0 then .ok m
  else
    let firstPage := ROUNDDOWN va PGSIZE
    let lastPage := ROUNDUP (va + len) PGSIZE
    regionAllocLoop pgdir ((lastPage.toNat - firstPage.toNat) / 4096) m firstPage

/-- The turn of `load_icode` for one segment: the pages, the bytes of the file, and zeros. -/
def loadSegment (pgdir : Ppn) (m : Phys) (ph : Segment) : Except String Phys := do
  let m ← regionAlloc m pgdir ph.va ph.memsz
  let bytes := ph.bytes ++ List.replicate (ph.memsz.toNat - ph.bytes.length) 0
  match storeBytes m pgdir (PTE_P ||| PTE_W) ph.va bytes with
  | none => .error "Kernel Page Fault"
  | some m => return m

/-- The memory part of `load_icode(e, binary)`. -/
def loadIcode (m : Phys) (pgdir : Ppn) (elf : Elf) : Except String Phys := do
  let m ← elf.segments.foldlM (loadSegment pgdir) m
  regionAlloc m pgdir (USTACKTOP - PGSIZE) PGSIZE

/-- `env_create(binary, type)`. -/
def envCreate (k : Kernel) (elf : Elf) (type : EnvType) : Except String Kernel := do
  match ← envAlloc k 0 with
  | (.error _, _) => .error "env_create"
  | (.ok e, k) =>
      match (k.envs e).envPgdir with
      | none => .error "Kernel Page Fault"
      | some pgdir =>
          let m ← loadIcode k.phys pgdir elf
          return { k with phys := m }.setEnv e fun E =>
            { E with
              envType := type
              envTf := { E.envTf with
                tfEip := elf.entry
                tfEflags :=
                  if type = EnvType.fs then E.envTf.tfEflags ||| FL_IOPL_3 else E.envTf.tfEflags } }

/-! ## `i386_init` -/

/-- The state after `mem_init`, `env_init` and `boot_aps`: the boot CPU is started, the
others wait for the lock. -/
def kernelOf (m : Phys) : Kernel where
  phys := m
  envs := (envInit fun _ => .zero).1
  envFreeList := (envInit fun _ => .zero).2
  cpus := fun c => ⟨if c = 0 then .started else .unused, none, m.kernPgdir⟩
  hist := []

/-- `i386_init()` up to its `sched_yield()`, with the programs it creates environments for. -/
def i386Init (hw : Machine) (programs : List (Elf × EnvType)) : Except String Kernel := do
  let r ← memInit hw
  programs.foldlM (fun k p => envCreate k p.1 p.2) (kernelOf r.phys)

/-- The states in which a machine starts to run environments. -/
def Boot (k : Kernel) : Prop := ∃ hw programs, i386Init hw programs = .ok k

/-! ## What booting keeps -/

theorem kernelOf_envs (m : Phys) (e : Slot) :
    (kernelOf m).envs e = { Env.zero with envLink := nextSlot e } := by
  show (envInit fun _ => .zero).1 e = _
  rw [envInit_zero]

/-- What `env_create` can do. -/
theorem envCreate_ok {k k' : Kernel} {elf : Elf} {type : EnvType}
    (h : envCreate k elf type = .ok k') : ∃ e kva m m' tf, k.envFreeList = some e ∧
      SetupVm k.phys kva m ∧ loadIcode m kva elf = .ok m' ∧
      k' = { k.allocated e 0 kva m with phys := m' }.setEnv e fun E =>
        { E with envType := type, envTf := tf } := by
  simp only [envCreate, bind_eq_ok] at h
  obtain ⟨⟨res, k1⟩, halloc, h⟩ := h
  rcases envAlloc_ok halloc with ⟨r, rfl, -, rfl⟩ | ⟨e, kva, m, rfl, hlist, hm, rfl⟩
  · cases h
  · have hdir : ((k.allocated e 0 kva m).envs e).envPgdir = some kva := by
      simp [Kernel.allocated, Kernel.setEnv, Kernel.log, Env.fresh]
    simp only [hdir, bind_eq_ok] at h
    obtain ⟨m', hload, h⟩ := h
    cases h
    exact ⟨e, kva, m, m', _, hlist, hm, hload, rfl⟩

/-- A property of the machine without environments that `env_create` keeps holds of every
machine that has booted. -/
theorem Boot.preserves {P : Kernel → Prop}
    (hinit : ∀ hw r, memInit hw = .ok r → P (kernelOf r.phys))
    (hcreate : ∀ k elf type k', P k → envCreate k elf type = .ok k' → P k') {k : Kernel}
    (h : Boot k) : P k := by
  obtain ⟨hw, programs, hboot⟩ := h
  simp only [i386Init, bind_eq_ok] at hboot
  obtain ⟨r, hr, hboot⟩ := hboot
  exact foldlM_preserves (fun k p k' hk hp => hcreate k p.1 p.2 k' hk hp) hboot (hinit hw r hr)

end SisOp.Jos
