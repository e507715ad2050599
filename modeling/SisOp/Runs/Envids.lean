/-
# `SisOp.Runs.Envids` — the ids that `env_alloc` gives

The ids of a slot are a cycle of `2 ^ 19 - 1` values: the generation is a multiple of `2 ^ 12`
below `2 ^ 31`, and the one after the last is the first.  Along a run of `env_alloc` and
`env_free` the id of a slot is a function of how often it was allocated.
-/
import SisOp.Lib.Run
import SisOp.Runs.Booted

namespace SisOp.Jos

open SisOp.Lib

/-! ## The cycle -/

/-- The number of generations. -/
def GENERATIONS : Nat := 2 ^ 19 - 1

/-- The `env_id` of incarnation `n` of slot `e`, counted from 0. -/
def incarnationId (e : Slot) (n : Nat) : Word :=
  BitVec.ofNat 32 ((n % GENERATIONS + 1) * 2 ^ 12 + e.val)

theorem toNat_incarnationId (e : Slot) (n : Nat) :
    (incarnationId e n).toNat = (n % GENERATIONS + 1) * 2 ^ 12 + e.val := by
  have hmod : n % GENERATIONS < 2 ^ 19 - 1 := Nat.mod_lt _ (by decide)
  have he := e.isLt
  rw [incarnationId, BitVec.toNat_ofNat, Nat.mod_eq_of_lt (by omega)]

/-- Clearing the bits of the slot. -/
theorem toNat_and_not_mask (x : Word) :
    (x &&& ~~~(BitVec.ofNat 32 (NENV - 1))).toNat = x.toNat / 1024 * 1024 := by
  have hsplit : (x &&& BitVec.ofNat 32 (NENV - 1)) + (x &&& ~~~(BitVec.ofNat 32 (NENV - 1))) = x := by
    rw [BitVec.add_eq_or_of_and_eq_zero]
    · ext i hi
      simp only [BitVec.getElem_or, BitVec.getElem_and, BitVec.getElem_not]
      cases x[i] <;> cases (BitVec.ofNat 32 (NENV - 1))[i] <;> rfl
    · ext i hi
      simp only [BitVec.getElem_and, BitVec.getElem_not, BitVec.getElem_zero]
      cases x[i] <;> cases (BitVec.ofNat 32 (NENV - 1))[i] <;> rfl
  have hlow : (x &&& BitVec.ofNat 32 (NENV - 1)).toNat = x.toNat % 1024 := by
    rw [BitVec.toNat_and]
    exact Nat.and_two_pow_sub_one_eq_mod x.toNat 10
  have hdiv := Nat.div_add_mod x.toNat 1024
  bv_omega

/-- The slot in the bits the mask clears. -/
theorem toNat_or_slot (x : Word) (e : Slot) (hx : x.toNat % 1024 = 0) :
    (x ||| BitVec.ofNat 32 e.val).toNat = x.toNat + e.val := by
  have he : e.val % 2 ^ 32 = e.val := Nat.mod_eq_of_lt (by omega)
  rw [BitVec.toNat_or, BitVec.toNat_ofNat, he]
  have hshift : x.toNat = (x.toNat / 2 ^ 10) <<< 10 := by
    rw [Nat.shiftLeft_eq]
    omega
  rw [hshift, ← Nat.shiftLeft_add_eq_or_of_lt e.isLt]

theorem toInt_le_zero_iff (x : Word) : x.toInt ≤ 0 ↔ x.toNat = 0 ∨ 2 ^ 31 ≤ x.toNat := by
  rw [BitVec.toInt_eq_toNat_cond]
  split <;> omega

/-- `env_alloc` on an id with the generation `g`. -/
theorem toNat_nextEnvId {x : Word} {e : Slot} {g : Nat} (hx : x.toNat = g * 2 ^ 12 + e.val ∨
    x.toNat = 0 ∧ g = 0) (hg : g < 2 ^ 19) :
    (nextEnvId x e).toNat = (if g + 1 = 2 ^ 19 then 1 else g + 1) * 2 ^ 12 + e.val := by
  have he := e.isLt
  have hgen : ((x + (1 <<< 12)) &&& ~~~(BitVec.ofNat 32 (NENV - 1))).toNat = (g + 1) * 2 ^ 12 := by
    rw [toNat_and_not_mask, BitVec.toNat_add]
    have hone : (1 <<< 12 : Word).toNat = 2 ^ 12 := rfl
    rw [hone]
    omega
  unfold nextEnvId
  dsimp only
  by_cases hlast : g + 1 = 2 ^ 19
  · rw [if_pos ((toInt_le_zero_iff _).mpr (by omega)), if_pos hlast, toNat_or_slot]
    · rfl
    · decide
  · rw [if_neg (fun h => by
      have hle := (toInt_le_zero_iff _).mp h
      omega), if_neg hlast, toNat_or_slot]
    · rw [hgen]
    · omega

theorem nextEnvId_zero (e : Slot) : nextEnvId 0 e = incarnationId e 0 := by
  apply BitVec.eq_of_toNat_eq
  rw [toNat_nextEnvId (Or.inr ⟨rfl, rfl⟩) (by decide), toNat_incarnationId]
  rfl

/-- The id after that of incarnation `n`. -/
theorem nextEnvId_incarnationId (e : Slot) (n : Nat) :
    nextEnvId (incarnationId e n) e = incarnationId e (n + 1) := by
  have hmod : n % GENERATIONS < 2 ^ 19 - 1 := Nat.mod_lt _ (by decide)
  apply BitVec.eq_of_toNat_eq
  rw [toNat_nextEnvId (Or.inl (toNat_incarnationId e n)) (by omega), toNat_incarnationId,
    ← Nat.mod_add_mod]
  have hall : GENERATIONS = 2 ^ 19 - 1 := rfl
  generalize n % GENERATIONS = r at hmod ⊢
  by_cases hlast : r + 1 + 1 = 2 ^ 19
  · rw [if_pos hlast, show r + 1 = GENERATIONS by omega, Nat.mod_self]
  · rw [if_neg hlast, Nat.mod_eq_of_lt (by omega)]

theorem incarnationId_inj {e : Slot} {n m : Nat} :
    incarnationId e n = incarnationId e m ↔ n % GENERATIONS = m % GENERATIONS := by
  constructor
  · intro h
    have hnat := congrArg BitVec.toNat h
    rw [toNat_incarnationId, toNat_incarnationId] at hnat
    omega
  · intro h
    rw [incarnationId, incarnationId, h]

theorem incarnationId_pos (e : Slot) (n : Nat) : 0 < (incarnationId e n).toInt := by
  have hmod : n % GENERATIONS < 2 ^ 19 - 1 := Nat.mod_lt _ (by decide)
  have he := e.isLt
  have hnat := toNat_incarnationId e n
  by_contra hle
  have hneg := (toInt_le_zero_iff _).mp (not_lt.mp hle)
  omega

theorem ENVX_incarnationId (e : Slot) (n : Nat) : ENVX (incarnationId e n) = e := by
  apply Fin.ext
  have he := e.isLt
  have hmask := Nat.and_two_pow_sub_one_eq_mod (incarnationId e n).toNat 10
  change (incarnationId e n).toNat &&& (2 ^ 10 - 1) = e.val
  rw [hmask, toNat_incarnationId]
  omega

/-! ## Runs -/

/-- A call of `env_alloc` or `env_free`, or anything else the kernel does. -/
inductive EnvCall
  /-- `env_alloc` returned the environment, with this id. -/
  | alloc (e : Slot) (id : Word)
  /-- `env_alloc` failed. -/
  | failed
  | free (e : Slot)
  | other

/-- Nothing else changes an id, a link, the head of the free list or what is free. -/
def EnvStep (k : Kernel) : EnvCall → Kernel → Prop
  | .alloc e id, k' =>
    (∃ parentId, envAlloc k parentId = .ok (.ok e, k')) ∧ id = (k'.envs e).envId
  | .failed, k' => ∃ parentId r, envAlloc k parentId = .ok (.error r, k')
  | .free e, k' => k.status e ≠ .free ∧ ∃ c, envFree k c e = .ok k'
  | .other, k' => k'.envFreeList = k.envFreeList ∧ ∀ e, (k'.envs e).envId = (k.envs e).envId ∧
      (k'.envs e).envLink = (k.envs e).envLink ∧ (k'.status e = .free ↔ k.status e = .free)

/-- The id a call gives to slot `e`. -/
def EnvCall.idOf (e : Slot) : EnvCall → Option Word
  | .alloc f id => if f = e then some id else none
  | _ => none

/-- The ids of slot `e` along a run. -/
def ids (e : Slot) (tr : List EnvCall) : List Word := tr.filterMap (EnvCall.idOf e)

/-- The id of a slot that was allocated `n` times. -/
def idAfter (e : Slot) : Nat → Word
  | 0 => 0
  | n + 1 => incarnationId e n

theorem nextEnvId_idAfter (e : Slot) (n : Nat) : nextEnvId (idAfter e n) e = incarnationId e n := by
  cases n with
  | zero => exact nextEnvId_zero e
  | succ n => exact nextEnvId_incarnationId e n

/-- `env_free_list` links the free environments, each once. -/
def FreeListOk (k : Kernel) : Prop :=
  ∃ l, Chain (fun e => (k.envs e).envLink) k.envFreeList l ∧ l.Nodup ∧
    ∀ e, e ∈ l ↔ k.status e = .free

/-- The table after slot `e` was allocated `n e` times. -/
structure EnvTable (n : Slot → Nat) (k : Kernel) : Prop where
  freeList : FreeListOk k
  envId : ∀ e, (k.envs e).envId = idAfter e (n e)

theorem FreeListOk.allocated {k : Kernel} (h : FreeListOk k) {e : Slot}
    (hlist : k.envFreeList = some e) (parentId : Word) (kva : Ppn) (m : Phys) :
    FreeListOk (k.allocated e parentId kva m) := by
  obtain ⟨l, hl, hnd, hfree⟩ := h
  rw [hlist] at hl
  obtain ⟨t, rfl, ht⟩ := hl.of_some
  have he := (List.nodup_cons.mp hnd).1
  refine ⟨t, ?_, (List.nodup_cons.mp hnd).2, ?_⟩
  · refine ht.congr fun f hf => ?_
    have hne : f ≠ e := fun heq => he (heq ▸ hf)
    simp [Kernel.allocated, Function.update_of_ne hne]
  · intro f
    by_cases hfe : f = e
    · subst hfe
      refine iff_of_false he ?_
      simp [Kernel.allocated, Kernel.status, Env.fresh]
    · have hmem := hfree f
      rw [List.mem_cons, or_iff_right hfe] at hmem
      rw [hmem]
      simp [Kernel.allocated, Kernel.status, Function.update_of_ne hfe]

theorem FreeListOk.freed {k : Kernel} (h : FreeListOk k) {c : Nat} {e : Slot}
    (he : k.status e ≠ .free) (m : Phys) : FreeListOk (k.freed c e m) := by
  obtain ⟨l, hl, hnd, hfree⟩ := h
  have hmem : e ∉ l := fun hin => he ((hfree e).mp hin)
  refine ⟨e :: l, ?_, List.nodup_cons.mpr ⟨hmem, hnd⟩, ?_⟩
  · rw [Kernel.freed_envFreeList]
    refine .cons ?_
    simp only [Kernel.freed_envs, Function.update_self]
    refine hl.congr fun f hf => ?_
    have hne : f ≠ e := fun heq => hmem (heq ▸ hf)
    rw [Function.update_of_ne hne]
  · intro f
    rw [List.mem_cons, hfree f]
    by_cases hfe : f = e
    · subst hfe
      simp [Kernel.status]
    · simp [Kernel.status, hfe]

theorem FreeListOk.other {k k' : Kernel} (h : FreeListOk k) (hlist : k'.envFreeList = k.envFreeList)
    (henvs : ∀ e, (k'.envs e).envId = (k.envs e).envId ∧
      (k'.envs e).envLink = (k.envs e).envLink ∧ (k'.status e = .free ↔ k.status e = .free)) :
    FreeListOk k' := by
  obtain ⟨l, hl, hnd, hfree⟩ := h
  refine ⟨l, ?_, hnd, ?_⟩
  · rw [hlist]
    exact hl.congr fun f _ => (henvs f).2.1
  · intro f
    rw [hfree f, (henvs f).2.2]

/-- How often a slot was allocated, after one more call. -/
def EnvCall.count (n : Slot → Nat) : EnvCall → Slot → Nat
  | .alloc e _ => Function.update n e (n e + 1)
  | _ => n

/-- One call: the table goes on, and an id that is given is the next of its slot. -/
theorem envTable_step {n : Slot → Nat} {k k' : Kernel} {a : EnvCall} (h : EnvTable n k)
    (hs : EnvStep k a k') :
    EnvTable (a.count n) k' ∧ ∀ e id, a = .alloc e id → id = incarnationId e (n e) := by
  cases a with
  | alloc e id =>
    obtain ⟨⟨parentId, halloc⟩, hid⟩ := hs
    obtain ⟨_, hbad, _⟩ | ⟨f, kva, m, heq, hlist, _, rfl⟩ := envAlloc_ok halloc
    · cases hbad
    · cases heq
      have hnew : ((k.allocated e parentId kva m).envs e).envId = incarnationId e (n e) := by
        rw [← nextEnvId_idAfter, ← h.envId e]
        simp [Kernel.allocated, Env.fresh]
      refine ⟨⟨h.freeList.allocated hlist parentId kva m, ?_⟩, ?_⟩
      · intro f
        by_cases hfe : f = e
        · subst hfe
          rw [hnew, EnvCall.count, Function.update_self]
          rfl
        · rw [EnvCall.count, Function.update_of_ne hfe, ← h.envId f]
          simp [Kernel.allocated, Function.update_of_ne hfe]
      · intro f id' heq'
        cases heq'
        rw [hid, hnew]
  | failed =>
    obtain ⟨parentId, r, halloc⟩ := hs
    obtain ⟨_, _, _, rfl⟩ | ⟨f, kva, m, hbad, _⟩ := envAlloc_ok halloc
    · exact ⟨h, fun e id heq => by cases heq⟩
    · cases hbad
  | free e =>
    obtain ⟨hne, c, hfree⟩ := hs
    obtain ⟨pgdir, m, _, _, rfl⟩ := envFree_ok.mp hfree
    refine ⟨⟨h.freeList.freed hne m, ?_⟩, fun f id heq => by cases heq⟩
    intro f
    show ((k.freed c e m).envs f).envId = idAfter f (n f)
    rw [← h.envId f, Kernel.freed_envs]
    by_cases hfe : f = e
    · subst hfe
      rw [Function.update_self]
    · rw [Function.update_of_ne hfe]
  | other =>
    obtain ⟨hlist, henvs⟩ := hs
    refine ⟨⟨h.freeList.other hlist henvs, ?_⟩, fun f id heq => by cases heq⟩
    intro f
    exact (henvs f).1.trans (h.envId f)

theorem ids_cons (e : Slot) (a : EnvCall) (tr : List EnvCall) :
    ids e (a :: tr) = (a.idOf e).toList ++ ids e tr := by
  unfold ids
  rw [List.filterMap_cons]
  cases a.idOf e with
  | none => rfl
  | some id => rfl

/-- By induction on the run: the ids of a slot are those of its incarnations, in order. -/
theorem envTable_run {k k' : Kernel} {tr : List EnvCall} (hrun : Run EnvStep k tr k') :
    ∀ n : Slot → Nat, EnvTable n k →
      EnvTable (fun e => n e + (ids e tr).length) k' ∧
      ∀ e, ids e tr = (List.range' (n e) (ids e tr).length).map (incarnationId e) := by
  induction hrun with
  | nil k => exact fun n h => ⟨h, fun e => rfl⟩
  | @cons k k1 k' a tr hs _ ih =>
    intro n h
    obtain ⟨h1, hid⟩ := envTable_step h hs
    obtain ⟨h', hids⟩ := ih (a.count n) h1
    have hcount : ∀ e, a.count n e = n e + ((a.idOf e).toList).length := by
      intro e
      cases a with
      | alloc f id =>
        by_cases hfe : f = e
        · subst hfe
          simp [EnvCall.count, EnvCall.idOf]
        · simp [EnvCall.count, EnvCall.idOf, hfe, Function.update_of_ne (Ne.symm hfe)]
      | failed => rfl
      | free f => rfl
      | other => rfl
    refine ⟨?_, ?_⟩
    · have hfun : (fun e => a.count n e + (ids e tr).length)
          = fun e => n e + (ids e (a :: tr)).length := by
        funext e
        rw [hcount, ids_cons, List.length_append, Nat.add_assoc]
      exact hfun ▸ h'
    · intro e
      have htail := hids e
      rw [hcount] at htail
      rw [ids_cons]
      cases ha : a.idOf e with
      | none =>
        rw [ha] at htail
        exact htail
      | some id =>
        rw [ha] at htail
        have hidv : id = incarnationId e (n e) := by
          cases a with
          | alloc f id' =>
            by_cases hfe : f = e
            · subst hfe
              simp only [EnvCall.idOf, if_true, Option.some.injEq] at ha
              exact ha ▸ hid f id' rfl
            · simp [EnvCall.idOf, hfe] at ha
          | failed => cases ha
          | free f => cases ha
          | other => cases ha
        simp only [Option.toList_some, List.singleton_append, List.length_cons] at htail ⊢
        rw [List.range'_succ, List.map_cons, ← hidv]
        exact congrArg (id :: ·) htail

/-! ## Ids of the dead -/

/-- A slot that is not allocated stays free, and one that is freed is free. -/
theorem free_step {k k' : Kernel} {a : EnvCall} {e : Slot} (hs : EnvStep k a k')
    (ha : a.idOf e = none) (h : k.status e = .free ∨ a = .free e) : k'.status e = .free := by
  cases a with
  | alloc f id =>
    obtain ⟨⟨parentId, halloc⟩, _⟩ := hs
    have hfe : f ≠ e := by
      intro heq
      simp [EnvCall.idOf, heq] at ha
    obtain ⟨_, hbad, _⟩ | ⟨g, kva, m, heq, _, _, rfl⟩ := envAlloc_ok halloc
    · cases hbad
    · cases heq
      obtain h | h := h
      · rw [← h]
        simp [Kernel.allocated, Kernel.status, Function.update_of_ne hfe.symm]
      · cases h
  | failed =>
    obtain ⟨parentId, r, halloc⟩ := hs
    obtain ⟨_, _, _, rfl⟩ | ⟨f, kva, m, hbad, _⟩ := envAlloc_ok halloc
    · obtain h | h := h
      · exact h
      · cases h
    · cases hbad
  | free f =>
    obtain ⟨_, c, hfree⟩ := hs
    obtain ⟨pgdir, m, _, _, rfl⟩ := envFree_ok.mp hfree
    by_cases hfe : e = f
    · subst hfe
      simp [Kernel.status]
    · obtain h | h := h
      · rw [← h]
        simp [Kernel.status, Function.update_of_ne hfe]
      · cases h
        exact absurd rfl hfe
  | other =>
    obtain ⟨_, henvs⟩ := hs
    obtain h | h := h
    · exact (henvs e).2.2.mpr h
    · cases h

theorem free_run {k k' : Kernel} {tr : List EnvCall} {e : Slot} (hrun : Run EnvStep k tr k') :
    ids e tr = [] → k.status e = .free ∨ .free e ∈ tr → k'.status e = .free := by
  induction hrun with
  | nil k =>
    intro _ h
    obtain h | h := h
    · exact h
    · cases h
  | @cons k k1 k' a tr hs _ ih =>
    intro hids h
    rw [ids_cons] at hids
    obtain ⟨ha, htail⟩ := List.append_eq_nil_iff.mp hids
    have ha' : a.idOf e = none := Option.toList_eq_nil_iff.mp ha
    refine ih htail ?_
    obtain h | h := h
    · exact Or.inl (free_step hs ha' (Or.inl h))
    · cases List.mem_cons.mp h with
      | inl heq => exact Or.inl (free_step hs ha' (Or.inr heq.symm))
      | inr hmem => exact Or.inr hmem

/-- What holds after a run of the environment table. -/
structure EnvidsFresh (tr : List EnvCall) (k : Kernel) : Prop where
  freeList : FreeListOk k
  /-- An id is positive, and its slot is the one that was allocated. -/
  slot : ∀ e id, .alloc e id ∈ tr → 0 < id.toInt ∧ ENVX id = e
  /-- Any `2 ^ 19 - 1` consecutive incarnations have different ids. -/
  distinct : ∀ e m, (((ids e tr).drop m).take GENERATIONS).Nodup
  /-- The id of a dead incarnation is refused until the slot was reallocated that often. -/
  dead : ∀ tr1 tr2 e id, tr = tr1 ++ .alloc e id :: tr2 → .free e ∈ tr2 →
    (ids e tr2).length < GENERATIONS →
      ∀ cur checkperm, envid2env k cur id checkperm = .error (-E_BAD_ENV)
  failed : ∀ parentId r k', envAlloc k parentId = .ok (.error r, k') → k' = k

theorem incarnationId_ne {e : Slot} {n m : Nat} (hlt : n < m) (hm : m < n + GENERATIONS) :
    incarnationId e n ≠ incarnationId e m := by
  intro h
  have hmod := incarnationId_inj.mp h
  have hall : GENERATIONS = 524287 := rfl
  rw [hall] at hm hmod
  omega

theorem window_nodup (e : Slot) (start len : Nat) (h : len ≤ GENERATIONS) :
    ((List.range' start len).map (incarnationId e)).Nodup := by
  refine List.Nodup.map_on ?_ List.nodup_range'
  intro n hn m hm heq
  rw [List.mem_range'_1] at hn hm
  by_contra hne
  cases Nat.lt_or_gt_of_ne hne with
  | inl hlt => exact incarnationId_ne hlt (by omega) heq
  | inr hgt => exact incarnationId_ne hgt (by omega) heq.symm

theorem take_range' (start len k : Nat) :
    ∃ j, j ≤ k ∧ (List.range' start len).take k = List.range' start j := by
  cases Nat.le_total len k with
  | inl h => exact ⟨len, h, List.take_range'_of_length_le h⟩
  | inr h => exact ⟨k, Nat.le_refl k, List.take_range'_of_length_ge h⟩

/-- An id that is not the one of its slot is refused, and so is one of a free slot. -/
theorem envid2env_stale {k : Kernel} {e cur : Slot} {id : Word} {checkperm : Bool}
    (hpos : 0 < id.toInt) (hslot : ENVX id = e)
    (h : k.status e = .free ∨ (k.envs e).envId ≠ id) :
    envid2env k cur id checkperm = .error (-E_BAD_ENV) := by
  have hne : id ≠ 0 := by
    rintro rfl
    exact absurd hpos (by decide)
  simp only [envid2env, hne, if_false, hslot]
  exact if_pos h

theorem envTable_init (m : Phys) : EnvTable (fun _ => 0) (kernelOf m) := by
  refine ⟨⟨List.finRange 1024, envInit_chain, List.nodup_finRange _, ?_⟩, ?_⟩
  · intro e
    refine iff_of_true (List.mem_finRange e) ?_
    rw [Kernel.status, kernelOf_envs]
    rfl
  · intro e
    rw [kernelOf_envs]
    rfl

/-- For every sequence of `env_alloc` and `env_free` after `env_init`, with anything else the
kernel does to the environments in between. -/
theorem envids_fresh {m : Phys} {tr : List EnvCall} {k : Kernel}
    (hrun : Run EnvStep (kernelOf m) tr k) : EnvidsFresh tr k := by
  obtain ⟨htable, hids⟩ := envTable_run hrun _ (envTable_init m)
  have hmem : ∀ e id, .alloc e id ∈ tr → ∃ n, id = incarnationId e n := by
    intro e id h
    have hin : id ∈ ids e tr := List.mem_filterMap.mpr ⟨_, h, by simp [EnvCall.idOf]⟩
    rw [hids e] at hin
    obtain ⟨n, _, hn⟩ := List.mem_map.mp hin
    exact ⟨n, hn.symm⟩
  refine ⟨htable.freeList, ?_, ?_, ?_, ?_⟩
  · intro e id h
    obtain ⟨n, rfl⟩ := hmem e id h
    exact ⟨incarnationId_pos e n, ENVX_incarnationId e n⟩
  · intro e i
    rw [hids e, ← List.map_drop, ← List.map_take, List.drop_range']
    obtain ⟨j, hj, heq⟩ := take_range' (0 + i * 1) ((ids e tr).length - i) GENERATIONS
    rw [heq]
    exact window_nodup e _ j hj
  · rintro tr1 tr2 e id rfl hfree hlt cur checkperm
    obtain ⟨k1, hrun1, hrest⟩ := hrun.split
    cases hrest with
    | @cons _ k2 _ _ _ hs hrun2 =>
      obtain ⟨htable1, _⟩ := envTable_run hrun1 _ (envTable_init m)
      obtain ⟨htable2, hid⟩ := envTable_step htable1 hs
      obtain ⟨htable3, _⟩ := envTable_run hrun2 _ htable2
      have hid' := hid e id rfl
      have hcur := htable3.envId e
      rw [EnvCall.count, Function.update_self] at hcur
      rw [hid']
      refine envid2env_stale (incarnationId_pos e _) (ENVX_incarnationId e _) ?_
      cases hlen : (ids e tr2).length with
      | zero => exact Or.inl (free_run hrun2 (List.eq_nil_of_length_eq_zero hlen) (Or.inr hfree))
      | succ j =>
        right
        rw [hlen] at hcur hlt
        rw [hcur, show ∀ i, i + 1 + (j + 1) = i + 1 + j + 1 by omega]
        exact (incarnationId_ne (by omega) (by omega)).symm
  · intro parentId r k' h
    obtain ⟨_, _, _, heq⟩ | ⟨f, kva, m, hbad, _⟩ := envAlloc_ok h
    · exact heq
    · cases hbad

/-- The first `env_alloc` on the machine with 8 MiB. -/
theorem envids_fresh_first : ∃ m k id, Run EnvStep (kernelOf m) [.alloc 0 id] k ∧
    EnvidsFresh [.alloc 0 id] k := by
  obtain ⟨r, hr⟩ := machine8M_completes
  obtain ⟨S, l, hl, hlen, -, i, t, hit⟩ := machine8M_room hr
  obtain ⟨a, l0, rfl⟩ : ∃ a l0, l = a :: l0 := List.exists_cons_of_ne_nil (by
    rintro rfl
    simp at hlen)
  obtain ⟨m1, hsetup⟩ := hl.ledger.setupVm_total
  have hlist : (kernelOf r.phys).envFreeList = some 0 := by
    show (envInit fun _ => .zero).2 = some 0
    rw [envInit_zero]
  have halloc := envAlloc_total hlist hsetup 0
  have hrun : Run EnvStep (kernelOf r.phys)
      [.alloc 0 (((kernelOf r.phys).allocated 0 0 a m1).envs 0).envId]
      ((kernelOf r.phys).allocated 0 0 a m1) := .single ⟨⟨0, halloc⟩, rfl⟩
  exact ⟨r.phys, _, _, hrun, envids_fresh hrun⟩

end SisOp.Jos
