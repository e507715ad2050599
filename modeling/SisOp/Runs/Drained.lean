/-
# `SisOp.Runs.Drained` — a program that takes all memory

A parent gives its child page after page until none is free (`Family.drained`): from
address 4096 on, two pages at a time where a page table is needed, and the last one at
address 0.  Then it maps its stack page where the child has no page table.
-/
import SisOp.Memory.Exhausted
import SisOp.Runs.Fork

namespace SisOp.Jos

open SisOp.Lib

/-- `sys_page_alloc(child, va, PTE_P | PTE_W | PTE_U)`. -/
def allocCall (va : Word) : Call := ⟨4, 0x1001, va, 7, 0, 0⟩

/-- Slot 0, on CPU 0, has given its child pages up to number `j`, `l` are left. -/
structure Draining (K : Ppn → Prop) (j : Nat) (l : List Ppn) (k : Kernel) : Prop where
  scene : Scene k (pair .notRunnable) parentOn []
  inv : MemInv K k
  ledger : Ledger K k.dirs [] l k.phys
  child : (k.envs 1).envId = 0x1001 ∧ ∃ d, (k.envs 1).envPgdir = some d
  stack : ∃ p, k.mapped 0 (PDX stackVa) (PTX stackVa) = some (mkPte p (PTE_W ||| PTE_U))
  mapped : ∀ i t, k.mapped 1 i t ≠ none → 1024 * i.val + t.val ≤ j
  spare : l ≠ [] → k.mapped 1 0 0 = none
  tables : ∀ i, tableOf k.dirs k.phys 1 i ≠ none → 1024 * i.val ≤ j
  first : 0 < j → tableOf k.dirs k.phys 1 0 ≠ none

section

variable {K : Ppn → Prop} {k k' : Kernel} {l : List Ppn} {j : Nat} {p : Ppn} {i t : Idx}

theorem vaOk_PGADDR (hi : UserPdx i) (t : Idx) : VaOk (PGADDR i t) := by
  have hlt : PGADDR i t < UTOP := by
    rw [← userPdx_iff, PDX_PGADDR]
    exact hi
  have hmod : (PGADDR i t % PGSIZE) = 0 := by
    refine BitVec.eq_of_toNat_eq ?_
    rw [BitVec.toNat_umod, PGADDR_toNat, show PGSIZE.toNat = 4096 from rfl]
    show (i.val * 4194304 + t.val * 4096) % 4096 = 0
    omega
  exact not_or.mpr ⟨BitVec.not_le.mpr hlt, not_not.mpr hmod⟩

/-- One more page for the child. -/
theorem Draining.alloc (h : Draining K j (p :: l) k) (hi : UserPdx i)
    (hnone : k.mapped 1 i t = none) (hroom : tableOf k.dirs k.phys 1 i = none → l ≠ []) :
    ∃ k' l', Step k ((allocCall (PGADDR i t)).act 0) k' ∧ MemInv K k' ∧ k'.dirs = k.dirs ∧
      Scene k' (pair .notRunnable) parentOn [] ∧ (k'.envs 1).envId = 0x1001 ∧
      NewMapping K k.dirs l l' k.phys k'.phys 1 i t (mkPte p 7) := by
  have hi' : UserPdx (PDX (PGADDR i t)) := by
    rw [PDX_PGADDR]
    exact hi
  obtain ⟨hid, d, hd⟩ := h.child
  have hnone' : entry k.dirs k.phys 1 (PDX (PGADDR i t)) (PTX (PGADDR i t)) = none := by
    rw [PDX_PGADDR, PTX_PGADDR]
    exact hnone
  have hroom' : tableOf k.dirs k.phys 1 (PDX (PGADDR i t)) = none → l ≠ [] := by
    rw [PDX_PGADDR]
    exact hroom
  obtain ⟨m1, m2, l', halloc, hins, hmap⟩ :=
    h.ledger.map_total true hd hi' hnone' hroom' (show FlagsOnly 7 by decide)
  rw [PDX_PGADDR, PTX_PGADDR] at hmap
  have hexec := h.scene.executes (c := 0) (e := 0) rfl (by simp [pair])
  have hin := hexec.entered (allocCall (PGADDR i t)).frame
  have hsin := h.scene.like hin
  generalize hk1 : k.entered 0 0 (allocCall (PGADDR i t)).frame = k1 at hin hsin
  obtain ⟨tf, runs, henv1⟩ := hin.envs 1
  have hfind : envid2env k1 0 0x1001 false = .ok 1 := by
    refine envid2env_of (by decide) (by decide) ?_ (by rw [henv1]; exact hid) (by simp)
    rw [hsin.status]
    simp [pair]
  have hcall : (allocCall (PGADDR i t)).run k1 0 0 0 = .ok (.back 0 { k1 with phys := m2 }) := by
    have hop : Sysno.ofWord (allocCall (PGADDR i t)).no = some .pageAlloc := rfl
    have hperm : PermOk 7 := by decide
    have hdir1 : (k1.envs 1).envPgdir = some d := by
      rw [henv1]
      exact hd
    have hret : sysPageAlloc k1 0 0x1001 (PGADDR i t) 7 = .ok (0, { k1 with phys := m2 }) := by
      rw [← hin.phys] at halloc
      simp only [sysPageAlloc, hperm, vaOk_PGADDR hi t, not_true_eq_false, if_false, hfind, hdir1,
        halloc, hins, bind, Except.bind]
      rfl
    simp only [Call.run, syscall, hop]
    exact bind_eq_ok.mpr ⟨_, hret, rfl⟩
  have hs1 : Scene { k1 with phys := m2 } (pair .notRunnable) parentOn [] :=
    ⟨hsin.status, hsin.curenv, hsin.started, hsin.halted, hsin.loaded⟩
  rw [← hk1] at hcall
  obtain ⟨k', hstep, hlike, hs'⟩ := h.scene.back (c := 0) (e := 0) rfl (by simp [pair]) hcall
    (hk1 ▸ hs1) (by simp [pair])
  rw [hk1] at hlike
  have hguard : MemGuard k ((allocCall (PGADDR i t)).act 0) :=
    ⟨fun _ _ _ => trivial, fun htrap => absurd (show T_SYSCALL = T_PGFLT from htrap) (by decide)⟩
  refine ⟨k', l', hstep, (MemKept.step h.inv hguard hstep).inv, ?_, hs', ?_, ?_⟩
  · have hdirs : Kernel.dirs { k1 with phys := m2 } = k.dirs := hin.near.dirs
    exact hlike.near.dirs.trans hdirs
  · obtain ⟨tf', runs', henv'⟩ := hlike.envs 1
    rw [henv']
    change (k1.envs 1).envId = _
    rw [henv1]
    exact hid
  · rw [hlike.phys]
    exact hmap

/-- The child has one more page. -/
theorem Draining.given (h : Draining K j (p :: l) k) {l' : List Ppn} {w : Word}
    (hinv : MemInv K k') (hdirs : k'.dirs = k.dirs) (hs : Scene k' (pair .notRunnable) parentOn [])
    (hid : (k'.envs 1).envId = 0x1001)
    (hmap : NewMapping K k.dirs l l' k.phys k'.phys 1 i t w)
    (hspare : l' ≠ [] → ¬ (i = 0 ∧ t = 0)) {n : Nat} (hj : j ≤ n) (hn : 1024 * i.val + t.val ≤ n)
    (hfirst : 0 < n → 0 < j ∨ i = 0) : Draining K n l' k' where
  scene := hs
  inv := hinv
  ledger := hdirs ▸ hmap.ledger
  child := by
    obtain ⟨-, d, hd⟩ := h.child
    exact ⟨hid, d, (congrFun hdirs 1).trans hd⟩
  stack := by
    obtain ⟨q, hq⟩ := h.stack
    refine ⟨q, ?_⟩
    rw [Kernel.mapped, hdirs, hmap.entries, setEntry_of_ne (by simp)]
    exact hq
  mapped := fun i' t' hne => by
    rw [Kernel.mapped, hdirs, hmap.entries] at hne
    by_cases hat : i' = i ∧ t' = t
    · obtain ⟨rfl, rfl⟩ := hat
      exact hn
    · rw [setEntry_of_ne fun hx => hat hx.2] at hne
      exact (h.mapped i' t' hne).trans hj
  spare := fun hl => by
    rw [Kernel.mapped, hdirs, hmap.entries, setEntry_of_ne fun hx => hspare hl ⟨hx.2.1.symm, hx.2.2.symm⟩]
    exact h.spare (List.cons_ne_nil p l)
  tables := fun i' hne => by
    rw [hdirs] at hne
    by_cases hat : i' = i
    · subst hat
      omega
    · rw [hmap.tables 1 i' (by simpa using hat)] at hne
      exact (h.tables i' hne).trans hj
  first := fun hpos => by
    rw [hdirs]
    by_cases hat : i = 0
    · subst hat
      intro hnone
      have hent := congrFun (congrFun (congrFun hmap.entries 1) 0) t
      rw [setEntry_self, entry_none_of_table hnone] at hent
      cases hent
    · rw [hmap.tables 1 0 (by simpa using Ne.symm hat)]
      exact h.first ((hfirst hpos).resolve_right hat)

/-- As long as two pages are free, one goes to the next address. -/
theorem Draining.next (h : Draining K j l k) (hl : 2 ≤ l.length) (hj : j < 2048) :
    ∃ a k' l', Step k a k' ∧ Draining K (j + 1) l' k' ∧ l'.length < l.length := by
  obtain ⟨p, l, rfl⟩ : ∃ p l', l = p :: l' := List.exists_cons_of_ne_nil (by
    rintro rfl
    simp at hl)
  rw [List.length_cons] at hl
  have hrest : l ≠ [] := by
    rintro rfl
    simp at hl
  obtain ⟨i, hi⟩ : ∃ i : Idx, i.val = (j + 1) / 1024 := ⟨⟨(j + 1) / 1024, by omega⟩, rfl⟩
  obtain ⟨t, ht⟩ : ∃ t : Idx, t.val = (j + 1) % 1024 := ⟨⟨(j + 1) % 1024, by omega⟩, rfl⟩
  have hsum : 1024 * i.val + t.val = j + 1 := by omega
  have huser : UserPdx i := show i.val < 955 by omega
  have hnone : k.mapped 1 i t = none := by
    by_contra hne
    have hle := h.mapped i t hne
    omega
  obtain ⟨k', l', hstep, hinv, hdirs, hs, hid, hmap⟩ := h.alloc huser hnone fun _ => hrest
  refine ⟨_, k', l', hstep, h.given hinv hdirs hs hid hmap ?_ (by omega) (by omega) ?_, ?_⟩
  · rintro - ⟨rfl, rfl⟩
    simp at hsum
  · intro _
    by_cases hpos : 0 < j
    · exact Or.inl hpos
    · refine Or.inr (Fin.ext ?_)
      show i.val = 0
      omega
  · obtain ⟨hs', htaken⟩ := hmap.taken
    have hlen := congrArg List.length htaken.split
    rw [List.length_append] at hlen
    rw [List.length_cons]
    omega

/-- The last page goes to address 0. -/
theorem Draining.last (h : Draining K j [p] k) (hj : 0 < j) :
    ∃ a k', Step k a k' ∧ Draining K j [] k' := by
  obtain ⟨k', l', hstep, hinv, hdirs, hs, hid, hmap⟩ := h.alloc (i := 0) (t := 0) (by decide)
    (h.spare (List.cons_ne_nil p [])) fun hnone => absurd hnone (h.first hj)
  obtain ⟨hs', htaken⟩ := hmap.taken
  obtain rfl : l' = [] := (List.append_eq_nil_iff.mp htaken.split.symm).2
  exact ⟨_, k', hstep, h.given hinv hdirs hs hid hmap (absurd rfl) le_rfl (by simp) Or.inl⟩

/-- All pages are taken, one or two at a time. -/
theorem Draining.drained (h : Draining K j l k) (hj : 0 < j ∨ 2 ≤ l.length)
    (hbound : j + l.length ≤ 2048) :
    ∃ tr n k', Run Step k tr k' ∧ Draining K n [] k' ∧ n ≤ 2048 := by
  induction hlen : l.length using Nat.strong_induction_on generalizing j l k with
  | _ len ih =>
    match l, h with
    | [], h => exact ⟨[], j, k, .nil k, h, by omega⟩
    | [p], h =>
      rw [List.length_singleton] at hj
      obtain ⟨a, k', hstep, h'⟩ := h.last (by omega)
      exact ⟨[a], j, k', .single hstep, h', by omega⟩
    | p :: q :: l, h =>
      rw [List.length_cons, List.length_cons] at hlen hbound
      obtain ⟨a, k1, l1, hstep, h1, hlt⟩ := h.next (by simp) (by omega)
      rw [List.length_cons, List.length_cons] at hlt
      obtain ⟨tr, n, k', hrun, h', hn⟩ := ih l1.length (by omega) h1 (Or.inl (Nat.succ_pos j))
        (by omega) rfl
      exact ⟨a :: tr, n, k', .cons hstep hrun, h', hn⟩

/-- The pages left are not the kernel's. -/
theorem Draining.length_le (h : Draining K j l k) {free : List Ppn} (hfree : ∀ p, ¬ K p → p ∈ free) :
    l.length ≤ free.length := by
  refine (h.ledger.pool.nodup.subperm fun p hp => hfree p fun hK => ?_).length_le
  exact (h.ledger.pool.fixed p hK).1 hp

theorem Family.draining (h : Family K k) (hs : Scene k (pair .notRunnable) parentOn []) :
    ∃ l, Draining K 0 l k ∧ 2 ≤ l.length := by
  obtain ⟨l, hl, hlen⟩ := h.room
  have hbare : ∀ i t, k.mapped 1 i t = none := fun i t => entry_none_of_table (h.bare i)
  refine ⟨l, ⟨hs, h.inv, hl, ⟨h.id1, h.dir1⟩, h.stack, fun i t hne => absurd (hbare i t) hne,
    fun _ => hbare 0 0, fun i hne => absurd (h.bare i) hne, fun h0 => absurd h0 (lt_irrefl 0)⟩, ?_⟩
  omega

/-- A parent and its child, and no free page. -/
theorem drained_exists : ∃ K k₀ tr k n, Boot k₀ ∧ Run Step k₀ tr k ∧ Draining K n [] k ∧ n ≤ 2048 := by
  obtain ⟨K, k₀, h, free, hfree, hmax⟩ := first_small
  obtain ⟨k1, hrun1, hfam, hs⟩ := h.forked
  obtain ⟨l, hl, hlen⟩ := hfam.draining hs
  obtain ⟨tr, n, k, hrun, hd, hn⟩ := hl.drained (Or.inr hlen)
    (by have hle := hl.length_le hfree; omega)
  exact ⟨K, k₀, _, k, n, h.boot, hrun1.append hrun, hd, hn⟩

/-! ## The last call -/

/-- `sys_page_map(0, stack, child, stack, PTE_P | PTE_W | PTE_U)`. -/
def mapStack : MemCall := .pageMap 0 stackVa 0x1001 stackVa 7

theorem Draining.finds (h : Draining K j l k) : envid2env k 0 0x1001 false = .ok 1 := by
  refine envid2env_of (by decide) (by decide) ?_ h.child.1 (by simp)
  rw [h.scene.status]
  simp [pair]

theorem Draining.freeList (h : Draining K j [] k) : k.phys.pageFreeList = none := by
  have hchain := h.ledger.pool.chain
  cases hx : k.phys.pageFreeList with
  | none => rfl
  | some q =>
    rw [hx] at hchain
    obtain ⟨l', hnil, -⟩ := hchain.of_some
    cases hnil

/-- Nothing is left for the child's page table, and the page to be mapped is mapped already. -/
theorem Draining.mapFails (h : Draining K j [] k) (hj : j ≤ 2048) :
    OutOfMem k 0 mapStack ∧ mapStack.run k 0 = .error "pp_ref != 0" := by
  obtain ⟨-, d1, hd1⟩ := h.child
  have hd0 : k.dirs 0 = some (k.cpus 0).cr3 := h.scene.loaded 0 0 rfl
  obtain ⟨p, hp⟩ := h.stack
  obtain ⟨t, hlook, hload⟩ := h.ledger.lookup_total hd0 hp
  have hnone : tableOf k.dirs k.phys 1 (PDX stackVa) = none := by
    by_contra hne
    have hle := h.tables _ hne
    have hidx : (PDX stackVa).val = 954 := by decide
    omega
  have hpde : ¬ PTE_VALID (k.phys.mem d1 (PDX stackVa)) := fun hv => by
    rw [tableOf_some.mpr ⟨by decide, d1, hd1, hv, rfl⟩] at hnone
    cases hnone
  have hwalk : pgdirWalk k.phys d1 stackVa true = .ok (none, k.phys) := by
    simp [pgdirWalk, Phys.load, hpde, pageAlloc, h.freeList, bind, Except.bind, pure, Except.pure]
  have hch : MapChecked k 0 0 stackVa 0x1001 stackVa 7 1 (k.cpus 0).cr3 d1
      (PGNUM (mkPte p (PTE_W ||| PTE_U))) (t, PTX stackVa) :=
    { permOk := by decide
      srcvaOk := by decide
      dstvaOk := by decide
      src := ⟨0, rfl, hd0⟩
      look := hlook
      write := fun _ => by
        rw [hload]
        exact (writable_mkPte p _).mpr (by decide)
      dst := h.finds
      dstdir := hd1 }
  refine ⟨⟨1, _, d1, _, _, k.phys, hch, hwalk⟩, ?_⟩
  have hused : 0 < uses k.dirs k.phys [] (PGNUM (mkPte p (PTE_W ||| PTE_U))) :=
    total_pos (target_user hp)
  have hnotK := h.ledger.not_kernel (target_user hp)
  have hnarrow : uses k.dirs k.phys [] (PGNUM (mkPte p (PTE_W ||| PTE_U))) < 65536 :=
    h.inv.sound.narrow _
  have href : (k.phys.pages (PGNUM (mkPte p (PTE_W ||| PTE_U)))).ppRef ≠ 0 := by
    rw [h.ledger.pool.count _ hnotK]
    intro hzero
    have hmod := congrArg BitVec.toNat hzero
    rw [BitVec.toNat_ofNat, Nat.mod_eq_of_lt hnarrow] at hmod
    exact absurd hmod hused.ne'
  have hpanic : pageFree k.phys (PGNUM (mkPte p (PTE_W ||| PTE_U))) = .error "pp_ref != 0" := by
    simp only [pageFree, href, ne_eq, not_false_eq_true, if_true]
  exact (sysPageMap_noTable hch hwalk).trans (by rw [hpanic]; rfl)

/-- `sys_page_alloc` finds nothing either. -/
theorem Draining.allocFails (h : Draining K j [] k) : OutOfMem k 0 (.pageAlloc 0 0 7) := by
  refine ⟨by decide, by decide, 0, rfl, Or.inl ?_⟩
  simp [pageAlloc, h.freeList]

end

/-- When `page_alloc` returns NULL in a call, the caller is told and nothing else happens in
`sys_exofork`, and in `sys_page_alloc` if the first free page is spare; in `sys_page_map` and
`sys_ipc_try_send` never.  The first free page is spare in every state of a run in which no
counter wraps. -/
theorem exhaustion_reported_iff (k : Kernel) (cur : Slot) (q : MemCall) (h : OutOfMem k cur q) :
    (Reported k cur q ↔
      match q with
      | .exofork => True
      | .pageAlloc .. => HeadSpare k
      | .pageMap .. | .ipcTrySend .. => False) ∧
    ∀ k₀ tr, Boot k₀ → Run (Guarded MemGuard Step) k₀ tr k → HeadSpare k := by
  refine ⟨reported_by_kind h, fun k₀ tr hboot hrun => ?_⟩
  obtain ⟨K, hinv⟩ := MemInv.boot hboot
  have hkept : MemInv K k := hrun.preserves (I := MemInv K)
    (fun _ _ _ hI hs => (MemKept.step hI hs.1 hs.2).inv) hinv
  exact hkept.headSpare

/-- The parent that has taken all memory is told so. -/
theorem exhaustion_reported_drained : ∃ k₀ tr k, Boot k₀ ∧ Run Step k₀ tr k ∧
    OutOfMem k 0 (.pageAlloc 0 0 7) ∧ Reported k 0 (.pageAlloc 0 0 7) := by
  obtain ⟨K, k₀, tr, k, n, hboot, hrun, hd, -⟩ := drained_exists
  exact ⟨k₀, tr, k, hboot, hrun, hd.allocFails,
    (exhaustion_reported_iff k 0 _ hd.allocFails).1.mpr hd.inv.headSpare⟩

/-- When it then maps its stack page for its child, the kernel panics. -/
theorem exhaustion_panics : ∃ k₀ tr k, Boot k₀ ∧ Run Step k₀ tr k ∧ Executes k 0 0 ∧
    OutOfMem k 0 mapStack ∧ mapStack.run k 0 = .error "pp_ref != 0" ∧ ¬ Reported k 0 mapStack := by
  obtain ⟨K, k₀, tr, k, n, hboot, hrun, hd, hn⟩ := drained_exists
  obtain ⟨hfails, hpanic⟩ := hd.mapFails hn
  refine ⟨k₀, tr, k, hboot, hrun, hd.scene.executes rfl (by simp [pair]), hfails, hpanic, ?_⟩
  rintro ⟨k', hk', -⟩
  rw [hpanic] at hk'
  cases hk'

end SisOp.Jos
