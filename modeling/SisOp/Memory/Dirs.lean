/-
# `SisOp.Memory.Dirs` — whole address spaces and the memory invariant

What `env_setup_vm` and `env_free` do to the invariant, and what a byte stored in
user mode does: through a directory of a live environment it can only reach a page
that some entry maps writable, so no counter, no directory and no page table is
affected (`Ledger.userStore`).
-/
import SisOp.Memory.Ops

namespace SisOp.Jos

open SisOp.Lib

section

variable {K : Ppn → Prop} {dirs : Slot → Option Ppn} {held l : List Ppn} {m m' m0 : Phys}
  {e : Slot} {i j : Idx} {p d t kva : Ppn} {va w : Word}

/-! ## Pages with data -/

/-- A page that is neither the kernel's nor a directory or page table may be written. -/
theorem Ledger.write (h : Ledger K dirs held l m) (hK : ¬ K p) (htab : ¬ IsTab dirs m p)
    (hmem : ∀ q, q ≠ p → m'.mem q = m.mem q) (hpages : m'.pages = m.pages)
    (hlist : m'.pageFreeList = m.pageFreeList) (hn : m'.npages = m.npages)
    (hk : m'.kernPgdir = m.kernPgdir) :
    Ledger K dirs held l m' ∧ target dirs m' = target dirs m ∧ entry dirs m' = entry dirs m := by
  have hsame := entry_write_data dirs m m' fun q hq =>
    hmem q fun heq => htab (heq ▸ hq)
  have htgt := target_congr hsame.1 hsame.2
  refine ⟨?_, htgt, hsame.2⟩
  exact
    { h.toKernPart.congr hk (fun q hq => hmem q fun heq => hK (heq ▸ hq))
        fun e d i hd _ => by rw [hmem d fun heq => htab ⟨.dir e, trivial, heq ▸ hd⟩] with
      pool := by
        rw [htgt, hlist, hpages]
        exact h.pool
      bound := fun q hq => by
        rw [hn]
        rw [uses, htgt] at hq
        exact h.bound q hq }

/-! ## Directories -/

/-- `e->env_pgdir = kva` for a prepared directory: a held reference is stored. -/
theorem Ledger.set_dir (h : Ledger K dirs (kva :: held) l m) (hnone : dirs e = none)
    (hone : uses dirs m (kva :: held) kva = 1)
    (hupper : ∀ i, ¬ UserPdx i → m.mem kva i =
      if i = PDX UVPT then page2pa kva ||| PTE_P ||| PTE_U else m.mem m.kernPgdir i)
    (hblank : ∀ i, UserPdx i → ¬ PTE_VALID (m.mem kva i)) :
    Ledger K (Function.update dirs e (some kva)) held l m ∧
      entry (Function.update dirs e (some kva)) m = entry dirs m ∧
      target (Function.update dirs e (some kva)) m =
        Function.update (target dirs m) (.dir e) (some kva) := by
  have hbefore : ∀ i, tableOf dirs m e i = none := fun i => by
    rw [tableOf, hnone]
    exact ite_self none
  have hafter : ∀ i, tableOf (Function.update dirs e (some kva)) m e i = none := fun i => by
    by_cases hi : UserPdx i
    · rw [tableOf, if_pos hi, Function.update_self, Option.bind_some, if_neg (hblank i hi)]
    · exact tableOf_none_of_not_user hi
  obtain ⟨hent, htgt⟩ := target_set_dir (x := some kva) hbefore hafter
  have hempty : target dirs m (.dir e) = none := hnone
  refine ⟨?_, hent, htgt⟩
  exact
    { kern := h.kern
      blank := h.blank
      shield := h.shield
      upper := fun e' d i hd hi => by
        rcases eq_or_ne e' e with rfl | hne
        · rw [Function.update_self] at hd
          obtain rfl := Option.some.inj hd
          exact hupper i hi
        · rw [Function.update_of_ne hne] at hd
          exact h.upper e' d i hd hi
      pool := by
        rw [htgt]
        exact h.pool.link hempty fun _ => hone
      bound := fun p hp => h.bound p (by rwa [uses, htgt, total_link hempty] at hp) }

/-- `e->env_pgdir = 0` for a directory without page tables: the reference is held. -/
theorem Ledger.clear_dir (h : Ledger K dirs held l m) (hd : dirs e = some d)
    (hempty : ∀ i, tableOf dirs m e i = none) :
    Ledger K (Function.update dirs e none) (d :: held) l m ∧
      entry (Function.update dirs e none) m = entry dirs m ∧
      target (Function.update dirs e none) m = Function.update (target dirs m) (.dir e) none := by
  have hafter : ∀ i, tableOf (Function.update dirs e none) m e i = none := fun i => by
    rw [tableOf, Function.update_self]
    exact ite_self none
  obtain ⟨hent, htgt⟩ := target_set_dir (x := none) hempty hafter
  have hdir : target dirs m (.dir e) = some d := hd
  refine ⟨?_, hent, htgt⟩
  exact
    { kern := h.kern
      blank := h.blank
      shield := h.shield
      upper := fun e' d' i hd' hi => by
        rcases eq_or_ne e' e with rfl | hne
        · rw [Function.update_self] at hd'
          cases hd'
        · rw [Function.update_of_ne hne] at hd'
          exact h.upper e' d' i hd' hi
      pool := by
        rw [htgt]
        exact h.pool.unlink hdir
      bound := fun p hp => h.bound p (by rwa [uses, htgt, total_unlink hdir] at hp) }

/-- `env_setup_vm`: a new directory, which maps nothing below `UTOP`. -/
theorem Ledger.setupVm (h : Ledger K dirs held l m) (hnone : dirs e = none)
    (hsetup : SetupVm m kva m') :
    ∃ l', l = kva :: l' ∧ Ledger K (Function.update dirs e (some kva)) held l' m' ∧
      entry (Function.update dirs e (some kva)) m' = entry dirs m ∧
      Touches dirs m (Function.update dirs e (some kva)) m' [kva] ∧
      UsesKept dirs m held (Function.update dirs e (some kva)) m' held [kva] := by
  obtain ⟨m1, halloc, -, rfl⟩ := hsetup
  obtain ⟨l', rfl, h1, hfresh, hhanded, -⟩ := h.pageAlloc halloc
  have h2 := h1.incref hfresh.notMem hfresh.notKernel hfresh.not_isTab hfresh.bound
  set m2 := ((m1.incref kva).fill kva (m1.mem m1.kernPgdir)).store (kva, PDX UVPT)
    (page2pa kva ||| PTE_P ||| PTE_U) with hm2
  have hmem : ∀ q, q ≠ kva → m2.mem q = m1.mem q := fun q hq => by
    rw [hm2, store_mem_of_ne' hq, fill_mem, Function.update_of_ne hq, incref_mem]
  have hself : ∀ i, m2.mem kva i =
      if i = PDX UVPT then page2pa kva ||| PTE_P ||| PTE_U else m1.mem m1.kernPgdir i := fun i => by
    by_cases hi : i = PDX UVPT
    · rw [if_pos hi, hm2, hi, store_mem_self]
    · rw [if_neg hi, hm2, store_mem_of_ne (Or.inr hi), fill_mem, Function.update_self]
  have hnotkern : m1.kernPgdir ≠ kva := fun heq => hfresh.notKernel (heq ▸ h1.kern)
  obtain ⟨h3, htgt3, hent3⟩ := h2.write (p := kva) hfresh.notKernel hfresh.not_isTab
    hmem rfl rfl rfl rfl
  have huses3 : ∀ p, uses dirs m2 (kva :: held) p = uses dirs m (kva :: held) p := fun p => by
    rw [uses, uses, htgt3, ← hhanded.targets]
    rfl
  have hzero : uses dirs m held kva = 0 := by
    rw [uses, ← hhanded.targets]
    exact hfresh.unused
  have hone : uses dirs m (kva :: held) kva = 1 :=
    (total_cons_self kva).trans (congrArg (· + 1) hzero)
  obtain ⟨h4, hent4, htgt4⟩ := h3.set_dir hnone ((huses3 kva).trans hone)
    (fun i _ => by
      rw [hself i, show m2.kernPgdir = m1.kernPgdir from rfl, hmem _ hnotkern])
    (fun i hi => by
      have hne : i ≠ PDX UVPT := fun heq => absurd (heq ▸ hi) (by decide)
      rw [hself i, if_neg hne]
      exact h1.blank i hi)
  have huses4 : ∀ p, uses (Function.update dirs e (some kva)) m2 held p =
      uses dirs m (kva :: held) p := fun p => by
    rw [← huses3, uses, htgt4]
    exact total_link hnone
  refine ⟨l', rfl, h4, ?_, ?_, fun p => ?_⟩
  · rw [hent4, hent3]
    exact hhanded.entries
  · exact
      { npages := hhanded.npages
        kernPgdir := hhanded.kernPgdir
        handed := hhanded.handed
        data := fun p hp _ => by
          have hne : p ≠ kva := by simpa using hp
          rw [hmem p hne, hhanded.mem p hne]
        tabs := fun p htab => by
          obtain ⟨r, hr, hrp⟩ := htab
          rw [htgt4] at hrp
          rcases eq_or_ne r (.dir e) with rfl | hne
          · rw [Function.update_self] at hrp
            exact Or.inl (List.mem_singleton.mpr (Option.some.inj hrp).symm)
          · rw [Function.update_of_ne hne, htgt3] at hrp
            exact Or.inr ⟨r, hr, hhanded.targets ▸ hrp⟩ }
  · rw [huses4]
    by_cases hp : kva = p
    · subst hp
      exact Or.inr ⟨List.mem_singleton_self _, hone.le⟩
    · exact Or.inl (total_cons_of_ne hp).le

/-! ## Freeing an address space -/

/-- What a step of `env_free` leaves: fewer references and nothing new. -/
structure Shrunk (K : Ppn → Prop) (dirs : Slot → Option Ppn) (m : Phys)
    (dirs' : Slot → Option Ppn) (m' : Phys) : Prop where
  ledger : ∃ l, Ledger K dirs' [] l m'
  touches : Touches dirs m dirs' m' []
  fewer : ∀ p, uses dirs' m' [] p ≤ uses dirs m [] p

theorem Shrunk.refl (h : Ledger K dirs [] l m) : Shrunk K dirs m dirs m :=
  ⟨⟨l, h⟩, .refl dirs m, fun _ => le_rfl⟩

theorem Shrunk.trans {dirs' dirs'' : Slot → Option Ppn} {m'' : Phys}
    (h : Shrunk K dirs m dirs' m') (h' : Shrunk K dirs' m' dirs'' m'') :
    Shrunk K dirs m dirs'' m'' where
  ledger := h'.ledger
  touches := h.touches.trans h'.touches
  fewer := fun p => (h'.fewer p).trans (h.fewer p)

/-- One place gives its reference up: the counter goes down, and the page may be freed. -/
theorem Shrunk.decref {dirs' : Slot → Option Ppn} {r : Ref}
    (hr : target dirs m r = some p) (h1 : Ledger K dirs' [p] l m0)
    (htgt : target dirs' m0 = Function.update (target dirs m) r none)
    (htouch : Touches dirs m dirs' m0 []) (hfit : uses dirs m [] p < 2 ^ 16)
    (hdec : pageDecref m0 p = .ok m') :
    Shrunk K dirs m dirs' m' ∧ entry dirs' m' = entry dirs' m0 ∧
      tableOf dirs' m' = tableOf dirs' m0 := by
  have huses : ∀ q, uses dirs' m0 [p] q = uses dirs m [] q := fun q => by
    rw [uses, htgt]
    exact total_unlink hr
  obtain ⟨l', hl', hmem, hn, hk, hh⟩ := h1.pageDecref (by rw [huses]; exact hfit) hdec
  have hsame := entry_write_data dirs' m0 m' fun q _ => by rw [hmem]
  have htgt' := target_congr hsame.1 hsame.2
  refine ⟨⟨⟨l', hl'⟩, ?_, fun q => ?_⟩, hsame.2, hsame.1⟩
  · have htouch' : Touches dirs' m0 dirs' m' [] :=
      .of_target htgt' hn hk hh fun q _ _ => by rw [hmem]
    exact htouch.trans htouch'
  · have hle := huses q
    rw [uses, total_cons] at hle
    rw [uses, htgt']
    omega

/-- A fold that may fail keeps what its turns keep, `P` being told what is still to do. -/
theorem foldlM_rest {ε σ α : Type} {f : σ → α → Except ε σ} {P : List α → σ → Prop}
    (hf : ∀ a rest s s', P (a :: rest) s → f s a = .ok s' → P rest s') {l : List α} :
    ∀ {s s' : σ}, P l s → l.foldlM f s = .ok s' → P [] s' := by
  induction l with
  | nil =>
      intro s s' hs h
      cases h
      exact hs
  | cons a l ih =>
      intro s s' hs h
      rw [List.foldlM_cons, bind_eq_ok] at h
      obtain ⟨s1, h1, h⟩ := h
      exact ih (hf a l s s1 hs h1) h

/-- The inner loop of `env_free`: no entry of the page table is left. -/
theorem Ledger.freeTable (h : Ledger K dirs [] l m) (hd : dirs e = some d) (hi : UserPdx i)
    (ht : tableOf dirs m e i = some t) (hnarrow : ∀ p, uses dirs m [] p < 2 ^ 16)
    (hloop : (List.finRange 1024).foldlM (fun m pteno =>
      if m.load (t, pteno) &&& PTE_P ≠ 0 then SisOp.Jos.pageRemove m d (PGADDR i pteno) else pure m) m =
        .ok m') :
    Shrunk K dirs m dirs m' ∧ tableOf dirs m' = tableOf dirs m ∧
      (∀ j, entry dirs m' e i j = none) ∧
      ∀ e' i', ¬ (e' = e ∧ i' = i) → entry dirs m' e' i' = entry dirs m e' i' := by
  have hinv := foldlM_rest (P := fun rest m1 => Shrunk K dirs m dirs m1 ∧
      tableOf dirs m1 = tableOf dirs m ∧ (∀ j, j ∉ rest → entry dirs m1 e i j = none) ∧
      ∀ e' i', ¬ (e' = e ∧ i' = i) → entry dirs m1 e' i' = entry dirs m e' i')
    (fun a rest m1 m2 hrest hstep => ?_)
    ⟨.refl h, rfl, fun j hj => absurd (List.mem_finRange j) hj, fun _ _ _ => rfl⟩ hloop
  · obtain ⟨hshr, htab, hdone, hother⟩ := hinv
    exact ⟨hshr, htab, fun j => hdone j List.not_mem_nil, hother⟩
  · obtain ⟨hshr, htab, hdone, hother⟩ := hrest
    obtain ⟨l1, h1⟩ := hshr.ledger
    have ht1 : tableOf dirs m1 e i = some t := htab ▸ ht
    have hent := entry_of_table (j := a) ht1
    split at hstep
    · have hfit : ∀ w, entry dirs m1 e (PDX (PGADDR i a)) (PTX (PGADDR i a)) = some w →
          uses dirs m1 [] (PGNUM w) < 2 ^ 16 :=
        fun w _ => (hshr.fewer _).trans_lt (hnarrow _)
      obtain ⟨l2, hr, htab2, hfewer⟩ := h1.pageRemove hd (by simpa using hi) hfit hstep
      rw [PDX_PGADDR, PTX_PGADDR] at hr
      refine ⟨hshr.trans ⟨⟨l2, hr.ledger⟩, hr.touches, hfewer⟩, htab2.trans htab, fun j hj => ?_,
        fun e' i' hne => ?_⟩
      · rw [hr.entries]
        by_cases hja : j = a
        · rw [hja, setEntry_self]
        · rw [setEntry_of_ne fun heq => hja heq.2.2]
          exact hdone j fun hmem => hj ((List.mem_cons.mp hmem).resolve_left hja)
      · rw [← hother e' i' hne, hr.entries]
        funext j
        exact setEntry_of_ne fun heq => hne ⟨heq.1, heq.2.1⟩
    · rename_i hclear
      cases hstep
      refine ⟨hshr, htab, fun j hj => ?_, hother⟩
      by_cases hja : j = a
      · have hv : ¬ PTE_VALID (m1.mem t a) := fun hv => hclear (PTE_VALID_iff.mp hv)
        rw [hja, hent, if_neg hv]
      · exact hdone j fun hmem => hj ((List.mem_cons.mp hmem).resolve_left hja)

/-- One turn of the outer loop: the page table is gone. -/
theorem Ledger.freePde (h : Ledger K dirs [] l m) (hd : dirs e = some d) (hi : UserPdx i)
    (hnarrow : ∀ p, uses dirs m [] p < 2 ^ 16) (hfree : envFreePde m d i = .ok m') :
    Shrunk K dirs m dirs m' ∧ tableOf dirs m' e i = none ∧
      ∀ e' i', ¬ (e' = e ∧ i' = i) →
        tableOf dirs m' e' i' = tableOf dirs m e' i' ∧ entry dirs m' e' i' = entry dirs m e' i' := by
  unfold envFreePde at hfree
  by_cases hv : PTE_VALID (m.mem d i)
  · have hnz : ¬ m.load (d, i) &&& PTE_P = 0 := PTE_VALID_iff.mp hv
    simp only [if_neg hnz, bind_eq_ok] at hfree
    obtain ⟨t, hkva, m1, hloop, q, hq, hdec⟩ := hfree
    have hteq := KADDR_ok hkva
    have hqeq := pa2page_ok hq
    rw [PGNUM_PTE_ADDR] at hteq hqeq
    have ht : tableOf dirs m e i = some t :=
      tableOf_some.mpr ⟨hi, d, hd, hv, hteq.symm⟩
    obtain rfl : q = t := hqeq.trans hteq.symm
    obtain ⟨hshr, htab, hempty, hother⟩ := h.freeTable hd hi ht hnarrow hloop
    obtain ⟨l1, h1⟩ := hshr.ledger
    have hdir1 : target dirs m1 (.dir e) = some d := hd
    have ht1 : target dirs m1 (.table e i) = some q := by
      rw [target, htab]
      exact ht
    have hnone : tableOf dirs (m1.store (d, i) 0) e i = none := by
      rw [tableOf, if_pos hi, hd, Option.bind_some, store_mem_self, if_neg not_PTE_VALID_zero]
    obtain ⟨hent2, htgt2⟩ := target_store_pde (m := m1) (w := 0) hd hi
      (fun r hr => h1.sole_ref (r := .dir e) trivial hdir1 hr) hempty
      fun j => entry_none_of_table hnone
    rw [if_neg not_PTE_VALID_zero] at htgt2
    have huses : ∀ p, uses dirs (m1.store (d, i) 0) [q] p = uses dirs m1 [] p := fun p => by
      rw [uses, htgt2]
      exact total_unlink ht1
    have hpool := h1.pool.unlink ht1
    rw [← htgt2] at hpool
    have h2 := h1.of_store (q := (d, i)) (w := 0) hdir1 (fun _ _ => hi) hpool huses
    have htouch : Touches dirs m1 dirs (m1.store (d, i) 0) [] :=
      .store (r := .dir e) trivial hdir1 fun p htab => by
        obtain ⟨r, hr, hrp⟩ := htab
        rw [htgt2] at hrp
        rcases eq_or_ne r (.table e i) with rfl | hne
        · rw [Function.update_self] at hrp
          cases hrp
        · rw [Function.update_of_ne hne] at hrp
          exact ⟨r, hr, hrp⟩
    obtain ⟨hshr2, hent3, htab3⟩ := Shrunk.decref ht1 h2 htgt2 htouch
      ((hshr.fewer _).trans_lt (hnarrow _)) hdec
    refine ⟨hshr.trans hshr2, by rw [htab3, hnone], fun e' i' hne => ⟨?_, ?_⟩⟩
    · have hne' : Ref.table e' i' ≠ .table e i := fun heq => by
        cases heq
        exact hne ⟨rfl, rfl⟩
      have hsame := congrFun htgt2 (.table e' i')
      rw [Function.update_of_ne hne'] at hsame
      have hsame' : tableOf dirs (m1.store (d, i) 0) e' i' = tableOf dirs m1 e' i' := hsame
      rw [htab3, hsame', htab]
    · rw [hent3, hent2]
      exact hother e' i' hne
  · have hz : m.load (d, i) &&& PTE_P = 0 := by_contra fun hz => hv (PTE_VALID_iff.mpr hz)
    rw [if_pos hz] at hfree
    cases hfree
    refine ⟨.refl h, ?_, fun _ _ _ => ⟨rfl, rfl⟩⟩
    rw [tableOf, if_pos hi, hd, Option.bind_some, if_neg hv]

theorem mem_userPdxs : i ∈ userPdxs ↔ UserPdx i := by
  rw [userPdxs, List.mem_take_iff_getElem, PDX_UTOP]
  simp only [List.length_finRange, List.getElem_finRange, UserPdx]
  constructor
  · rintro ⟨n, hn, rfl⟩
    simp only [Fin.val_cast]
    omega
  · intro hi
    refine ⟨i.val, by omega, Fin.ext ?_⟩
    simp only [Fin.val_cast]

/-- `env_free`: everything the environment had mapped is given up. -/
theorem Ledger.freeMem (h : Ledger K dirs [] l m) (hd : dirs e = some d)
    (hnarrow : ∀ p, uses dirs m [] p < 2 ^ 16) (hfree : freeMem m d = .ok m') :
    Shrunk K dirs m (Function.update dirs e none) m' ∧
      ∀ e' i j, entry (Function.update dirs e none) m' e' i j =
        if e' = e then none else entry dirs m e' i j := by
  simp only [SisOp.Jos.freeMem, bind_eq_ok] at hfree
  obtain ⟨m1, hloop, q, hq, hdec⟩ := hfree
  obtain rfl := pa2page_ok hq
  have hinv := foldlM_rest (P := fun rest m1 => (∀ i ∈ rest, UserPdx i) ∧ Shrunk K dirs m dirs m1 ∧
      (∀ i, i ∉ rest → tableOf dirs m1 e i = none) ∧
      ∀ e' i, e' ≠ e → entry dirs m1 e' i = entry dirs m e' i)
    (fun a rest m1 m2 hrest hstep => ?_)
    ⟨fun i => mem_userPdxs.mp, .refl h,
      fun i hi => tableOf_none_of_not_user fun hu => hi (mem_userPdxs.mpr hu), fun _ _ _ => rfl⟩
    hloop
  · obtain ⟨-, hshr, hdone, hother⟩ := hinv
    obtain ⟨l1, h1⟩ := hshr.ledger
    have hdir1 : target dirs m1 (.dir e) = some q := hd
    obtain ⟨h2, hent2, htgt2⟩ := h1.clear_dir hd fun i => hdone i List.not_mem_nil
    have htouch : Touches dirs m1 (Function.update dirs e none) m1 [] :=
      { npages := rfl
        kernPgdir := rfl
        handed := rfl
        data := fun _ _ _ => rfl
        tabs := fun p htab => by
          obtain ⟨r, hr, hrp⟩ := htab
          rw [htgt2] at hrp
          rcases eq_or_ne r (.dir e) with rfl | hne
          · rw [Function.update_self] at hrp
            cases hrp
          · rw [Function.update_of_ne hne] at hrp
            exact Or.inr ⟨r, hr, hrp⟩ }
    obtain ⟨hshr2, hent3, -⟩ := Shrunk.decref hdir1 h2 htgt2 htouch
      ((hshr.fewer _).trans_lt (hnarrow _)) hdec
    refine ⟨hshr.trans hshr2, fun e' i j => ?_⟩
    rw [hent3, hent2]
    by_cases he : e' = e
    · rw [if_pos he, he]
      exact entry_none_of_table (hdone i List.not_mem_nil)
    · rw [if_neg he, hother e' i he]
  · obtain ⟨huser, hshr, hdone, hother⟩ := hrest
    obtain ⟨l1, h1⟩ := hshr.ledger
    have hnarrow1 : ∀ p, uses dirs m1 [] p < 2 ^ 16 := fun p => (hshr.fewer p).trans_lt (hnarrow p)
    obtain ⟨hshr2, hgone, hrest⟩ := h1.freePde hd (huser a List.mem_cons_self) hnarrow1 hstep
    refine ⟨fun i hi => huser i (List.mem_cons_of_mem _ hi), hshr.trans hshr2, fun i hi => ?_,
      fun e' i he => ?_⟩
    · by_cases hia : i = a
      · rw [hia, hgone]
      · rw [(hrest e i fun heq => hia heq.2).1]
        exact hdone i fun hmem => hi ((List.mem_cons.mp hmem).resolve_left hia)
    · rw [(hrest e' i fun heq => he heq.1).2, hother e' i he]

/-! ## Stores through a directory -/

/-- An entry that allows an access is present. -/
theorem valid_of_flags {flags : Word} (hf : flags &&& PTE_P = PTE_P) (hw : w &&& flags = flags) :
    PTE_VALID w := by
  refine PTE_VALID_iff.mpr fun h0 => ?_
  have hp : w &&& PTE_P = PTE_P := by
    rw [← hf, ← BitVec.and_assoc, hw]
  rw [h0] at hp
  exact absurd hp (by decide)

/-- Below `UTOP` the hardware's walk ends in a page some entry maps. -/
theorem translate_entry {flags : Word} {q : PtePtr} (hd : dirs e = some d)
    (hi : UserPdx (PDX va)) (hf : flags &&& PTE_P = PTE_P)
    (h : translate m d va flags = some q) :
    ∃ w, entry dirs m e (PDX va) (PTX va) = some w ∧ w &&& flags = flags ∧ q.1 = PGNUM w := by
  unfold translate at h
  simp only at h
  split at h
  · rename_i hflags
    cases h
    have ht : tableOf dirs m e (PDX va) = some (PGNUM (m.mem d (PDX va))) :=
      tableOf_some.mpr ⟨hi, d, hd, valid_of_flags hf hflags.1, rfl⟩
    refine ⟨_, ?_, hflags.2, rfl⟩
    rw [entry_of_table ht, if_pos (valid_of_flags hf hflags.2)]
  · cases h

/-- Above `UTOP` there is nothing to write to in user mode. -/
theorem KernPart.translate_none (h : KernPart K dirs m) (hd : dirs e = some d)
    (hi : ¬ UserPdx (PDX va)) : translate m d va userWrite = none := by
  unfold translate
  simp only
  rw [if_neg]
  rintro ⟨hpde, hpte⟩
  rw [h.upper e d _ hd hi] at hpde hpte
  by_cases huvpt : PDX va = PDX UVPT
  · rw [if_pos huvpt] at hpde
    have hw : Writable (mkPte d PTE_U) := fun h0 => by
      have hflags : mkPte d PTE_U &&& userWrite = userWrite := by
        rw [mkPte, show page2pa d ||| PTE_U ||| PTE_P = page2pa d ||| PTE_P ||| PTE_U by ac_rfl]
        exact hpde
      have hand := congrArg (· &&& PTE_W) hflags
      simp only [BitVec.and_assoc] at hand
      rw [show userWrite &&& PTE_W = PTE_W by decide, h0] at hand
      exact absurd hand (by decide)
    exact absurd ((writable_mkPte d PTE_U).mp hw) (by decide)
  · rw [if_neg huvpt] at hpde hpte
    have hv : PTE_VALID (m.mem m.kernPgdir (PDX va)) := valid_of_flags (by decide) hpde
    exact (h.shield _ hi huvpt hv).2 _ hpte

/-- What a store leaves: only data has changed. -/
structure Poked (K : Ppn → Prop) (dirs : Slot → Option Ppn) (held l : List Ppn) (m m' : Phys) :
    Prop where
  ledger : Ledger K dirs held l m'
  targets : target dirs m' = target dirs m
  entries : entry dirs m' = entry dirs m
  npages : m'.npages = m.npages
  handed : m'.handed = m.handed

/-- A byte is stored below `UTOP`, or in user mode. -/
theorem Ledger.storeByte {flags : Word} {b : Byte} (h : Ledger K dirs held l m)
    (hd : dirs e = some d) (hf : flags &&& PTE_P = PTE_P)
    (hva : UserPdx (PDX va) ∨ flags = userWrite) (hstore : storeByte m d va flags b = some m') :
    Poked K dirs held l m m' := by
  rw [SisOp.Jos.storeByte, Option.map_eq_some_iff] at hstore
  obtain ⟨q, htrans, rfl⟩ := hstore
  have hi : UserPdx (PDX va) := by
    rcases hva with hi | rfl
    · exact hi
    · by_contra hi
      rw [h.toKernPart.translate_none hd hi] at htrans
      cases htrans
  obtain ⟨w, hw, -, hq⟩ := translate_entry hd hi hf htrans
  have htgt := target_user hw
  obtain ⟨h1, htgt1, hent1⟩ := h.write
    (p := q.1) (hq ▸ h.not_kernel htgt) (hq ▸ h.not_isTab_of_user htgt)
    (fun p hp => store_mem_of_ne' hp) rfl rfl rfl rfl
  exact ⟨h1, htgt1, hent1, rfl, rfl⟩

theorem Ledger.storeBytes {flags : Word} (hd : dirs e = some d) (hf : flags &&& PTE_P = PTE_P)
    (bs : List Byte) : ∀ {m m' : Phys} {va : Word}, Ledger K dirs held l m →
      va.toNat + bs.length ≤ UTOP.toNat → storeBytes m d flags va bs = some m' →
      Poked K dirs held l m m' := by
  induction bs with
  | nil =>
      intro m m' va h _ hstore
      cases hstore
      exact ⟨h, rfl, rfl, rfl, rfl⟩
  | cons b bs ih =>
      intro m m' va h hle hstore
      rw [SisOp.Jos.storeBytes, Option.bind_eq_some_iff] at hstore
      obtain ⟨m1, hb, hbs⟩ := hstore
      rw [List.length_cons, UTOP_toNat] at hle
      have hi : UserPdx (PDX va) := by
        rw [userPdx_iff, BitVec.lt_def, UTOP_toNat]
        omega
      have hp := h.storeByte hd hf (Or.inl hi) hb
      cases hbs' : bs with
      | nil =>
          subst hbs'
          cases hbs
          exact hp
      | cons b' bs' =>
          subst hbs'
          have hnext : (va + 1).toNat = va.toNat + 1 := by
            rw [List.length_cons] at hle
            rw [BitVec.toNat_add]
            exact Nat.mod_eq_of_lt (by simp; omega)
          have hp' := ih hp.ledger (by rw [hnext, UTOP_toNat]; omega) hbs
          exact ⟨hp'.ledger, hp'.targets.trans hp.targets, hp'.entries.trans hp.entries,
            hp'.npages.trans hp.npages, hp'.handed.trans hp.handed⟩

end

end SisOp.Jos
