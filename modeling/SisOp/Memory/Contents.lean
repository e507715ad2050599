/-
# `SisOp.Memory.Contents` — what an address space holds

`byteAt` reads an environment's memory through its page table entries.  Each page
function changes the bytes of one page of one environment and no others (`Frame`), as long as
the page that is written to has no second mapping (`Solo`).
-/
import SisOp.Memory.Calls

namespace SisOp.Jos

open SisOp.Lib

theorem wordIdx_lt (va : Word) : va.toNat / 4 % 1024 < 1024 := Nat.mod_lt _ (Nat.succ_pos 1023)

/-- The index in its page of the word that holds `va`. -/
def wordIdx (va : Word) : Idx := ⟨va.toNat / 4 % 1024, wordIdx_lt va⟩

/-- The byte that `e` has mapped at `va`. -/
def byteAt (dirs : Slot → Option Ppn) (m : Phys) (e : Slot) (va : Word) : Option Byte :=
  (entry dirs m e (PDX va) (PTX va)).map fun w => byteOf (m.mem (PGNUM w) (wordIdx va)) (va.toNat % 4)

/-- The number of the page `va` lies on. -/
def vpn (va : Word) : Nat := va.toNat / 4096

/-- The page at `va` is mapped there, writable, and nowhere else. -/
def Solo (dirs : Slot → Option Ppn) (m : Phys) (e : Slot) (va : Word) : Prop :=
  ∃ w, entry dirs m e (PDX va) (PTX va) = some w ∧ uses dirs m [] (PGNUM w) = 1 ∧ w &&& userWrite = userWrite

/-- Everything but the addresses `P` of `e` holds what it held. -/
def Keeps (dirs : Slot → Option Ppn) (m m' : Phys) (e : Slot) (P : Word → Prop) : Prop :=
  ∀ f a, ¬ (f = e ∧ P a) → byteAt dirs m' f a = byteAt dirs m f a

/-- ... and is mapped where it was mapped. -/
structure Frame (dirs : Slot → Option Ppn) (m m' : Phys) (e : Slot) (P : Word → Prop) : Prop where
  bytes : Keeps dirs m m' e P
  solo : ∀ f a, ¬ (f = e ∧ P a) → Solo dirs m f a → Solo dirs m' f a

section

variable {K : Ppn → Prop} {dirs : Slot → Option Ppn} {l l' hs : List Ppn} {m m' m'' : Phys} {e f : Slot}
  {a va perm w : Word} {d p : Ppn} {b : Byte} {P Q : Word → Prop} {x : Option Word}

theorem pdx_ptx_iff : PDX a = PDX va ∧ PTX a = PTX va ↔ vpn a = vpn va := by
  have ha : PDX a = PDX va ↔ a.toNat / 4194304 = va.toNat / 4194304 := by
    rw [← PDX_val, ← PDX_val, Fin.ext_iff]
  have ht : PTX a = PTX va ↔ a.toNat / 4096 % 1024 = va.toNat / 4096 % 1024 := by
    rw [← PTX_val, ← PTX_val, Fin.ext_iff]
  rw [ha, ht, vpn, vpn]
  omega

theorem Keeps.trans (h : Keeps dirs m m' e P) (h' : Keeps dirs m' m'' e P) : Keeps dirs m m'' e P :=
  fun f a hfa => (h' f a hfa).trans (h f a hfa)

theorem Keeps.mono (h : Keeps dirs m m' e P) (hPQ : ∀ a, P a → Q a) : Keeps dirs m m' e Q :=
  fun f a hfa => h f a fun hP => hfa ⟨hP.1, hPQ a hP.2⟩

theorem Frame.refl (dirs : Slot → Option Ppn) (m : Phys) (e : Slot) (P : Word → Prop) : Frame dirs m m e P :=
  ⟨fun _ _ _ => rfl, fun _ _ _ => id⟩

theorem Frame.trans (h : Frame dirs m m' e P) (h' : Frame dirs m' m'' e P) : Frame dirs m m'' e P where
  bytes := h.bytes.trans h'.bytes
  solo := fun f a hfa hs => h'.solo f a hfa (h.solo f a hfa hs)

theorem Frame.mono (h : Frame dirs m m' e P) (hPQ : ∀ a, P a → Q a) : Frame dirs m m' e Q where
  bytes := h.bytes.mono hPQ
  solo := fun f a hfa => h.solo f a fun hP => hfa ⟨hP.1, hPQ a hP.2⟩

/-! ## Mapping a page -/

/-- Where the entries stay and their pages keep their contents. -/
theorem Keeps.of_entries (hent : entry dirs m' = setEntry (entry dirs m) e (PDX va) (PTX va) x)
    (hmem : ∀ f i j w, ¬ (f = e ∧ i = PDX va ∧ j = PTX va) → entry dirs m f i j = some w →
      m'.mem (PGNUM w) = m.mem (PGNUM w)) :
    Keeps dirs m m' e fun a => vpn a = vpn va := by
  intro f a hfa
  have hout : ¬ (f = e ∧ PDX a = PDX va ∧ PTX a = PTX va) := fun h => hfa ⟨h.1, pdx_ptx_iff.mp h.2⟩
  rw [byteAt, byteAt, hent, setEntry_of_ne hout]
  cases hw : entry dirs m f (PDX a) (PTX a) with
  | none => rfl
  | some w => simp only [Option.map_some, hmem f _ _ w hout hw]

/-- What is mapped once, on a page that gains no reference, is mapped once. -/
theorem Solo.of_entries (hent : entry dirs m' = setEntry (entry dirs m) e (PDX va) (PTX va) x)
    (huses : ∀ q, 0 < uses dirs m [] q → uses dirs m' [] q ≤ uses dirs m [] q) (hfa : ¬ (f = e ∧ vpn a = vpn va))
    (h : Solo dirs m f a) : Solo dirs m' f a := by
  obtain ⟨w, hw, hone, hwrite⟩ := h
  have hout : ¬ (f = e ∧ PDX a = PDX va ∧ PTX a = PTX va) := fun h => hfa ⟨h.1, pdx_ptx_iff.mp h.2⟩
  have hw' : entry dirs m' f (PDX a) (PTX a) = some w := by rw [hent, setEntry_of_ne hout, hw]
  have hle := huses (PGNUM w) (by omega)
  have hpos : 0 < uses dirs m' [] (PGNUM w) := total_pos (target_user hw')
  exact ⟨w, hw', by omega, hwrite⟩

theorem pageInsert_result {r : Int} (h : pageInsert m d p va perm = .ok (r, m')) : r = 0 ∨ r = -E_NO_MEM := by
  simp only [pageInsert, bind_eq_ok] at h
  obtain ⟨⟨pte, m1⟩, -, h⟩ := h
  cases pte with
  | none =>
      cases h
      exact .inr rfl
  | some pte =>
      simp only at h
      split at h <;>
      · obtain ⟨m2, -, h⟩ := bind_eq_ok.mp h
        cases h
        exact .inl rfl

/-- Only `page_alloc` hands out pages. -/
theorem pageRemove_handed (h : pageRemove m d va = .ok m') : m'.handed = m.handed := by
  simp only [SisOp.Jos.pageRemove, bind_eq_ok] at h
  obtain ⟨res, -, h⟩ := h
  cases res with
  | none =>
      cases h
      rfl
  | some x =>
      obtain ⟨q, pte⟩ := x
      simp only [pageDecref] at h
      split at h
      · obtain ⟨-, -, rfl⟩ := pageFree_ok h
        rfl
      · cases h
        rfl

/-- The pages that `page_insert` takes were free. -/
theorem Ledger.insert_handed {held : List Ppn} (h : Ledger K dirs held l m) (hd : dirs e = some d)
    (hi : UserPdx (PDX va)) (hins : SisOp.Jos.pageInsert m d p va perm = .ok (0, m'))
    (hhanded : m'.handed = hs ++ m.handed) : ∀ q ∈ hs, q ∈ l := by
  simp only [SisOp.Jos.pageInsert, bind_eq_ok] at hins
  obtain ⟨⟨pte, m1⟩, hwalk, hins⟩ := hins
  cases pte with
  | none => cases hins
  | some pte =>
      obtain ⟨l1, hs1, t, rfl, hnew, hw⟩ := h.pgdirWalk hd hi hwalk
      have hm1 : m'.handed = m1.handed := by
        simp only at hins
        split at hins
        · obtain ⟨m2, hrem, hins⟩ := bind_eq_ok.mp hins
          cases hins
          have hm2 : m2.handed = (m1.incref p).handed := pageRemove_handed hrem
          exact hm2
        · obtain ⟨m2, hpure, hins⟩ := bind_eq_ok.mp hins
          cases hpure
          cases hins
          rfl
      have heq : hs ++ m.handed = hs1 ++ m.handed :=
        hhanded.symm.trans (hm1.trans hw.touches.handed)
      obtain rfl := List.append_cancel_right heq
      intro q hq
      rw [hnew.split]
      exact List.mem_append_left _ hq

/-- An entry composed with `PTE_W` and `PTE_U` allows stores in user mode. -/
theorem mkPte_writes (p : Ppn) (hperm : perm &&& (PTE_W ||| PTE_U) = PTE_W ||| PTE_U) :
    mkPte p perm &&& userWrite = userWrite := by
  refine BitVec.eq_of_getLsbD_eq fun i _ => ?_
  have hbit := congrArg (BitVec.getLsbD · i) hperm
  simp only [mkPte, userWrite, BitVec.getLsbD_or, BitVec.getLsbD_and] at hbit ⊢
  cases hP : PTE_P.getLsbD i <;> cases hW : PTE_W.getLsbD i <;> cases hU : PTE_U.getLsbD i <;>
    simp_all

/-- `page_insert` of a page that is neither free nor a page table. -/
theorem Ledger.insert_keeps (h : Ledger K dirs [] l m) (hn : ∀ q, uses dirs m [p] q < 2 ^ 16)
    (hd : dirs e = some d) (hi : UserPdx (PDX va)) (hflags : FlagsOnly perm) (hl : p ∉ l) (hK : ¬ K p)
    (htab : ¬ IsTab dirs m p) (hb : p.toNat < m.npages)
    (hins : SisOp.Jos.pageInsert m d p va perm = .ok (0, m')) :
    (∃ l', Ledger K dirs [] l' m') ∧
      entry dirs m' = setEntry (entry dirs m) e (PDX va) (PTX va) (some (mkPte p perm)) ∧
      m'.mem p = m.mem p ∧ Keeps dirs m m' e (fun a => vpn a = vpn va) ∧
      uses dirs m' [] p ≤ uses dirs m [] p + 1 ∧
      (∀ q, q ≠ p → 0 < uses dirs m [] q → uses dirs m' [] q ≤ uses dirs m [] q) ∧ Narrow dirs m' := by
  rcases h.pageInsert hd hi hflags hl hK htab hb (fun w _ => hn _) hins with ⟨h0, -⟩ | ⟨l', hs, -, hp, -, hr, hkept⟩
  · exact absurd h0 (by decide)
  · have hfree := h.insert_handed hd hi hins hr.touches.handed
    have hused : ∀ q, 0 < uses dirs m [] q → q ∉ hs := fun q hq hmem => by
      have h0 := h.pool.free q (hfree q hmem)
      exact absurd hq (by rw [uses]; omega)
    refine ⟨⟨l', hr.ledger⟩, hr.entries, hr.touches.data p hp htab, ?_, ?_, fun q hqp hq => ?_, fun q => ?_⟩
    · refine .of_entries hr.entries fun f i j w _ hw => ?_
      have htgt := target_user hw
      exact hr.touches.data _ (hused _ (total_pos htgt)) (h.not_isTab_of_user htgt)
    · rcases hkept p with hle | ⟨hmem, -⟩
      · exact hle.trans (total_cons_self p).le
      · exact absurd hmem hp
    · rcases hkept q with hle | ⟨hmem, -⟩
      · exact hle.trans (total_cons_of_ne (Ne.symm hqp)).le
      · exact absurd hmem (hused q hq)
    · rcases hkept q with hle | ⟨-, hle⟩
      · exact hle.trans_lt (hn q)
      · exact hle.trans_lt (by decide)

/-- `page_insert` of the page `page_alloc` has just handed out. -/
theorem Sound.map_new {zero : Bool} (h : Sound K dirs m) (hd : dirs e = some d) (hi : UserPdx (PDX va))
    (hflags : FlagsOnly perm) (halloc : pageAlloc m zero = .ok (some p, m'))
    (hins : pageInsert m' d p va perm = .ok (0, m'')) :
    Sound K dirs m'' ∧ Frame dirs m m'' e (fun a => vpn a = vpn va) ∧
      (perm &&& (PTE_W ||| PTE_U) = PTE_W ||| PTE_U → Solo dirs m'' e va) ∧
      (∀ a, vpn a = vpn va → byteAt dirs m'' e a = some (byteOf (m'.mem p (wordIdx a)) (a.toNat % 4))) ∧
      (zero = true → m'.mem p = fun _ => 0) := by
  obtain ⟨l, hl⟩ := h.ledger
  obtain ⟨l0, rfl, h0, hfresh, hhanded, hzero⟩ := hl.pageAlloc halloc
  have huses0 : ∀ q, uses dirs m' [] q = uses dirs m [] q := fun q => by
    rw [uses, hhanded.targets]
  have hn : ∀ q, uses dirs m' [p] q < 2 ^ 16 := fun q => by
    by_cases hq : p = q
    · rw [← hq, uses, total_cons_self]
      exact (congrArg (· + 1) hfresh.unused).trans_lt (by decide)
    · rw [uses, total_cons_of_ne hq, ← uses, huses0]
      exact h.narrow q
  obtain ⟨hl', hent, hmem, hkeeps, hp, hothers, hnarrow⟩ := h0.insert_keeps hn hd hi hflags hfresh.notMem
    hfresh.notKernel hfresh.not_isTab hfresh.bound hins
  have hunused := hfresh.unused
  have hpage : ∀ a, vpn a = vpn va → entry dirs m'' e (PDX a) (PTX a) = some (mkPte p perm) := fun a ha => by
    rw [hent, (pdx_ptx_iff.mpr ha).1, (pdx_ptx_iff.mpr ha).2, setEntry_self]
  have hframe0 : ∀ f a, byteAt dirs m' f a = byteAt dirs m f a := fun f a => by
    rw [byteAt, byteAt, hhanded.entries]
    cases hw : entry dirs m f (PDX a) (PTX a) with
    | none => rfl
    | some w =>
        have hne : PGNUM w ≠ p := fun heq => by
          have hpos : 0 < uses dirs m [] (PGNUM w) := total_pos (target_user hw)
          have h0 := huses0 p
          rw [heq] at hpos
          omega
        simp only [Option.map_some, hhanded.mem _ hne]
  refine ⟨⟨hl', hnarrow⟩, ⟨fun f a hfa => (hkeeps f a hfa).trans (hframe0 f a), fun f a hfa hs => ?_⟩,
    fun hperm => ⟨mkPte p perm, hpage va rfl, ?_, mkPte_writes p hperm⟩, fun a ha => ?_, hzero⟩
  · have hs' : Solo dirs m' f a := by
      obtain ⟨w, hw, hone, hwrite⟩ := hs
      exact ⟨w, hhanded.entries ▸ hw, (huses0 _).trans hone, hwrite⟩
    refine hs'.of_entries hent (fun q hq => ?_) hfa
    refine hothers q (fun heq => ?_) hq
    rw [heq] at hq
    omega
  · have hpos : 0 < uses dirs m'' [] (PGNUM (mkPte p perm)) := total_pos (target_user (hpage va rfl))
    rw [PGNUM_mkPte p hflags] at hpos ⊢
    omega
  · rw [byteAt, hpage a ha, Option.map_some, PGNUM_mkPte p hflags, hmem]

/-- `page_insert` at `va` of the page that `f` has mapped at `a`. -/
theorem Sound.map_again (h : Sound K dirs m) (hd : dirs e = some d) (hi : UserPdx (PDX va))
    (hflags : FlagsOnly perm) (hw : entry dirs m f (PDX a) (PTX a) = some w) (hsolo : Solo dirs m f a)
    (hins : pageInsert m d (PGNUM w) va perm = .ok (0, m')) :
    Sound K dirs m' ∧ Keeps dirs m m' e (fun x => vpn x = vpn va) ∧
      ∀ x y, vpn x = vpn va → vpn y = vpn a → x.toNat % 4096 = y.toNat % 4096 →
        byteAt dirs m' e x = byteAt dirs m f y := by
  obtain ⟨l, hl⟩ := h.ledger
  have htgt := target_user hw
  obtain ⟨w', hw', hone, -⟩ := hsolo
  obtain rfl : w = w' := Option.some.inj (hw.symm.trans hw')
  have hpos : 0 < uses dirs m [] (PGNUM w) := total_pos htgt
  have hn : ∀ q, uses dirs m [PGNUM w] q < 2 ^ 16 := fun q => by
    by_cases hq : PGNUM w = q
    · rw [← hq, uses, total_cons_self]
      exact (congrArg (· + 1) hone).trans_lt (by decide)
    · rw [uses, total_cons_of_ne hq]
      exact h.narrow q
  obtain ⟨hl', hent, hmem, hkeeps, -, -, hnarrow⟩ := hl.insert_keeps hn hd hi hflags (hl.pool.not_free hpos)
    (hl.not_kernel htgt) (hl.not_isTab_of_user htgt) (hl.bound _ (Or.inr hpos)) hins
  refine ⟨⟨hl', hnarrow⟩, hkeeps, fun x y hx hy hoff => ?_⟩
  have hidx : wordIdx x = wordIdx y := Fin.ext (by
    show x.toNat / 4 % 1024 = y.toNat / 4 % 1024
    omega)
  rw [byteAt, byteAt, hent, (pdx_ptx_iff.mpr hx).1, (pdx_ptx_iff.mpr hx).2, setEntry_self,
    (pdx_ptx_iff.mpr hy).1, (pdx_ptx_iff.mpr hy).2, hw, Option.map_some, Option.map_some, PGNUM_mkPte _ hflags, hmem,
    hidx, show x.toNat % 4 = y.toNat % 4 by omega]

/-- `page_remove`. -/
theorem Sound.unmap (h : Sound K dirs m) (hd : dirs e = some d) (hi : UserPdx (PDX va))
    (hrem : pageRemove m d va = .ok m') :
    Sound K dirs m' ∧ Keeps dirs m m' e (fun x => vpn x = vpn va) := by
  obtain ⟨l, hl⟩ := h.ledger
  obtain ⟨l', hr, -, hfewer⟩ := hl.pageRemove hd hi (fun _ _ => h.narrow _) hrem
  refine ⟨⟨⟨l', hr.ledger⟩, fun p => (hfewer p).trans_lt (h.narrow p)⟩, .of_entries hr.entries fun f i j w _ hw => ?_⟩
  exact hr.touches.data _ List.not_mem_nil (hl.not_isTab_of_user (target_user hw))

/-! ## Stores -/

/-- The word that the hardware finds below `UTOP`. -/
theorem translate_wordIdx {flags : Word} {q : PtePtr} (h : translate m d va flags = some q) : q.2 = wordIdx va := by
  unfold translate at h
  simp only at h
  split at h
  · cases h
    rfl
  · cases h

/-- A byte is stored on a page that is mapped once. -/
theorem Ledger.storeByte_keeps {flags : Word} (h : Ledger K dirs [] l m) (hd : dirs e = some d)
    (hf : flags &&& PTE_P = PTE_P) (hi : UserPdx (PDX va)) (hsolo : Solo dirs m e va)
    (hstore : SisOp.Jos.storeByte m d va flags b = some m') :
    Poked K dirs [] l m m' ∧ byteAt dirs m' e va = some b ∧ Keeps dirs m m' e (fun a => a = va) ∧
      ∀ f a, Solo dirs m f a → Solo dirs m' f a := by
  have hpoked := h.storeByte hd hf (Or.inl hi) hstore
  rw [SisOp.Jos.storeByte, Option.map_eq_some_iff] at hstore
  obtain ⟨q, htrans, rfl⟩ := hstore
  obtain ⟨w, hw, -, hq⟩ := translate_entry hd hi hf htrans
  have hidx := translate_wordIdx htrans
  obtain ⟨w', hw', hone, -⟩ := hsolo
  obtain rfl : w = w' := Option.some.inj (hw.symm.trans hw')
  have hent := hpoked.entries
  refine ⟨hpoked, ?_, fun f a hfa => ?_, fun f a hs => ?_⟩
  · rw [byteAt, hent, hw, Option.map_some, ← hq, ← hidx, store_mem_self,
      byteOf_withByte (Nat.mod_lt _ (by decide)) (Nat.mod_lt _ (by decide)), if_pos rfl]
  · rw [byteAt, byteAt, hent]
    cases hwa : entry dirs m f (PDX a) (PTX a) with
    | none => rfl
    | some wa =>
        simp only [Option.map_some]
        by_cases hpage : PGNUM wa = PGNUM w
        · -- the page has one reference, so the address is another one on the same page
          have huniq : Ref.user f (PDX a) (PTX a) = .user e (PDX va) (PTX va) := by
            have hle : refs (target dirs m) (PGNUM w) ≤ 1 := by
              have htotal : refs (target dirs m) (PGNUM w) + List.count (PGNUM w) [] = 1 := hone
              omega
            exact refs_unique hle (hpage ▸ target_user hwa) (target_user hw)
          obtain ⟨rfl, hpdx, hptx⟩ := Ref.user.inj huniq
          have hvpn := pdx_ptx_iff.mp ⟨hpdx, hptx⟩
          have hne : a.toNat ≠ va.toNat := fun heq => hfa ⟨rfl, BitVec.eq_of_toNat_eq heq⟩
          rw [hpage, ← hq]
          by_cases hword : wordIdx a = wordIdx va
          · have hword' : a.toNat / 4 % 1024 = va.toNat / 4 % 1024 := congrArg Fin.val hword
            rw [hword, ← hidx, store_mem_self, byteOf_withByte (Nat.mod_lt _ (by decide)) (Nat.mod_lt _ (by decide)),
              if_neg]
            · rfl
            · unfold vpn at hvpn
              omega
          · rw [store_mem_of_ne (Or.inr (hidx ▸ hword))]
        · rw [store_mem_of_ne' (hq ▸ hpage)]
  · obtain ⟨wa, hwa, hone, hwrite⟩ := hs
    exact ⟨wa, hent ▸ hwa, by rw [uses, hpoked.targets]; exact hone, hwrite⟩

/-- The address is one of the `n` from `va` on. -/
def Among (va : Word) (n : Nat) (a : Word) : Prop := va.toNat ≤ a.toNat ∧ a.toNat < va.toNat + n

/-- Bytes are stored on pages that are mapped once. -/
theorem Sound.storeBytes_keeps {flags : Word} (hd : dirs e = some d) (hf : flags &&& PTE_P = PTE_P) (bs : List Byte) :
    ∀ {m m' : Phys} {va : Word}, Sound K dirs m → va.toNat + bs.length ≤ UTOP.toNat →
      (∀ a, Among va bs.length a → Solo dirs m e a) → storeBytes m d flags va bs = some m' →
      Sound K dirs m' ∧ Keeps dirs m m' e (Among va bs.length) ∧ (∀ f a, Solo dirs m f a → Solo dirs m' f a) ∧
        ∀ a, Among va bs.length a → byteAt dirs m' e a = bs[a.toNat - va.toNat]? := by
  induction bs with
  | nil =>
      intro m m' va h _ _ hstore
      cases hstore
      exact ⟨h, fun _ _ _ => rfl, fun _ _ => id, fun a ha => absurd ha.2 (by have := ha.1; simp; omega)⟩
  | cons b bs ih =>
      intro m m' va h hle hsolo hstore
      rw [SisOp.Jos.storeBytes, Option.bind_eq_some_iff] at hstore
      obtain ⟨m1, hb, hbs⟩ := hstore
      rw [List.length_cons, UTOP_toNat] at hle
      have hi : UserPdx (PDX va) := by
        rw [userPdx_iff, BitVec.lt_def, UTOP_toNat]
        omega
      obtain ⟨l, hl⟩ := h.ledger
      have hself : Among va (b :: bs).length va := ⟨le_rfl, by simp⟩
      obtain ⟨hpoked, hbyte, hkeeps, hkept⟩ := hl.storeByte_keeps hd hf hi (hsolo va hself) hb
      have h1 := (hpoked.changed h.narrow e).sound
      have hnext : (va + 1).toNat = va.toNat + 1 := by
        rw [BitVec.toNat_add]
        exact Nat.mod_eq_of_lt (by simp; omega)
      have hin : ∀ a, Among (va + 1) bs.length a → Among va (b :: bs).length a := fun a ha => by
        unfold Among at *
        rw [List.length_cons]
        omega
      obtain ⟨h2, hkeeps2, hkept2, hbytes⟩ := ih h1 (by rw [hnext, UTOP_toNat]; omega)
        (fun a ha => hkept e a (hsolo a (hin a ha))) hbs
      refine ⟨h2, (hkeeps.mono fun a ha => ha ▸ hself).trans (hkeeps2.mono hin),
        fun f a hs => hkept2 f a (hkept f a hs), fun a ha => ?_⟩
      rcases eq_or_ne a va with rfl | hav
      · rw [hkeeps2 e a fun ha' => absurd ha'.2.1 (by omega), hbyte, Nat.sub_self]
        rfl
      · have hlt : va.toNat < a.toNat := lt_of_le_of_ne ha.1 fun heq => hav (BitVec.eq_of_toNat_eq heq.symm)
        have ha' : Among (va + 1) bs.length a := by
          have hub := ha.2
          rw [List.length_cons] at hub
          exact ⟨by omega, by omega⟩
        rw [hbytes a ha', hnext, show a.toNat - va.toNat = (a.toNat - (va.toNat + 1)) + 1 by omega,
          List.getElem?_cons_succ]

end

end SisOp.Jos
