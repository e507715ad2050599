/-
# `SisOp.Memory.UserBytes` — the bytes of a range, one by one

What the kernel's own loads and `user_mem_check` find on a range that the environment
may read.
-/
import SisOp.Jos.Effects
import SisOp.Memory.UserMem

namespace SisOp.Jos

section

variable {m : Phys} {d : Ppn} {p s len flags : Word} {bs xs ys : List Byte}

/-! ## Flags -/

theorem or_of_and {x f : Word} (h : x &&& f = f) : x ||| f = x := by
  calc x ||| f = x ||| (x &&& f) := by rw [h]
    _ = x := by
      ext i
      simp only [BitVec.getElem_or, BitVec.getElem_and, Bool.or_eq_left_iff_imp, Bool.and_eq_true]
      exact And.left

theorem and_of_or {x f g : Word} (h : x &&& (f ||| g) = f ||| g) : x &&& f = f := by
  have hf : (f ||| g) &&& f = f := by
    ext i
    simp only [BitVec.getElem_or, BitVec.getElem_and, Bool.and_eq_right_iff_imp, Bool.or_eq_true]
    exact Or.inl
  calc x &&& f = x &&& ((f ||| g) &&& f) := by rw [hf]
    _ = f := by rw [← BitVec.and_assoc, h, hf]

/-! ## Bytes -/

theorem loadByte_kernel {a : Word} {b : Byte} (h : loadByte m d a (PTE_P ||| PTE_U) = some b) :
    loadByte m d a PTE_P = some b := by
  obtain ⟨q, hq, rfl⟩ := Option.map_eq_some_iff.mp h
  refine Option.map_eq_some_iff.mpr ⟨q, ?_, rfl⟩
  unfold translate at hq ⊢
  dsimp only at hq ⊢
  split at hq
  · rename_i hflags
    rw [if_pos ⟨and_of_or hflags.1, and_of_or hflags.2⟩]
    exact hq
  · cases hq

/-- A byte the environment may read lies on a page that passes the check. -/
theorem pageOk_of_load {a : Word} {b : Byte} (h : loadByte m d a (PTE_P ||| PTE_U) = some b)
    (htab : (PGNUM (m.mem d (PDX a))).toNat < m.npages) (ha : a < ULIM)
    (hp : p.toNat % 4096 = 0) (hpage : p.toNat / 4096 = a.toNat / 4096) :
    PageOk m d (PTE_P ||| PTE_U ||| PTE_U) p := by
  obtain ⟨q, hq, -⟩ := Option.map_eq_some_iff.mp h
  unfold translate at hq
  dsimp only at hq
  split at hq
  · rename_i hflags
    have hv : PTE_VALID (m.mem d (PDX a)) := or_of_and (and_of_or hflags.1)
    refine ⟨?_, (PGNUM (m.mem d (PDX a)), PTX a), ?_, ?_⟩
    · have ha' : a.toNat < ULIM.toNat := ha
      rw [BitVec.lt_def]
      omega
    · rw [pgdirWalk_look, PDX_eq_of_page hpage, PTX_eq_of_page hpage, if_pos hv,
        if_neg (Nat.not_le.mpr htab)]
    · rw [BitVec.or_assoc]
      exact or_of_and hflags.2
  · cases hq

theorem loadBytes_length : ∀ {n : Nat} {p : Word} {bs : List Byte},
    loadBytes m d flags p n = some bs → bs.length = n
  | 0, _, _, h => by
      cases h
      rfl
  | n + 1, p, bs, h => by
      obtain ⟨b, -, h⟩ := Option.bind_eq_some_iff.mp h
      obtain ⟨bs', hbs, rfl⟩ := Option.map_eq_some_iff.mp h
      rw [List.length_cons, loadBytes_length hbs]

theorem loadBytes_kernel : ∀ {n : Nat} {p : Word} {bs : List Byte},
    loadBytes m d (PTE_P ||| PTE_U) p n = some bs → loadBytes m d PTE_P p n = some bs
  | 0, _, _, h => h
  | n + 1, p, bs, h => by
      obtain ⟨b, hb, h⟩ := Option.bind_eq_some_iff.mp h
      obtain ⟨bs', hbs, rfl⟩ := Option.map_eq_some_iff.mp h
      rw [loadBytes, loadByte_kernel hb, Option.bind_some, loadBytes_kernel hbs]
      rfl

theorem add_one_ofNat (p : Word) (n : Nat) :
    p + 1 + BitVec.ofNat 32 n = p + BitVec.ofNat 32 (n + 1) := by
  rw [BitVec.ofNat_add, BitVec.add_assoc, BitVec.add_comm (1 : Word)]
  rfl

/-- The loads of a range are those of its two parts. -/
theorem loadBytes_append : ∀ {xs : List Byte} {p : Word},
    loadBytes m d flags p (xs.length + ys.length) = some (xs ++ ys) →
    loadBytes m d flags p xs.length = some xs ∧
      loadBytes m d flags (p + BitVec.ofNat 32 xs.length) ys.length = some ys
  | [], p, h => by
      rw [List.length_nil, Nat.zero_add] at h
      exact ⟨rfl, by simpa using h⟩
  | x :: xs, p, h => by
      rw [List.length_cons, Nat.add_right_comm, loadBytes] at h
      obtain ⟨b, hb, h⟩ := Option.bind_eq_some_iff.mp h
      obtain ⟨bs', hbs, heq⟩ := Option.map_eq_some_iff.mp h
      obtain ⟨rfl, rfl⟩ := List.cons.inj heq
      obtain ⟨h1, h2⟩ := loadBytes_append hbs
      rw [add_one_ofNat] at h2
      refine ⟨?_, h2⟩
      rw [List.length_cons, loadBytes, hb, Option.bind_some, h1]
      rfl

/-- Every byte of the range can be loaded. -/
theorem loadBytes_get {n : Nat} : ∀ {p : Word}, (∃ bs, loadBytes m d flags p n = some bs) ↔
    ∀ i, i < n → ∃ b, loadByte m d (p + BitVec.ofNat 32 i) flags = some b := by
  induction n with
  | zero => exact fun {p} => ⟨fun _ i hi => absurd hi (Nat.not_lt_zero i), fun _ => ⟨[], rfl⟩⟩
  | succ n ih =>
      intro p
      constructor
      · rintro ⟨bs, h⟩ i hi
        obtain ⟨b, hb, h⟩ := Option.bind_eq_some_iff.mp h
        obtain ⟨bs', hbs, -⟩ := Option.map_eq_some_iff.mp h
        cases i with
        | zero => exact ⟨b, by simpa using hb⟩
        | succ i =>
            rw [← add_one_ofNat]
            exact ih.mp ⟨bs', hbs⟩ i (by omega)
      · intro h
        obtain ⟨b, hb⟩ := h 0 (by omega)
        obtain ⟨bs, hbs⟩ := ih.mpr fun i hi => by
          rw [add_one_ofNat]
          exact h (i + 1) (by omega)
        refine ⟨b :: bs, ?_⟩
        rw [loadBytes, show loadByte m d p flags = some b by simpa using hb, Option.bind_some, hbs]
        rfl

/-! ## The two results of the check -/

theorem userMemCheckLoop_result {va endVa perm : Word} {r : Int} {x : Option Word} :
    ∀ (fuel : Nat) (m : Phys) (cur : Word),
      userMemCheckLoop m d va endVa perm fuel cur = .ok (r, x) → r = 0 ∨ r = -E_FAULT
  | 0, _, _, h => nomatch h
  | fuel + 1, m, cur, h => by
      rw [userMemCheckLoop] at h
      split at h
      · obtain ⟨⟨pte, m'⟩, -, h⟩ := bind_eq_ok.mp h
        have hturn (bad : Bool) (h : (if ULIM ≤ cur ∨ bad = true then
            pure (-E_FAULT, some (if cur < va then va else cur))
            else userMemCheckLoop m' d va endVa perm fuel (cur + PGSIZE)) = .ok (r, x)) :
            r = 0 ∨ r = -E_FAULT := by
          split at h
          · cases h
            exact Or.inr rfl
          · exact userMemCheckLoop_result fuel m' _ h
        exact hturn _ h
      · cases h
        exact Or.inl rfl

theorem userMemCheck_result {perm : Word} {r : Int} {x : Option Word}
    (h : userMemCheck m d p len perm = .ok (r, x)) : r = 0 ∨ r = -E_FAULT :=
  userMemCheckLoop_result _ m _ h

/-- A range on a page without a page table is refused at once. -/
theorem userMemCheck_unmapped (perm : Word) (h : ¬ PTE_VALID (m.mem d (PDX (ROUNDDOWN p PGSIZE))))
    (hlt : ROUNDDOWN p PGSIZE < ROUNDUP (p + len) PGSIZE) :
    ∃ x, userMemCheck m d p len perm = .ok (-E_FAULT, some x) := by
  refine ⟨if ROUNDDOWN p PGSIZE < p then p else ROUNDDOWN p PGSIZE, ?_⟩
  rw [userMemCheck, userMemCheckLoop, if_pos hlt, pgdirWalk_look, if_neg h]
  simp only [bind, Except.bind, or_true, if_true]
  rfl

end

end SisOp.Jos
