/-
# `SisOp.Memory.Cputs` — the bytes `sys_cputs` looks at

`user_mem_assert` checks `[s, s + len)`; the `%.*s` loop of `vprintfmt` reads a byte
before it tests the precision, so after `len` bytes without a NUL it reads one more.
`printReads` are the addresses the loop loads: nothing else matters for what it prints
(`printStr_congr`).
-/
import SisOp.Jos.Faults
import SisOp.Memory.UserBytes
import Mathlib.Data.List.TakeWhile

namespace SisOp.Jos

/-- The addresses `printStr` loads, in this order. -/
def printReads (m : Phys) (pgdir : Ppn) : Nat → Word → Int → List Word
  | 0, _, _ => []
  | fuel + 1, p, precision =>
      p :: match loadByte m pgdir p PTE_P with
        | none => []
        | some ch =>
            if ch = 0 then []
            else if precision < 0 then printReads m pgdir fuel (p + 1) precision
            else if 0 ≤ precision - 1 then printReads m pgdir fuel (p + 1) (precision - 1)
            else []

/-- The user bytes `sys_cputs(s, len)` reads: none before the check has passed. -/
def cputsReads (k : Kernel) (c : Nat) (cur : Slot) (s len : Word) : List Word :=
  match userMemAssert k c cur s len (PTE_P ||| PTE_U) with
  | .ok (.back _ k) =>
      if s = 0 then [] else printReads k.phys (k.cpus c).cr3 (2 ^ 32) s len.toInt
  | _ => []

/-- What has been printed on the console. -/
def console (hist : List Event) : List Byte :=
  hist.reverse.flatMap fun ev => match ev with
    | .print bytes => bytes
    | _ => []

/-- The console after a call made in `k`; a call that panics has printed nothing before. -/
def consoleAfter (k : Kernel) : Except String (Outcome Int) → List Byte
  | .ok (.back _ k') => console k'.hist
  | .ok (.away k') => console k'.hist
  | .error _ => console k.hist

/-- All of `[s, s + len)` is user-readable through `pgdir` and holds `bs`; the page tables on
the way are pages of the machine. -/
structure UserReadable (m : Phys) (pgdir : Ppn) (s len : Word) (bs : List Byte) : Prop where
  loads : loadBytes m pgdir (PTE_P ||| PTE_U) s len.toNat = some bs
  tables : ∀ i, i < len.toNat →
    (PGNUM (m.mem pgdir (PDX (s + BitVec.ofNat 32 i)))).toNat < m.npages

/-- `sys_cputs(s, len)` touches only the bytes `bs` of the checked range. -/
structure CputsOk (k : Kernel) (c : Nat) (cur : Slot) (s len : Word) (bs : List Byte) : Prop where
  noFault : NoFault (sysCputs k c cur s len)
  prints : consoleAfter k (sysCputs k c cur s len) = console k.hist ++ bs.takeWhile (· ≠ 0)
  reads : ∀ a ∈ cputsReads k c cur s len, a < ULIM →
    s.toNat ≤ a.toNat ∧ a.toNat < s.toNat + len.toNat

/-- When it does: the check refuses (an empty range on a page that is not readable), the
null pointer stands for its own bytes, there is a NUL among the bytes, or the range ends at
`ULIM` and the kernel's byte there stops the loop. -/
def CputsSafe (k : Kernel) (pgdir : Ppn) (s len : Word) (bs : List Byte) : Prop :=
  userMemCheck k.phys pgdir s len (PTE_P ||| PTE_U ||| PTE_U) ≠ .ok (0, none) ∨
    s = 0 ∧ printNull len.toInt = bs.takeWhile (· ≠ 0) ∨
    s ≠ 0 ∧ (0 ∈ bs ∨ s.toNat + len.toNat = ULIM.toNat ∧
      ∃ ch, loadByte k.phys pgdir ULIM PTE_P = some ch ∧ (ch = 0 ∨ 0 ≤ len.toInt))

section

variable {m m' : Phys} {pgdir d : Ppn} {p s len : Word} {bs : List Byte} {k k' : Kernel} {c : Nat}
  {cur : Slot}

/-! ## The loop of `%.*s` -/

theorem printStr_congr : ∀ (fuel : Nat) (p : Word) (precision : Int),
    (∀ a ∈ printReads m pgdir fuel p precision,
      loadByte m' pgdir a PTE_P = loadByte m pgdir a PTE_P) →
    printStr m' pgdir fuel p precision = printStr m pgdir fuel p precision
  | 0, _, _, _ => rfl
  | fuel + 1, p, precision, h => by
      have hp := h p (by simp [printReads])
      rw [printStr, printStr, hp]
      cases hch : loadByte m pgdir p PTE_P with
      | none => rfl
      | some ch =>
          simp only [printReads, hch, List.mem_cons, forall_eq_or_imp] at h
          simp only [Option.bind_some]
          by_cases h0 : ch = 0
          · simp [h0]
          · simp only [h0, if_false] at h ⊢
            by_cases hneg : precision < 0
            · simp only [hneg, if_true] at h ⊢
              rw [printStr_congr fuel _ _ h.2]
            · simp only [hneg, if_false] at h ⊢
              by_cases hone : 0 ≤ precision - 1
              · simp only [hone, if_true] at h ⊢
                rw [printStr_congr fuel _ _ h.2]
              · simp only [hone, if_false]

/-- The precision that is left after `n` bytes. -/
def leftAfter (precision : Int) (n : Nat) : Int := if precision < 0 then precision else precision - n

/-- Bytes without a NUL within the precision are printed, and the loop goes on behind them. -/
theorem printStr_append (fuel : Nat) : ∀ (bs : List Byte) (p : Word) (precision : Int),
    loadBytes m pgdir PTE_P p bs.length = some bs → 0 ∉ bs →
    (precision < 0 ∨ (bs.length : Int) ≤ precision) →
    printStr m pgdir (bs.length + fuel) p precision =
        (printStr m pgdir fuel (p + BitVec.ofNat 32 bs.length) (leftAfter precision bs.length)).map
          (bs ++ ·) ∧
      (∀ a, a ∈ printReads m pgdir (bs.length + fuel) p precision ↔
        (∃ i, i < bs.length ∧ a = p + BitVec.ofNat 32 i) ∨
          a ∈ printReads m pgdir fuel (p + BitVec.ofNat 32 bs.length)
            (leftAfter precision bs.length)) := by
  intro bs
  induction bs with
  | nil =>
      intro p precision _ _ _
      have hleft : leftAfter precision 0 = precision := by
        unfold leftAfter
        split <;> simp
      simp [hleft]
  | cons b bs ih =>
      intro p precision hload h0 hprec
      rw [List.length_cons, loadBytes] at hload
      obtain ⟨b', hb, hload⟩ := Option.bind_eq_some_iff.mp hload
      obtain ⟨bs', hbs, heq⟩ := Option.map_eq_some_iff.mp hload
      obtain ⟨rfl, rfl⟩ := List.cons.inj heq
      have hb0 : b' ≠ 0 := fun h => h0 (h ▸ List.mem_cons_self)
      have hrest : 0 ∉ bs' := fun h => h0 (List.mem_cons_of_mem _ h)
      rw [List.length_cons, Nat.add_right_comm]
      -- the rest of the bytes, with what is left of the precision
      have hgo : ∀ precision', (precision' < 0 ∨ (bs'.length : Int) ≤ precision') →
          leftAfter precision' bs'.length = leftAfter precision (bs'.length + 1) →
          printStr m pgdir (bs'.length + fuel + 1) p precision =
            (printStr m pgdir (bs'.length + fuel) (p + 1) precision').map (b' :: ·) →
          printReads m pgdir (bs'.length + fuel + 1) p precision =
            p :: printReads m pgdir (bs'.length + fuel) (p + 1) precision' →
          printStr m pgdir (bs'.length + fuel + 1) p precision =
              (printStr m pgdir fuel (p + BitVec.ofNat 32 (bs'.length + 1))
                (leftAfter precision (bs'.length + 1))).map (b' :: bs' ++ ·) ∧
            (∀ a, a ∈ printReads m pgdir (bs'.length + fuel + 1) p precision ↔
              (∃ i, i < bs'.length + 1 ∧ a = p + BitVec.ofNat 32 i) ∨
                a ∈ printReads m pgdir fuel (p + BitVec.ofNat 32 (bs'.length + 1))
                  (leftAfter precision (bs'.length + 1))) := by
        intro precision' hp' hleft hstr hreads
        obtain ⟨h1, h2⟩ := ih (p + 1) precision' hbs hrest hp'
        rw [add_one_ofNat, hleft] at h1 h2
        refine ⟨?_, fun a => ?_⟩
        · rw [hstr, h1, Option.map_map]
          rfl
        · rw [hreads, List.mem_cons, h2 a]
          constructor
          · rintro (rfl | ⟨i, hi, rfl⟩ | hmem)
            · exact Or.inl ⟨0, by omega, by simp⟩
            · exact Or.inl ⟨i + 1, by omega, add_one_ofNat p i⟩
            · exact Or.inr hmem
          · rintro (⟨i, hi, rfl⟩ | hmem)
            · cases i with
              | zero => exact Or.inl (by simp)
              | succ i => exact Or.inr (Or.inl ⟨i, by omega, (add_one_ofNat p i).symm⟩)
            · exact Or.inr (Or.inr hmem)
      rw [List.length_cons] at hprec
      by_cases hneg : precision < 0
      · refine hgo precision (Or.inl hneg) (by simp [leftAfter, hneg]) ?_ ?_
        · rw [printStr, hb, Option.bind_some, if_neg hb0, if_pos hneg]
        · simp only [printReads, hb, if_neg hb0, if_pos hneg]
      · have hone : 0 ≤ precision - 1 := by omega
        refine hgo (precision - 1) (Or.inr (by omega)) ?_ ?_ ?_
        · have hneg' : ¬ precision - 1 < 0 := by omega
          simp only [leftAfter, hneg, hneg', if_false]
          omega
        · rw [printStr, hb, Option.bind_some, if_neg hb0, if_neg hneg, if_pos hone]
        · simp only [printReads, hb, if_neg hb0, if_neg hneg, if_pos hone]

/-- A NUL within the precision stops the loop. -/
theorem printStr_nul (fuel : Nat) {precision : Int}
    (hload : loadBytes m pgdir PTE_P p bs.length = some bs) (h0 : 0 ∈ bs) (hfuel : bs.length ≤ fuel)
    (hprec : precision < 0 ∨ (bs.length : Int) ≤ precision) :
    printStr m pgdir fuel p precision = some (bs.takeWhile (· ≠ 0)) ∧
      ∀ a ∈ printReads m pgdir fuel p precision, ∃ i, i < bs.length ∧ a = p + BitVec.ofNat 32 i := by
  obtain ⟨pre, post, rfl, hpre⟩ := List.eq_append_cons_of_mem h0
  rw [List.length_append] at hload hfuel hprec
  obtain ⟨hfirst, hsecond⟩ := loadBytes_append hload
  rw [List.length_cons] at hfuel hprec
  obtain ⟨fuel', rfl⟩ : ∃ fuel', fuel = pre.length + (fuel' + 1) := ⟨fuel - pre.length - 1, by omega⟩
  obtain ⟨hstr, hreads⟩ := printStr_append (fuel' + 1) pre p precision hfirst hpre (by omega)
  have hnul : loadByte m pgdir (p + BitVec.ofNat 32 pre.length) PTE_P = some 0 := by
    rw [List.length_cons, loadBytes] at hsecond
    obtain ⟨b, hb, hsecond⟩ := Option.bind_eq_some_iff.mp hsecond
    obtain ⟨bs', -, heq⟩ := Option.map_eq_some_iff.mp hsecond
    rw [hb, (List.cons.inj heq).1]
  have htake : (pre ++ 0 :: post).takeWhile (· ≠ 0) = pre := by
    have hne : ∀ b ∈ pre, decide (b ≠ 0) = true := fun b hb => by
      refine decide_eq_true fun heq => hpre ?_
      rwa [heq] at hb
    rw [List.takeWhile_append_of_pos hne]
    simp
  constructor
  · rw [hstr, htake, printStr, hnul, Option.bind_some, if_pos rfl]
    simp
  · intro a ha
    rw [List.length_append, List.length_cons]
    rcases (hreads a).mp ha with ⟨i, hi, rfl⟩ | hlast
    · exact ⟨i, by omega, rfl⟩
    · refine ⟨pre.length, by omega, ?_⟩
      simpa [printReads, hnul] using hlast

/-! ## The check -/

theorem UserReadable.length (h : UserReadable m d s len bs) : bs.length = len.toNat :=
  loadBytes_length h.loads

theorem UserReadable.addr {i : Nat} (hend : s.toNat + len.toNat ≤ ULIM.toNat) (hi : i ≤ len.toNat) :
    (s + BitVec.ofNat 32 i).toNat = s.toNat + i := by
  rw [ULIM_toNat] at hend
  rw [BitVec.toNat_add, BitVec.toNat_ofNat]
  omega

/-- A range that is not empty passes. -/
theorem UserReadable.check (h : UserReadable m d s len bs)
    (hend : s.toNat + len.toNat ≤ ULIM.toNat) (hlen : len.toNat ≠ 0) :
    userMemCheck m d s len (PTE_P ||| PTE_U ||| PTE_U) = .ok (0, none) := by
  refine userMemCheck_ok.mpr ⟨rfl, fun p hp hle hlt => ?_⟩
  have hle' : (ROUNDDOWN s PGSIZE).toNat ≤ p.toNat := hle
  have hlt' : p.toNat < (ROUNDUP (s + len) PGSIZE).toNat := hlt
  have hend' : s.toNat + len.toNat ≤ 4018143232 := hend
  rw [ROUNDDOWN_PGSIZE] at hle'
  rw [ROUNDUP_PGSIZE, BitVec.toNat_add] at hlt'
  -- the first byte of the range on this page
  obtain ⟨i, hi, hpage⟩ : ∃ i, i < len.toNat ∧ p.toNat / 4096 = (s.toNat + i) / 4096 := by
    by_cases hps : p.toNat ≤ s.toNat
    · exact ⟨0, by omega, by omega⟩
    · exact ⟨p.toNat - s.toNat, by omega, by rw [Nat.add_sub_cancel' (by omega)]⟩
  have haddr := UserReadable.addr hend hi.le
  obtain ⟨b, hb⟩ := loadBytes_get.mp ⟨bs, h.loads⟩ i hi
  refine pageOk_of_load hb (h.tables i hi) ?_ hp (by rw [haddr, hpage])
  rw [BitVec.lt_def, haddr]
  omega

/-- Once the check has passed nothing but the loop is left. -/
theorem sysCputs_checked (hdir : (k.envs cur).envPgdir = some d)
    (hcheck : userMemCheck k.phys d s len (PTE_P ||| PTE_U ||| PTE_U) = .ok (0, none)) :
    userMemAssert k c cur s len (PTE_P ||| PTE_U) = .ok (.back () k) := by
  simp only [userMemAssert, hdir]
  rw [hcheck]
  rfl

theorem console_cons (ev : Event) (hist : List Event) : console (ev :: hist) =
    console hist ++ (match ev with
      | .print bytes => bytes
      | _ => []) := by
  simp [console]

theorem console_schedYield (h : schedYield k c = .ok k') : console k'.hist = console k.hist := by
  cases schedYield_cases h with
  | picked e pgdir _ _ heq | again e pgdir _ _ _ heq =>
      rw [heq, Kernel.ran_hist, console_cons]
      exact List.append_nil _
  | halted _ heq =>
      rw [heq]
      rfl

/-- A check that does not pass stops the call before it reads a byte. -/
theorem sysCputs_refused (hcur : k.curenv c = some cur) (hdir : (k.envs cur).envPgdir = some d)
    (hcheck : userMemCheck k.phys d s len (PTE_P ||| PTE_U ||| PTE_U) ≠ .ok (0, none)) :
    NoFault (sysCputs k c cur s len) ∧ consoleAfter k (sysCputs k c cur s len) = console k.hist ∧
      cputsReads k c cur s len = [] := by
  cases hassert : userMemAssert k c cur s len (PTE_P ||| PTE_U) with
  | error msg =>
      have hno : NoFault (userMemAssert k c cur s len (PTE_P ||| PTE_U)) :=
        noFault_userMemAssert hdir
      have hcall : sysCputs k c cur s len = .error msg := by
        rw [sysCputs, hassert]
        rfl
      rw [hcall, cputsReads, hassert]
      rw [hassert] at hno
      exact ⟨fun h => hno (congrArg Except.error (Except.error.inj h)), rfl, rfl⟩
  | ok o =>
      obtain ⟨pgdir, r, x, hdir', hres, hend⟩ := userMemAssert_cases hassert
      obtain rfl : d = pgdir := Option.some.inj (hdir.symm.trans hdir')
      rcases hend with ⟨hr, -⟩ | ⟨-, hdestroyed⟩
      · rcases userMemCheck_result hres with h0 | hneg
        · rw [h0] at hres
          rw [(userMemCheck_ok.mp hres).1] at hres
          exact absurd hres hcheck
        · rw [hneg] at hr
          exact absurd (by decide) hr
      · cases hdestroyed with
        | zombie _ hne => exact absurd hcur hne
        | gone _ hne => exact absurd hcur hne
        | left _ pgdir m k' hdir hm hyield =>
            have hcall : sysCputs k c cur s len = .ok (.away k') := by
              rw [sysCputs, hassert]
              rfl
            rw [hcall, cputsReads, hassert]
            refine ⟨noFault_ok _, ?_, rfl⟩
            show console k'.hist = console k.hist
            rw [console_schedYield hyield, Kernel.setCur_hist, Kernel.freed_hist, console_cons]
            exact List.append_nil _

/-! ## Behind the last byte -/

/-- The loop stops at `p` without printing. -/
def StopsAt (m : Phys) (pgdir : Ppn) (p : Word) (precision : Int) : Prop :=
  ∃ ch, loadByte m pgdir p PTE_P = some ch ∧ (ch = 0 ∨ 0 ≤ precision)

theorem printStr_stops {fuel : Nat} {precision : Int} (hprec : precision ≤ 0) :
    printStr m d (fuel + 1) p precision = some [] ↔ StopsAt m d p precision := by
  rw [printStr, StopsAt]
  cases loadByte m d p PTE_P with
  | none => simp
  | some ch =>
      by_cases h0 : ch = 0
      · simp [h0]
      · have hone : ¬ 0 ≤ precision - 1 := by omega
        by_cases hneg : precision < 0
        · have hnn : ¬ 0 ≤ precision := by omega
          simp [h0, hneg, hnn]
        · have hnn : 0 ≤ precision := by omega
          rw [Option.bind_some, if_neg h0, if_neg hneg, if_neg hone]
          simp [hnn]

theorem printReads_stops {fuel : Nat} {precision : Int} (hprec : precision ≤ 0)
    (h : StopsAt m d p precision) : printReads m d (fuel + 1) p precision = [p] := by
  obtain ⟨ch, hch, hstop⟩ := h
  rw [printReads, hch]
  by_cases h0 : ch = 0
  · simp [h0]
  · have hneg : ¬ precision < 0 := by
      have hnn := hstop.resolve_left h0
      omega
    have hone : ¬ 0 ≤ precision - 1 := by omega
    simp only [if_neg h0, if_neg hneg, if_neg hone]

/-- `len` as the `int` precision: not less than `len`, or no limit at all. -/
theorem precision_cases (len : Word) : len.toInt < 0 ∨ len.toInt = len.toNat := by
  rw [BitVec.toInt_eq_toNat_cond]
  have hlt := len.isLt
  split <;> omega

theorem leftAfter_len (len : Word) : leftAfter len.toInt len.toNat ≤ 0 ∧
    (0 ≤ leftAfter len.toInt len.toNat ↔ 0 ≤ len.toInt) := by
  unfold leftAfter
  rcases precision_cases len with h | h
  · rw [if_pos h]
    omega
  · rw [if_neg (by omega)]
    omega

/-! ## The whole call -/

/-- With the check passed the property is one of the loop. -/
theorem cputsOk_iff_loop (hdir : (k.envs cur).envPgdir = some d) (hcr3 : (k.cpus c).cr3 = d)
    (hcheck : userMemCheck k.phys d s len (PTE_P ||| PTE_U ||| PTE_U) = .ok (0, none)) (hs : s ≠ 0) :
    CputsOk k c cur s len bs ↔
      printStr k.phys d (2 ^ 32) s len.toInt = some (bs.takeWhile (· ≠ 0)) ∧
        ∀ a ∈ printReads k.phys d (2 ^ 32) s len.toInt, a < ULIM →
          s.toNat ≤ a.toNat ∧ a.toNat < s.toNat + len.toNat := by
  have hassert := sysCputs_checked (c := c) hdir hcheck
  have hreads : cputsReads k c cur s len = printReads k.phys d (2 ^ 32) s len.toInt := by
    rw [cputsReads, hassert]
    simp only [hs, if_false, hcr3]
  have hcall : sysCputs k c cur s len =
      (printStr k.phys d (2 ^ 32) s len.toInt).elim (.error "Kernel Page Fault")
        fun bytes => .ok (.back 0 (k.log (.print bytes))) := by
    rw [sysCputs, hassert]
    simp only [hs, if_false, ← hcr3]
    cases hstr : printStr k.phys (k.cpus c).cr3 (2 ^ 32) s len.toInt with
    | none =>
        simp only [bind, Except.bind, hstr]
        rfl
    | some bytes =>
        simp only [bind, Except.bind, hstr]
        rfl
  constructor
  · intro h
    refine ⟨?_, hreads ▸ h.reads⟩
    have hprints := h.prints
    have hno := h.noFault
    rw [hcall] at hprints hno
    cases hstr : printStr k.phys d (2 ^ 32) s len.toInt with
    | none =>
        rw [hstr] at hno
        exact absurd rfl hno
    | some bytes =>
        rw [hstr] at hprints
        change console (.print bytes :: k.hist) = _ at hprints
        rw [console_cons] at hprints
        exact congrArg some (List.append_cancel_left hprints)
  · rintro ⟨hstr, hrange⟩
    rw [hstr] at hcall
    refine ⟨?_, ?_, hreads.symm ▸ hrange⟩
    · rw [hcall]
      exact noFault_ok _
    · rw [hcall]
      exact console_cons _ _

/-- Without a NUL the loop reads the byte behind the range. -/
theorem loop_of_no_nul (h : UserReadable m d s len bs) (hend : s.toNat + len.toNat ≤ ULIM.toNat)
    (h0 : 0 ∉ bs) :
    (printStr m d (2 ^ 32) s len.toInt = some (bs.takeWhile (· ≠ 0)) ∧
      ∀ a ∈ printReads m d (2 ^ 32) s len.toInt, a < ULIM →
        s.toNat ≤ a.toNat ∧ a.toNat < s.toNat + len.toNat) ↔
    s.toNat + len.toNat = ULIM.toNat ∧
      ∃ ch, loadByte m d ULIM PTE_P = some ch ∧ (ch = 0 ∨ 0 ≤ len.toInt) := by
  have hn := h.length
  obtain ⟨fuel, hfuel⟩ : ∃ fuel, 2 ^ 32 = bs.length + (fuel + 1) :=
    ⟨2 ^ 32 - bs.length - 1, by have hlt := len.isLt; omega⟩
  have hload : loadBytes m d PTE_P s bs.length = some bs := hn ▸ loadBytes_kernel h.loads
  obtain ⟨hstr, hreads⟩ := printStr_append (fuel + 1) bs s len.toInt hload h0
    ((precision_cases len).imp_right (by omega))
  obtain ⟨hle, hnn⟩ := leftAfter_len len
  have htake : bs.takeWhile (· ≠ 0) = bs := List.takeWhile_eq_self_iff.mpr fun b hb =>
    decide_eq_true fun heq => h0 (heq ▸ hb)
  have hq : (s + BitVec.ofNat 32 len.toNat).toNat = s.toNat + len.toNat :=
    UserReadable.addr hend le_rfl
  rw [hn] at hstr hreads hfuel
  rw [hfuel, hstr, htake]
  simp only [hreads]
  generalize s + BitVec.ofNat 32 len.toNat = q at *
  generalize leftAfter len.toInt len.toNat = prec at *
  constructor
  · rintro ⟨hprint, hrange⟩
    obtain ⟨rest, hrest, happ⟩ := Option.map_eq_some_iff.mp hprint
    obtain rfl : rest = [] := by simpa using happ
    have hnot : ¬ q < ULIM := fun hlt => by
      have hin := (hrange q (Or.inr (by simp [printReads])) hlt).2
      omega
    have hqU : q = ULIM := BitVec.eq_of_toNat_eq (by
      rw [BitVec.lt_def] at hnot
      omega)
    obtain ⟨ch, hch, hstop⟩ := (printStr_stops hle).mp hrest
    exact ⟨by rw [← hq, hqU], ch, hqU ▸ hch, hstop.imp_right hnn.mp⟩
  · rintro ⟨hlim, ch, hch, hstop⟩
    have hqU : q = ULIM := BitVec.eq_of_toNat_eq (by omega)
    have hstops : StopsAt m d q prec := ⟨ch, hqU ▸ hch, hstop.imp_right hnn.mpr⟩
    refine ⟨by rw [(printStr_stops hle).mpr hstops]; simp, fun a ha hlt => ?_⟩
    rcases ha with ⟨i, hi, rfl⟩ | hlast
    · rw [UserReadable.addr hend hi.le]
      omega
    · rw [printReads_stops hle hstops, List.mem_singleton] at hlast
      rw [hlast, hqU] at hlt
      exact absurd hlt (by decide)

/-- A NUL among the bytes stops the loop in time. -/
theorem loop_of_nul (h : UserReadable m d s len bs) (hend : s.toNat + len.toNat ≤ ULIM.toNat)
    (h0 : 0 ∈ bs) :
    printStr m d (2 ^ 32) s len.toInt = some (bs.takeWhile (· ≠ 0)) ∧
      ∀ a ∈ printReads m d (2 ^ 32) s len.toInt, a < ULIM →
        s.toNat ≤ a.toNat ∧ a.toNat < s.toNat + len.toNat := by
  have hn := h.length
  have hload : loadBytes m d PTE_P s bs.length = some bs := hn ▸ loadBytes_kernel h.loads
  have hlt := len.isLt
  obtain ⟨hstr, hreads⟩ := printStr_nul (2 ^ 32) hload h0 (by omega)
    ((precision_cases len).imp_right (by omega))
  refine ⟨hstr, fun a ha _ => ?_⟩
  obtain ⟨i, hi, rfl⟩ := hreads a ha
  rw [UserReadable.addr hend (by omega)]
  omega

end

/-! ## A page that ends in a letter -/

/-- Page 1 is a directory, page 2 its first table, page 3 is mapped at `0x1000`: zeros, but for
an `a` in its last byte.  Nothing else is mapped. -/
def edgeMem (p : Ppn) (i : Idx) : Word :=
  if p = 1 ∧ i = 0 then mkPte 2 (PTE_W ||| PTE_U)
  else if p = 2 ∧ i = 1 then mkPte 3 (PTE_W ||| PTE_U)
  else if p = 3 ∧ i = 1023 then 0x61000000
  else 0

/-- Slot 0 runs on CPU 0 in this address space. -/
def edgeKernel : Kernel where
  phys := ⟨1024, 0, fun _ => ⟨none, 0⟩, none, edgeMem, []⟩
  envs := fun _ => { Env.zero with envPgdir := some 1, envStatus := .running }
  envFreeList := none
  cpus := fun _ => ⟨.started, some 0, 1⟩
  hist := []

theorem edge_first : UserReadable edgeKernel.phys 1 0x1000 1 [0] :=
  ⟨by decide, fun i hi => by
    obtain rfl : i = 0 := Nat.lt_one_iff.mp hi
    decide⟩

theorem edge_last : UserReadable edgeKernel.phys 1 0x1FFF 1 [0x61] :=
  ⟨by decide, fun i hi => by
    obtain rfl : i = 0 := Nat.lt_one_iff.mp hi
    decide⟩

end SisOp.Jos
