/-
# `SisOp.Jos.Mmu` — addresses, page-table entries and the memory map

`inc/types.h`, `inc/mmu.h`, `inc/memlayout.h` and `inc/error.h` of the last JOS
delivery.  Addresses and table entries are the 32-bit words they are in C, so
every rounding and every sum wraps.  A `struct PageInfo *` is the number of the
physical page it describes, 20 bits: `page2pa` and `PGNUM` are inverse to each
other on it (`PGNUM_page2pa`).

The flag algebra the rest of the development needs is `mkPte`: what `PGNUM`,
`PTE_VALID` and the `PTE_W` test give on an entry that `page_insert` composes.
-/
import Mathlib.Data.Fin.Basic
import Mathlib.Tactic.IntervalCases

namespace SisOp.Jos

/-- `uint32_t`, `uintptr_t`, `physaddr_t`, `pte_t`, `pde_t`. -/
abbrev Word := BitVec 32

abbrev Byte := BitVec 8

/-- A physical page, as `struct PageInfo *` names it: its index in `pages`. -/
abbrev Ppn := BitVec 20

/-- An index into a page directory or a page table. -/
abbrev Idx := Fin 1024

instance neZero_1024 : NeZero 1024 := ⟨by decide⟩

/-! ## Error codes (`inc/error.h`) -/

def E_BAD_ENV : Int := 2
def E_INVAL : Int := 3
def E_NO_MEM : Int := 4
def E_NO_FREE_ENV : Int := 5
def E_FAULT : Int := 6
def E_IPC_NOT_RECV : Int := 7

/-! ## Sizes and the memory map -/

def PGSIZE : Word := 4096
def PTSIZE : Word := 4194304

def KERNBASE : Word := 0xF0000000
def IOPHYSMEM : Word := 0x0A0000
def EXTPHYSMEM : Word := 0x100000
def MPENTRY_PADDR : Word := 0x7000
def KSTACKTOP : Word := KERNBASE
def MMIOLIM : Word := KSTACKTOP - PTSIZE
def MMIOBASE : Word := MMIOLIM - PTSIZE
def ULIM : Word := MMIOBASE
def UVPT : Word := ULIM - PTSIZE
def UPAGES : Word := UVPT - PTSIZE
def UENVS : Word := UPAGES - PTSIZE
def UTOP : Word := UENVS
def UXSTACKTOP : Word := UTOP
def USTACKTOP : Word := UTOP - 2 * PGSIZE
def UTEMP : Word := PTSIZE
def PFTEMP : Word := UTEMP + PTSIZE - PGSIZE

@[simp] theorem PGSIZE_toNat : PGSIZE.toNat = 4096 := rfl
@[simp] theorem PTSIZE_toNat : PTSIZE.toNat = 4194304 := rfl
@[simp] theorem UTOP_toNat : UTOP.toNat = 4005560320 := rfl
@[simp] theorem ULIM_toNat : ULIM.toNat = 4018143232 := rfl
@[simp] theorem USTACKTOP_toNat : USTACKTOP.toNat = 4005552128 := rfl
@[simp] theorem PFTEMP_toNat : PFTEMP.toNat = 8384512 := rfl

/-! ## Rounding (`inc/types.h`) -/

/-- `ROUNDDOWN(a, n)`: `a - a % n` on 32-bit words. -/
def ROUNDDOWN (a n : Word) : Word := a - a % n

/-- `ROUNDUP(a, n)`: `ROUNDDOWN(a + n - 1, n)`; the sum wraps. -/
def ROUNDUP (a n : Word) : Word := ROUNDDOWN (a + n - 1) n

theorem ROUNDDOWN_toNat (a n : Word) :
    (ROUNDDOWN a n).toNat = a.toNat - a.toNat % n.toNat := by
  have hle : a.toNat % n.toNat ≤ a.toNat := Nat.mod_le _ _
  have hlt : a.toNat < 2 ^ 32 := a.isLt
  rw [ROUNDDOWN, BitVec.toNat_sub, BitVec.toNat_umod]
  omega

theorem ROUNDDOWN_PGSIZE (a : Word) : (ROUNDDOWN a PGSIZE).toNat = a.toNat / 4096 * 4096 := by
  rw [ROUNDDOWN_toNat, PGSIZE_toNat]
  omega

theorem ROUNDUP_PGSIZE (a : Word) :
    (ROUNDUP a PGSIZE).toNat = (a.toNat + 4095) % 4294967296 / 4096 * 4096 := by
  rw [ROUNDUP, ROUNDDOWN_PGSIZE, BitVec.toNat_sub, BitVec.toNat_add]
  simp
  omega

/-! ## The three parts of a linear address -/

/-- `PDX(la)`: the page directory index. -/
def PDX (la : Word) : Idx := ⟨la.toNat >>> 22 &&& 0x3FF, Nat.and_lt_two_pow (n := 10) _ (by omega)⟩

/-- `PTX(la)`: the page table index. -/
def PTX (la : Word) : Idx := ⟨la.toNat >>> 12 &&& 0x3FF, Nat.and_lt_two_pow (n := 10) _ (by omega)⟩

/-- `PGNUM(la)`: the page number field. -/
def PGNUM (la : Word) : Ppn := la.extractLsb' 12 20

/-- `PGOFF(la)`: the offset in the page, and the flags of an entry. -/
def PGOFF (la : Word) : Word := la &&& 0xFFF

/-- `PGADDR(d, t, 0)`. -/
def PGADDR (d t : Idx) : Word := BitVec.ofNat 32 (d.val <<< 22 ||| t.val <<< 12)

/-- `page2pa(pp)`: `(pp - pages) << PGSHIFT`. -/
def page2pa (pp : Ppn) : Word := pp.setWidth 32 <<< 12

theorem PDX_val (la : Word) : (PDX la).val = la.toNat / 4194304 := by
  have hlt : la.toNat < 2 ^ 32 := la.isLt
  show la.toNat >>> 22 &&& 0x3FF = _
  rw [show (0x3FF : Nat) = 2 ^ 10 - 1 from rfl, Nat.and_two_pow_sub_one_eq_mod, Nat.shiftRight_eq_div_pow]
  omega

theorem PTX_val (la : Word) : (PTX la).val = la.toNat / 4096 % 1024 := by
  show la.toNat >>> 12 &&& 0x3FF = _
  rw [show (0x3FF : Nat) = 2 ^ 10 - 1 from rfl, Nat.and_two_pow_sub_one_eq_mod, Nat.shiftRight_eq_div_pow]

theorem PGADDR_toNat (d t : Idx) : (PGADDR d t).toNat = d.val * 4194304 + t.val * 4096 := by
  have hd := d.isLt
  have ht := t.isLt
  have hor : d.val <<< 22 ||| t.val <<< 12 = d.val <<< 22 + t.val <<< 12 := by
    rw [Nat.shiftLeft_eq _ 12, Nat.shiftLeft_add_eq_or_of_lt (by omega)]
  rw [PGADDR, BitVec.toNat_ofNat, hor, Nat.shiftLeft_eq, Nat.shiftLeft_eq]
  omega

@[simp] theorem PDX_PGADDR (d t : Idx) : PDX (PGADDR d t) = d := by
  have ht := t.isLt
  refine Fin.ext ?_
  rw [PDX_val, PGADDR_toNat]
  omega

@[simp] theorem PTX_PGADDR (d t : Idx) : PTX (PGADDR d t) = t := by
  have ht := t.isLt
  refine Fin.ext ?_
  rw [PTX_val, PGADDR_toNat]
  omega

/-- Two page-aligned addresses with the same indices are equal. -/
theorem eq_of_PDX_PTX {a b : Word} (ha : a.toNat % 4096 = 0) (hb : b.toNat % 4096 = 0)
    (hd : PDX a = PDX b) (ht : PTX a = PTX b) : a = b := by
  have h1 := congrArg Fin.val hd
  have h2 := congrArg Fin.val ht
  rw [PDX_val, PDX_val] at h1
  rw [PTX_val, PTX_val] at h2
  refine BitVec.eq_of_toNat_eq ?_
  omega

/-- The user part of a directory: the entries below `UTOP`. -/
def UserPdx (i : Idx) : Prop := i.val < 955

instance : DecidablePred UserPdx := fun i => inferInstanceAs (Decidable (i.val < 955))

theorem PDX_UTOP : (PDX UTOP).val = 955 := rfl

theorem userPdx_iff {va : Word} : UserPdx (PDX va) ↔ va < UTOP := by
  rw [UserPdx, PDX_val, BitVec.lt_def, UTOP_toNat]
  omega

@[simp] theorem PGNUM_page2pa (pp : Ppn) : PGNUM (page2pa pp) = pp := by
  have hlt := pp.isLt
  refine BitVec.eq_of_toNat_eq ?_
  simp only [PGNUM, page2pa, BitVec.extractLsb'_toNat, BitVec.toNat_shiftLeft, BitVec.toNat_setWidth,
    Nat.shiftRight_eq_div_pow, Nat.shiftLeft_eq]
  omega

theorem page2pa_toNat (pp : Ppn) : (page2pa pp).toNat = pp.toNat * 4096 := by
  have hlt := pp.isLt
  simp only [page2pa, BitVec.toNat_shiftLeft, BitVec.toNat_setWidth, Nat.shiftLeft_eq]
  omega

theorem PGNUM_toNat (la : Word) : (PGNUM la).toNat = la.toNat / 4096 := by
  have hlt := la.isLt
  rw [PGNUM, BitVec.extractLsb'_toNat, Nat.shiftRight_eq_div_pow]
  omega

theorem PGNUM_or (a b : Word) : PGNUM (a ||| b) = PGNUM a ||| PGNUM b :=
  BitVec.extractLsb'_or

theorem PGNUM_and (a b : Word) : PGNUM (a &&& b) = PGNUM a &&& PGNUM b :=
  BitVec.extractLsb'_and

/-! ## Flags of an entry -/

def PTE_P : Word := 0x001
def PTE_W : Word := 0x002
def PTE_U : Word := 0x004
def PTE_PWT : Word := 0x008
def PTE_PCD : Word := 0x010
def PTE_PS : Word := 0x080
def PTE_AVAIL : Word := 0xE00
def PTE_SYSCALL : Word := PTE_AVAIL ||| PTE_P ||| PTE_W ||| PTE_U

/-- `PTE_ADDR(pte)`. -/
def PTE_ADDR (pte : Word) : Word := pte &&& ~~~0xFFF

@[simp] theorem PGNUM_PTE_ADDR (pte : Word) : PGNUM (PTE_ADDR pte) = PGNUM pte := by
  rw [PTE_ADDR, PGNUM_and, show PGNUM (~~~0xFFF) = BitVec.allOnes 20 from rfl, BitVec.and_allOnes]

/-- `PTE_VALID(pte)` of `kern/pmap.c`: or-ing in the present bit changes nothing. -/
def PTE_VALID (pte : Word) : Prop := pte ||| PTE_P = pte

instance : DecidablePred PTE_VALID := fun pte => inferInstanceAs (Decidable (pte ||| PTE_P = pte))

theorem PTE_P_getLsbD {i : Nat} (hi : i < 32) : PTE_P.getLsbD i = decide (i = 0) := by
  interval_cases i <;> rfl

/-- `pte & PTE_P`, as `env_free` tests it. -/
theorem PTE_VALID_iff {pte : Word} : PTE_VALID pte ↔ pte &&& PTE_P ≠ 0 := by
  have hvalid : PTE_VALID pte ↔ pte.getLsbD 0 = true := by
    constructor
    · intro h
      rw [← (h : pte ||| PTE_P = pte), BitVec.getLsbD_or, PTE_P_getLsbD (by decide)]
      exact Bool.or_true _
    · intro h
      refine BitVec.eq_of_getLsbD_eq fun i hi => ?_
      rw [BitVec.getLsbD_or, PTE_P_getLsbD hi]
      rcases Nat.eq_zero_or_pos i with rfl | hpos
      · rw [h]
        rfl
      · simp [hpos.ne']
  have hzero : pte &&& PTE_P = 0 ↔ pte.getLsbD 0 = false := by
    constructor
    · intro h
      have hbit := congrArg (BitVec.getLsbD · 0) h
      simp only [BitVec.getLsbD_and, PTE_P_getLsbD (show 0 < 32 by decide), decide_true,
        Bool.and_true] at hbit
      exact hbit
    · intro h
      refine BitVec.eq_of_getLsbD_eq fun i hi => ?_
      rw [BitVec.getLsbD_and, PTE_P_getLsbD hi]
      rcases Nat.eq_zero_or_pos i with rfl | hpos
      · rw [h]
        rfl
      · simp [hpos.ne']
  rw [hvalid, ne_eq, hzero, Bool.not_eq_false]

/-- `pte & PTE_W`. -/
def Writable (pte : Word) : Prop := pte &&& PTE_W ≠ 0

instance : DecidablePred Writable := fun pte => inferInstanceAs (Decidable (pte &&& PTE_W ≠ 0))

@[simp] theorem not_PTE_VALID_zero : ¬ PTE_VALID 0 := by decide

/-- `perm` stays within the twelve flag bits of an entry. -/
def FlagsOnly (perm : Word) : Prop := PGNUM perm = 0

instance : DecidablePred FlagsOnly := fun perm => inferInstanceAs (Decidable (PGNUM perm = 0))

/-- The entry `page_insert` composes: `page2pa(pp) | perm | PTE_P`. -/
def mkPte (pp : Ppn) (perm : Word) : Word := page2pa pp ||| perm ||| PTE_P

theorem PTE_VALID_mkPte (pp : Ppn) (perm : Word) : PTE_VALID (mkPte pp perm) := by
  simp [PTE_VALID, mkPte, BitVec.or_assoc]

theorem PGNUM_mkPte (pp : Ppn) {perm : Word} (hp : FlagsOnly perm) : PGNUM (mkPte pp perm) = pp := by
  rw [mkPte, PGNUM_or, PGNUM_or, hp, PGNUM_page2pa]
  simp [PGNUM, PTE_P]

/-- The writable bit of the entry is the one of `perm`. -/
theorem writable_mkPte (pp : Ppn) (perm : Word) : Writable (mkPte pp perm) ↔ Writable perm := by
  have h : mkPte pp perm &&& PTE_W = perm &&& PTE_W := by
    refine BitVec.eq_of_getLsbD_eq (fun i hi => ?_)
    simp only [mkPte, page2pa, PTE_P, PTE_W, BitVec.getLsbD_and, BitVec.getLsbD_or,
      BitVec.getLsbD_shiftLeft, BitVec.getLsbD_setWidth]
    interval_cases i <;> simp
  rw [Writable, Writable, h]

/-! ## The permission test of the system calls -/

/-- `mask_must` of `sys_page_alloc` and `sys_page_map`. -/
def maskMust : Word := PTE_P ||| PTE_U

/-- `mask_may` of `sys_page_alloc` and `sys_page_map`. -/
def maskMay : Word := PTE_AVAIL ||| PTE_W

/-- The test both calls reject `perm` with, negated. -/
def PermOk (perm : Word) : Prop :=
  ¬ (perm &&& maskMust ≠ maskMust ∨ perm &&& ~~~maskMust &&& ~~~maskMay ≠ 0)

instance : DecidablePred PermOk := fun perm =>
  inferInstanceAs (Decidable (¬ (perm &&& maskMust ≠ maskMust ∨
    perm &&& ~~~maskMust &&& ~~~maskMay ≠ 0)))

theorem PermOk.flagsOnly {perm : Word} (h : PermOk perm) : FlagsOnly perm := by
  simp only [PermOk, not_or, ne_eq, Decidable.not_not] at h
  have hz := congrArg PGNUM h.2
  rwa [PGNUM_and, PGNUM_and, show PGNUM (~~~maskMust) = BitVec.allOnes 20 from rfl,
    show PGNUM (~~~maskMay) = BitVec.allOnes 20 from rfl, BitVec.and_allOnes,
    BitVec.and_allOnes] at hz

theorem PermOk.ne_zero {perm : Word} (h : PermOk perm) : perm ≠ 0 := by
  rintro rfl
  exact absurd h (by decide)

end SisOp.Jos
