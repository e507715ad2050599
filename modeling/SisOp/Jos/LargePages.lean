/-
# `SisOp.Jos.LargePages` — 4 MiB pages (`TP1_PSE` in `kern/pmap.c`)

`boot_map_region` as it is compiled with `TP1_PSE`, where a directory entry with
`PTE_PS` maps 4 MiB by itself, and what the processor makes of a directory that may
hold such entries (`va2pa`): the physical address of a byte and what may be done to
it.  `check_va2pa` is the kernel's own version of the same walk.
-/
import SisOp.Jos.MemInit

namespace SisOp.Jos

/-! ## `boot_map_region` with `TP1_PSE` -/

/-- The loop.  Every turn maps at least one page, so that `size / PGSIZE` turns are enough. -/
def bootMapPseLoop (pgdir : Ppn) (perm : Word) :
    Nat → Phys → Word → Word → Word → Except String Phys
  | 0, m, _, size, _ => if 0 < size then .error "boot_map_region: out of fuel" else .ok m
  | fuel + 1, m, va, size, pa =>
      if 0 < size then
        if PTSIZE ≤ size ∧ va % PTSIZE = 0 ∧ pa % PTSIZE = 0 then
          bootMapPseLoop pgdir perm fuel
            (m.store (pgdir, PDX va) (PTE_ADDR pa ||| perm ||| PTE_P ||| PTE_PS))
            (va + PTSIZE) (size - PTSIZE) (pa + PTSIZE)
        else do
          match ← pgdirWalk m pgdir va true with
          | (none, m) => return m
          | (some pte, m) =>
              bootMapPseLoop pgdir perm fuel (m.store pte (pa ||| perm ||| PTE_P))
                (va + PGSIZE) (size - PGSIZE) (pa + PGSIZE)
      else .ok m

/-- `boot_map_region(pgdir, va, size, pa, perm)`, compiled with `TP1_PSE`. -/
def bootMapRegionPse (m : Phys) (pgdir : Ppn) (va size pa perm : Word) : Except String Phys :=
  bootMapPseLoop pgdir perm (size.toNat / 4096) m va size pa

/-! ## The processor's walk -/

/-- The bits of an entry that decide about an access: what is allowed, and how it is cached. -/
def accessBits : Word := PTE_P ||| PTE_W ||| PTE_U ||| PTE_PWT ||| PTE_PCD

/-- A page may be written, or used in user mode, only if both entries say so. -/
def effective (pde pte : Word) : Word := pte &&& (pde ||| ~~~(PTE_W ||| PTE_U)) &&& accessBits

/-- The physical address of the byte at `va`, and what may be done to it. -/
def va2pa (m : Phys) (pgdir : Ppn) (va : Word) : Option (Word × Word) :=
  let pde := m.load (pgdir, PDX va)
  if ¬ PTE_VALID pde then none
  else if pde &&& PTE_PS ≠ 0 then some (PGADDR (PDX pde) (PTX va) ||| PGOFF va, pde &&& accessBits)
  else
    let pte := m.load (PGNUM pde, PTX va)
    if ¬ PTE_VALID pte then none else some (PTE_ADDR pte ||| PGOFF va, effective pde pte)

/-- `check_va2pa(pgdir, va)`. -/
def checkVa2pa (m : Phys) (pgdir : Ppn) (va : Word) : Except String Word := do
  let pde := m.load (pgdir, PDX va)
  if pde &&& PTE_P = 0 then return ~~~0
  if pde &&& PTE_PS ≠ 0 then return PGADDR (PDX pde) (PTX va) ||| PGOFF va
  let p ← KADDR m (PGNUM (PTE_ADDR pde))
  if m.load (p, PTX va) &&& PTE_P = 0 then return ~~~0
  return PTE_ADDR (m.load (p, PTX va))

/-- On the address of a page `check_va2pa` gives what the processor finds. -/
theorem checkVa2pa_eq {m : Phys} {pgdir : Ppn} {va : Word} (hva : PGOFF va = 0)
    (htab : (PGNUM (m.load (pgdir, PDX va))).toNat < m.npages) :
    checkVa2pa m pgdir va = .ok (((va2pa m pgdir va).map Prod.fst).getD (~~~0)) := by
  have hk : KADDR m (PGNUM (m.load (pgdir, PDX va))) = .ok (PGNUM (m.load (pgdir, PDX va))) :=
    if_neg (by omega)
  by_cases hpde : PTE_VALID (m.load (pgdir, PDX va))
  · have hp := PTE_VALID_iff.mp hpde
    by_cases hps : m.load (pgdir, PDX va) &&& PTE_PS = 0
    · simp only [checkVa2pa, va2pa, if_neg hp, hpde, hps, PGNUM_PTE_ADDR, hk, bind, Except.bind,
        not_true_eq_false, ne_eq, if_false, pure, Except.pure]
      by_cases hpte : PTE_VALID (m.load (PGNUM (m.load (pgdir, PDX va)), PTX va))
      · rw [if_neg (PTE_VALID_iff.mp hpte), if_neg (not_not.mpr hpte), hva]
        simp
      · rw [if_pos (not_not.mp (PTE_VALID_iff.not.mp hpte)), if_pos hpte]
        rfl
    · simp only [checkVa2pa, va2pa, if_neg hp, hpde, not_true_eq_false, ne_eq, if_false,
        hps, not_false_eq_true, if_true, pure, Except.pure]
      rfl
  · simp only [checkVa2pa, va2pa, if_pos (not_not.mp (PTE_VALID_iff.not.mp hpde)), hpde,
      not_false_eq_true, if_true, pure, Except.pure]
    rfl

end SisOp.Jos
