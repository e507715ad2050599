/-
# `SisOp.Server.Cache` — loading a block on demand

`bc_pgfault` works on the block of the faulting address, but passes the address
itself to `sys_page_map`, which wants the start of a page: a block is loaded only when
its first byte is what is touched first.  The handler reads the super block and the
bitmap, and a fault there maps another block.
-/
import SisOp.Server.Buffers

namespace SisOp.Fs

open SisOp.Lib SisOp.Jos

/-- The block an address of the disk map lies in. -/
def vaBlock (addr : Nat) : Nat := (addr - DISKMAP) / BLKSIZE

/-- `bc_pgfault` for a fault at `addr`, with room for `n` faults in the handler. -/
def Machine.pgfault (n : Nat) (s : Machine) (addr : Nat) : Except String Unit × Machine :=
  Machine.bcPgfault (n + 1) s (vaBlock addr) ((addr - DISKMAP) % BLKSIZE)

/-- The handler has returned, block `b` is in memory as it is on the disk, with a clear dirty
bit, and nothing else has changed. -/
structure Loads (s : Machine) (b : Nat) (r : Except String Unit × Machine) : Prop where
  returns : r.1 = .ok ()
  loaded : r.2.cache b = some ⟨s.disk b, false⟩
  others : ∀ b', b' ≠ b → r.2.cache b' = s.cache b'
  disk : r.2.disk = s.disk

section

variable {s s' : Machine} {b off addr : Nat}

theorem Machine.remap_pageIn (s : Machine) (b : Nat) : ((s.pageIn b).remap b).cache =
    Function.update s.cache b (some ⟨s.disk b, false⟩) := by
  simp [Machine.pageIn, Machine.remap]

/-- A handler that returns has mapped its block. -/
theorem Machine.bcPgfault_maps (n : Nat) (h : Machine.bcPgfault n s b off = (.ok (), s')) :
    (s'.cache b).isSome := by
  cases n with
  | zero => cases h
  | succ n =>
      rcases h1 : s.cache 1 with _ | p
      · rw [Machine.bcPgfault_super_missing _ h1] at h
        cases h
      · rw [Machine.bcPgfault_super n (by simp [h1])] at h
        have hin : (((s.pageIn b).remap b).cache b).isSome := by simp [Machine.remap_pageIn]
        have hkept : ((Machine.access (Machine.bcPgfault n) ((s.pageIn b).remap b) (bitmapBlock b)
            (4 * (b / 32 % 1024))).2.cache b).isSome :=
          Machine.access_keeps (P := fun t => (t.cache b).isSome)
            (fun _ => Machine.bcPgfault_cached hin) hin
        split at h
        · cases h
        · split at h
          · cases h
          · split at h
            · cases h
            · rename_i hacc
              rw [hacc] at hkept
              split at h <;> cases h
              exact hkept

/-- The disk map starts at a page. -/
theorem page_start (h : DISKMAP ≤ addr) : (addr - DISKMAP) % BLKSIZE = 0 ↔ addr % BLKSIZE = 0 := by
  unfold DISKMAP BLKSIZE at *
  omega

/-- The handler for byte `off` of block `b`. -/
theorem Machine.bcPgfault_loads_iff (n : Nat) (hb : b < nblocks s.mem) (hnone : s.cache b = none)
    (huse : ¬ FreeIn s.mem b) :
    Loads s b (Machine.bcPgfault (n + 1) s b off) ↔
      off = 0 ∧ (s.cache 1).isSome ∧ ((s.cache (bitmapBlock b)).isSome ∨ bitmapBlock b = b) := by
  rcases h1 : s.cache 1 with _ | p
  · rw [Machine.bcPgfault_super_missing _ h1]
    exact iff_of_false (fun h => by cases h.returns) (by simp)
  · rw [Machine.bcPgfault_super n (by simp [h1]), if_neg (Nat.not_le.mpr hb)]
    simp only [Option.isSome_some, true_and]
    by_cases h0 : off = 0
    · rw [if_neg (not_not.mpr h0), and_iff_right h0]
      have hmem : ((s.pageIn b).remap b).mem = s.mem :=
        (Machine.remap_mem _ b).trans (Machine.pageIn_mem hnone)
      have hcache := s.remap_pageIn b
      by_cases hbit : (((s.pageIn b).remap b).cache (bitmapBlock b)).isSome
      · -- the bitmap can be read at once
        have hcond : (s.cache (bitmapBlock b)).isSome ∨ bitmapBlock b = b := by
          rw [hcache] at hbit
          rcases eq_or_ne (bitmapBlock b) b with heq | hne
          · exact Or.inr heq
          · rw [Function.update_of_ne hne] at hbit
            exact Or.inl hbit
        rw [Machine.access, if_pos hbit]
        simp only [hmem, if_neg huse]
        refine iff_of_true ⟨rfl, ?_, fun b' hne => ?_, rfl⟩ hcond
        · rw [hcache, Function.update_self]
        · rw [hcache, Function.update_of_ne hne]
      · -- reading it maps another block
        have hne : bitmapBlock b ≠ b := fun heq => hbit (by rw [hcache, heq]; simp)
        have hout : ¬ (s.cache (bitmapBlock b)).isSome := by
          rwa [hcache, Function.update_of_ne hne] at hbit
        rw [Machine.access, if_neg hbit]
        refine iff_of_false (fun h => ?_) fun h => h.elim hout hne
        rcases hf : Machine.bcPgfault n ((s.pageIn b).remap b) (bitmapBlock b)
            (4 * (b / 32 % 1024)) with ⟨e | u, s1⟩
        · rw [hf] at h
          cases h.returns
        · have hmapped := Machine.bcPgfault_maps n hf
          rw [hf] at h
          have hsame := h.others _ hne
          simp only at hsame
          split at hsame <;> rw [hsame] at hmapped <;> exact hout hmapped
    · rw [if_pos h0]
      exact iff_of_false (fun h => by cases h.returns) fun h => h0 h.1

/-- A block is loaded, and nothing else, exactly when the fault is at its start, the super block is
in memory and the block of its bitmap bit is or is the block itself. -/
theorem pgfault_loads_iff (n : Nat) (hmap : DISKMAP ≤ addr ∧ addr < DISKMAP + DISKSIZE)
    (hb : vaBlock addr < nblocks s.mem) (hnone : s.cache (vaBlock addr) = none)
    (huse : ¬ FreeIn s.mem (vaBlock addr)) :
    Loads s (vaBlock addr) (Machine.pgfault n s addr) ↔
      addr % BLKSIZE = 0 ∧ (s.cache 1).isSome ∧
        ((s.cache (bitmapBlock (vaBlock addr))).isSome ∨ bitmapBlock (vaBlock addr) = vaBlock addr) := by
  rw [← page_start hmap.1]
  exact Machine.bcPgfault_loads_iff n hb hnone huse

end

/-- The first block of the file `a`, touched at its first byte. -/
theorem pgfault_loads_first : Loads (sampleMachine fun _ => 0) (vaBlock 0x10004000)
    (Machine.pgfault 2 (sampleMachine fun _ => 0) 0x10004000) := by
  refine (pgfault_loads_iff 2 (by decide) ?_ rfl ?_).mpr ⟨by decide, rfl, Or.inl rfl⟩
  · decide
  · decide

/-- The same block, touched at byte 20: `sys_page_map` refuses the address. -/
theorem pgfault_panics_unaligned : ¬ ∀ (n : Nat) (s : Machine) (addr : Nat),
    DISKMAP ≤ addr ∧ addr < DISKMAP + DISKSIZE → vaBlock addr < nblocks s.mem →
    s.cache (vaBlock addr) = none → ¬ FreeIn s.mem (vaBlock addr) →
    Loads s (vaBlock addr) (Machine.pgfault n s addr) := by
  intro hall
  have hloads := hall 2 (sampleMachine fun _ => 0) 0x10004014 (by decide) (by decide) rfl (by decide)
  have hret : (Machine.pgfault 2 (sampleMachine fun _ => 0) 0x10004014).1 =
      .error "in bc_pgfault, sys_page_map" := rfl
  rw [hloads.returns] at hret
  cases hret

end SisOp.Fs
