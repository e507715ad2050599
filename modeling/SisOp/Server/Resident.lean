/-
# `SisOp.Server.Resident` — runs without a page fault

A program that has returned on the machine has left every block it touched in memory
(`covered_of_machine`), and one that touches such blocks only does on the machine what
it does on the view (`run_of_resident`).  So what a first call has touched a second one
may touch again.
-/
import SisOp.Server.Cache
import SisOp.Server.Content

namespace SisOp.Fs

open SisOp.Lib SisOp.Jos

/-! ## What a command touches -/

/-- The address lies in block `b`. -/
def InBlock (va b : Nat) : Prop :=
  (DISKMAP ≤ va ∧ va < DISKMAP + DISKSIZE) ∧ (va - DISKMAP) / BLKSIZE = b

def Cmd.Touches : Cmd → Nat → Prop
  | .access va, b => InBlock va b
  | .load (.disk b' _), b => b' = b
  | .store (.disk b' _) _, b => b' = b
  | _, _ => False

/-- It touches only blocks of `R`. -/
def Only (R : Nat → Prop) (c : Cmd) : Prop := ∀ b, c.Touches b → R b

/-- The block is in memory. -/
def Machine.Resident (s : Machine) (b : Nat) : Prop := (s.cache b).isSome

section

variable {α : Type} {s s' : Machine} {c : Cmd} {R : Nat → Prop} {b off : Nat}

theorem Machine.touch_resident {u : Unit} (h : s.touch b off = (.ok u, s')) : s'.Resident b := by
  unfold Machine.touch Machine.access at h
  split at h
  · cases h
    exact ‹_›
  · exact Machine.bcPgfault_maps 3 h

theorem onMachine_resident {r : c.Ans} (h : onMachine c s = (.ok r, s')) : Only s'.Resident c := by
  intro b hb
  cases c with
  | access va =>
      obtain ⟨hmap, rfl⟩ := hb
      change s.accessAt va = _ at h
      unfold Machine.accessAt at h
      rw [if_pos hmap] at h
      exact Machine.touch_resident h
  | load c =>
      cases c with
      | req i | own i => exact hb.elim
      | disk b' i =>
          cases hb
          simp only [onMachine] at h
          rcases ht : s.touch b (4 * i) with ⟨e | u, s1⟩
          · rw [ht] at h
            cases h
          · rw [ht] at h
            cases h
            exact Machine.touch_resident ht
  | store c w =>
      cases c with
      | req i | own i => exact hb.elim
      | disk b' i =>
          cases hb
          simp only [onMachine] at h
          rcases ht : s.touch b (4 * i) with ⟨e | u, s1⟩
          · rw [ht] at h
            cases h
          · rw [ht] at h
            cases h
            simp [Machine.Resident, Machine.store]
  | _ => exact hb.elim

theorem only_kept (c c' : Cmd) (s : Machine) (h : Only s.Resident c) :
    Only (onMachine c' s).2.Resident c := fun b hb => onMachine_cached c' s (h b hb)

theorem Machine.touch_of_resident (h : s.Resident b) (off : Nat) : s.touch b off = (.ok (), s) :=
  if_pos h

/-- With its block in memory a command does not fault. -/
theorem onMachine_live {r : c.Ans} {t : View} (h : Only s.Resident c)
    (hview : onView c s.view = (.ok r, t)) : ∃ r' s1, onMachine c s = (.ok r', s1) := by
  cases c with
  | access va =>
      by_cases hmap : DISKMAP ≤ va ∧ va < DISKMAP + DISKSIZE
      · refine ⟨(), s, ?_⟩
        show s.accessAt va = _
        unfold Machine.accessAt
        rw [if_pos hmap]
        exact Machine.touch_of_resident (h _ ⟨hmap, rfl⟩) _
      · exact ⟨(), s, if_neg hmap⟩
  | load c =>
      cases c with
      | req i | own i => exact ⟨_, _, rfl⟩
      | disk b i =>
          refine ⟨s.mem b i, s, ?_⟩
          simp only [onMachine, Machine.touch_of_resident (h b rfl)]
  | store c w =>
      cases c with
      | req i | own i => exact ⟨_, _, rfl⟩
      | disk b i =>
          refine ⟨(), s.store b i w, ?_⟩
          simp only [onMachine, Machine.touch_of_resident (h b rfl)]
  | flush b | note m => exact ⟨_, _, rfl⟩
  | panic msg => cases hview

theorem covered_of_machine {p : FsM α} {a : α} (hrun : p.run onMachine s = (.ok a, s')) :
    Prog.Covered onView (Only s'.Resident) p s.view :=
  abstracts.covered_of_run (P := fun s => Only s.Resident) (fun _ _ _ _ => onMachine_resident) only_kept
    hrun

theorem run_of_resident {p : FsM α} {a : α} {t : View} (hcov : Prog.Covered onView (Only R) p s.view)
    (hR : ∀ b, R b → s.Resident b) (hrun : p.run onView s.view = (.ok a, t)) :
    ∃ s', p.run onMachine s = (.ok a, s') ∧ s'.view = t :=
  abstracts.run_of_covered (P := fun s => Only s.Resident) (fun _ _ _ _ => onMachine_live) only_kept
    (fun _ hc b hb => hR b (hc b hb)) hcov hrun

end

/-! ## Bytes -/

section

variable {v : View} {R : Nat → Prop} {va n b i : Nat} {bs : List Byte}

theorem only_disk (hb : R b) (i : Nat) : Only R (.load (.disk b i)) := fun _ h => h ▸ hb

theorem inBlock_of_cell (h : cellOf va = some (.disk b i)) : InBlock va b := by
  unfold cellOf at h
  split at h
  · cases h
  · split at h
    · cases h
    · split at h
      · cases h
        exact ⟨‹_›, rfl⟩
      · cases h

theorem Private.not_inBlock (h : Private va) : ¬ InBlock va b := fun hin => hin.1.1.not_gt h.2

theorem inBlock_diskVa {o : Nat} (ho : o < BLKSIZE) (h : InBlock (diskVa b o) n) : n = b := by
  obtain ⟨-, heq⟩ := h
  unfold diskVa BLKSIZE at *
  omega

theorem inBlock_diskVa_self {o : Nat} (hb : b < DISKSIZE / BLKSIZE) (ho : o < BLKSIZE) :
    InBlock (diskVa b o) b := inBlock_of_cell (cellOf_diskVa hb ho)

theorem covered_panic {α : Type} (msg : String) : Prog.Covered onView (Only R) (panic msg : FsM α) v :=
  ⟨fun _ h => h.elim, fun r => nomatch r⟩

theorem covered_loadByte (h : ∀ b, InBlock va b → R b) : Prog.Covered onView (Only R) (loadByte va) v := by
  unfold loadByte
  split
  · exact covered_panic _
  · rename_i c hc
    refine Prog.covered_bind.mpr ⟨Prog.covered_cmd.mpr h, fun _ v1 _ => ?_⟩
    refine Prog.covered_bind.mpr ⟨Prog.covered_cmd.mpr fun b hb => ?_, fun _ _ _ => Prog.covered_pure _⟩
    cases c with
    | disk b' i =>
        cases hb
        exact h b (inBlock_of_cell hc)
    | req i | own i => exact hb.elim

theorem covered_storeByte (b : Byte) (h : ∀ b, InBlock va b → R b) :
    Prog.Covered onView (Only R) (storeByte va b) v := by
  unfold storeByte
  split
  · exact covered_panic _
  · rename_i c hc
    have hcell : ∀ b, (Cmd.load c).Touches b → R b := fun b hb => by
      cases c with
      | disk b' i =>
          cases hb
          exact h b (inBlock_of_cell hc)
      | req i | own i => exact hb.elim
    refine Prog.covered_bind.mpr ⟨Prog.covered_cmd.mpr h, fun _ v1 _ => ?_⟩
    refine Prog.covered_bind.mpr ⟨Prog.covered_cmd.mpr hcell, fun _ _ _ => Prog.covered_cmd.mpr ?_⟩
    intro b hb
    refine hcell b ?_
    cases c <;> exact hb

theorem covered_loadBytes (h : ∀ i, i < n → ∀ b, InBlock (va + i) b → R b) :
    Prog.Covered onView (Only R) (loadBytes va n) v := by
  induction n generalizing va v with
  | zero => exact Prog.covered_pure _
  | succ n ih =>
      refine Prog.covered_bind.mpr ⟨covered_loadByte (h 0 (by omega)), fun _ v1 _ => ?_⟩
      refine Prog.covered_bind.mpr ⟨ih fun i hi => ?_, fun _ _ _ => Prog.covered_pure _⟩
      rw [Nat.add_assoc, Nat.add_comm 1]
      exact h (i + 1) (by omega)

theorem covered_storeBytes (h : ∀ i, i < bs.length → ∀ b, InBlock (va + i) b → R b) :
    Prog.Covered onView (Only R) (storeBytes va bs) v := by
  induction bs generalizing va v with
  | nil => exact Prog.covered_pure _
  | cons b bs ih =>
      refine Prog.covered_bind.mpr ⟨covered_storeByte b (h 0 (by simp)), fun _ v1 _ => ih fun i hi => ?_⟩
      rw [Nat.add_assoc, Nat.add_comm 1]
      exact h (i + 1) (by rw [List.length_cons]; omega)

theorem covered_memmove {dst src : Nat} (hmap : ∀ i, i < n → Mapped (src + i))
    (hsrc : ∀ i, i < n → ∀ b, InBlock (src + i) b → R b)
    (hdst : ∀ i, i < n → ∀ b, InBlock (dst + i) b → R b) :
    Prog.Covered onView (Only R) (memmove dst src n) v := by
  unfold memmove
  refine Prog.covered_bind.mpr ⟨Prog.covered_cmd.mpr fun _ h => h.elim, fun _ v1 _ => ?_⟩
  refine Prog.covered_bind.mpr ⟨covered_loadBytes hsrc, fun bs v2 hrun => covered_storeBytes ?_⟩
  rw [run_loadBytes hmap] at hrun
  cases hrun
  rw [View.length_bytes]
  exact hdst

/-- A copy touches its destination. -/
theorem touched_memmove {dst src : Nat} (hn : 0 < n) (hmap : ∀ i, i < n → Mapped (src + i))
    (hdst : InBlock dst b) (hcov : Prog.Covered onView (Only R) (memmove dst src n) v) : R b := by
  unfold memmove at hcov
  have hload := (Prog.covered_bind.mp hcov).2 _ _ (run_note _ v)
  have hstore := (Prog.covered_bind.mp hload).2 _ _ (run_loadBytes hmap)
  obtain ⟨m, rfl⟩ := Nat.exists_eq_succ_of_ne_zero hn.ne'
  rw [View.bytes, List.range_succ_eq_map, List.map_cons, storeBytes] at hstore
  have hbyte := (Prog.covered_bind.mp hstore).1
  unfold storeByte at hbyte
  split at hbyte
  · rename_i hnone
    have hmapped : Mapped dst := by
      obtain ⟨⟨hlo, hhi⟩, -⟩ := hdst
      unfold Mapped UTEXT DISKMAP at *
      omega
    have hsome := cellOf_isSome.mpr hmapped
    rw [hnone] at hsome
    cases hsome
  · exact Prog.covered_cmd.mp (Prog.covered_bind.mp hbyte).1 b hdst

end

/-! ## Blocks of a file -/

section

variable {v : View} {R : Nat → Prop} {F : FilePtr → Prop} {f : FilePtr} {filebno : Word}

theorem touched_diskaddr {w : Word} (h0 : w ≠ 0) (hcov : Prog.Covered onView (Only R) (diskaddr w) v) :
    R 1 := by
  unfold diskaddr at hcov
  rw [if_neg h0] at hcov
  exact Prog.covered_cmd.mp (Prog.covered_bind.mp hcov).1 1 rfl

theorem covered_diskaddr {w : Word} (h1 : R 1) : Prog.Covered onView (Only R) (diskaddr w) v := by
  unfold diskaddr
  split
  · exact covered_panic _
  · refine Prog.covered_bind.mpr ⟨Prog.covered_cmd.mpr (only_disk h1 1), fun _ _ _ => ?_⟩
    split
    · exact covered_panic _
    · exact Prog.covered_pure _

/-- `file_get_block` touches the slot and the super block. -/
theorem touched_fileGetBlock (h : Owned v.mem F) (hf : F f) (hs : HasSlot v.mem f filebno.toNat)
    (hcov : Prog.Covered onView (Only R) (fileGetBlock f filebno) v) :
    R (slotBlk v.mem f filebno.toNat) ∧ R 1 := by
  have hrange : ¬ NDIRECT + NINDIRECT ≤ filebno.toNat := by
    rcases hs with hk | ⟨hk, -⟩ <;> omega
  have hind : filebno.toNat < NDIRECT ∨ v.get f.fIndirect ≠ 0 ∨
      NDIRECT + NINDIRECT ≤ filebno.toNat ∨ true = false :=
    hs.imp_right fun hk => .inl fun hzero => hk.2 (congrArg BitVec.toNat hzero)
  have hwalk := h.run_fileBlockWalk hf true hind
  rw [if_neg hrange, if_pos hs] at hwalk
  unfold fileGetBlock at hcov
  have hrest := (Prog.covered_bind.mp hcov).2 _ _ hwalk
  simp only at hrest
  obtain ⟨hslot, hrest⟩ := Prog.covered_bind.mp hrest
  have hafter := hrest _ _ (run_load _ v)
  refine ⟨Prog.covered_cmd.mp hslot _ rfl, ?_⟩
  split at hafter
  · have halloc := (Prog.covered_bind.mp hafter).1
    unfold allocBlock at halloc
    exact Prog.covered_cmd.mp (Prog.covered_bind.mp halloc).1 1 rfl
  · rename_i h0
    have haddr := (Prog.covered_bind.mp hafter).2 _ _ (run_load _ v)
    exact touched_diskaddr h0 (Prog.covered_bind.mp haddr).1

/-- `file_get_block` of a block the file has touches nothing else. -/
theorem covered_fileGetBlock (h : Owned v.mem F) (hf : F f) (h0 : fileBlock v.mem f filebno.toNat ≠ 0)
    (hblk : R f.blk) (hslot : R (slotBlk v.mem f filebno.toNat)) (h1 : R 1) :
    Prog.Covered onView (Only R) (fileGetBlock f filebno) v := by
  have hs := hasSlot_of_ne_zero h0
  have hrange : ¬ NDIRECT + NINDIRECT ≤ filebno.toNat := by
    rcases hs with hk | ⟨hk, -⟩ <;> omega
  have hne : filebno.toNat < NDIRECT ∨ v.get f.fIndirect ≠ 0 :=
    hs.imp_right fun hk hzero => hk.2 (congrArg BitVec.toNat hzero)
  have hwalk := h.run_fileBlockWalk hf true (hne.imp_right .inl)
  rw [if_neg hrange, if_pos hs] at hwalk
  have hword : v.get (slot v.mem f filebno.toNat) ≠ 0 := fun hzero => by
    rw [fileBlock_of_slot hs] at h0
    exact h0 (congrArg BitVec.toNat hzero)
  unfold fileGetBlock
  refine Prog.covered_bind.mpr ⟨?_, fun r v1 hrun => ?_⟩
  · unfold fileBlockWalk
    rw [if_neg hrange]
    split
    · exact Prog.covered_pure _
    · rename_i hk
      refine Prog.covered_bind.mpr ⟨Prog.covered_cmd.mpr (only_disk hblk _), fun w v1 hrun => ?_⟩
      cases hrun
      rw [if_neg (hne.resolve_left hk)]
      unfold indirectSlot
      refine Prog.covered_bind.mpr ⟨Prog.covered_cmd.mpr (only_disk hblk _), fun w v1 hrun => ?_⟩
      exact Prog.covered_bind.mpr ⟨covered_diskaddr h1, fun _ _ _ => Prog.covered_pure _⟩
  · rw [hwalk] at hrun
    cases hrun
    simp only
    refine Prog.covered_bind.mpr ⟨Prog.covered_cmd.mpr (only_disk hslot _), fun w v1 hrun => ?_⟩
    cases hrun
    rw [if_neg hword]
    refine Prog.covered_bind.mpr ⟨Prog.covered_cmd.mpr (only_disk hslot _), fun w v1 hrun => ?_⟩
    exact Prog.covered_bind.mpr ⟨covered_diskaddr h1, fun _ _ _ => Prog.covered_pure _⟩

end

end SisOp.Fs
