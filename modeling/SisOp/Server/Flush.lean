/-
# `SisOp.Server.Flush` — what is written back

A page without `PTE_D` holds what the disk holds (`CleanPages`).  Commands other than
stores keep what is in memory and what has been written back (`Synced`), so a block that
`file_flush` flushes stays on the disk to the end of the call.
-/
import SisOp.Server.ReadWrite

namespace SisOp.Fs

open SisOp.Lib SisOp.Jos

/-- Every page that is not dirty holds what the disk holds. -/
def CleanPages (s : Machine) : Prop := ∀ b p, s.cache b = some p → p.dirty = false → p.data = s.disk b

/-- Memory is `mem`, and the blocks `P` are on the disk as they are in memory. -/
structure Synced (mem : Nat → Block) (P : Nat → Prop) (s : Machine) : Prop where
  clean : CleanPages s
  mem_eq : s.mem = mem
  onDisk : ∀ b, P b → s.disk b = mem b

/-- A store. -/
def Cmd.IsStore : Cmd → Prop
  | .store _ _ => True
  | _ => False

section

variable {s s' : Machine} {mem : Nat → Block} {P : Nat → Prop} {b off : Nat}

namespace CleanPages

theorem pageIn (h : CleanPages s) (b : Nat) : CleanPages (s.pageIn b) := by
  intro b' p hp hd
  rcases eq_or_ne b' b with rfl | hne
  · simp only [Machine.pageIn, Function.update_self, Option.some.injEq] at hp
    rw [← hp] at hd
    cases hd
  · simp only [Machine.pageIn, Function.update_of_ne hne] at hp
    exact h b' p hp hd

/-- `PTE_D` goes when the page holds what the disk holds. -/
theorem remap (h : CleanPages s) (hb : ∀ p, s.cache b = some p → p.data = s.disk b) : CleanPages (s.remap b) := by
  intro b' p hp hd
  rcases eq_or_ne b' b with rfl | hne
  · simp only [Machine.remap, Function.update_self, Option.map_eq_some_iff] at hp
    obtain ⟨q, hq, rfl⟩ := hp
    exact hb q hq
  · simp only [Machine.remap, Function.update_of_ne hne] at hp
    exact h b' p hp hd

theorem load (h : CleanPages s) (b : Nat) : CleanPages ((s.pageIn b).remap b) :=
  (h.pageIn b).remap fun p hp => by
    simp only [Machine.pageIn, Function.update_self, Option.some.injEq] at hp
    rw [← hp]
    rfl

/-- Flushing writes a dirty page before `PTE_D` goes. -/
theorem flushBlock (h : CleanPages s) (b : Nat) : CleanPages (s.flushBlock b) := by
  unfold Machine.flushBlock
  split
  · exact h
  · split
    · intro b' p hp hd
      rcases eq_or_ne b' b with rfl | hne
      · simp only [Function.update_self, Option.some.injEq] at hp ⊢
        rw [← hp]
      · simp only [Function.update_of_ne hne] at hp ⊢
        exact h b' p hp hd
    · exact h

end CleanPages

/-- What a flush leaves on the disk. -/
theorem CleanPages.disk_flushBlock (h : CleanPages s) (b : Nat) : (s.flushBlock b).disk b = s.mem b := by
  unfold Machine.flushBlock Machine.mem
  cases hc : s.cache b with
  | none => rfl
  | some p =>
      simp only
      split
      · exact Function.update_self b p.data s.disk
      · rename_i hd
        exact (h b p hc (Bool.not_eq_true _ ▸ hd)).symm

theorem Machine.disk_flushBlock_of_ne {x : Nat} (hne : x ≠ b) : (s.flushBlock b).disk x = s.disk x := by
  unfold Machine.flushBlock
  split
  · rfl
  · split
    · exact Function.update_of_ne hne ..
    · rfl

/-- A page fault writes nothing. -/
theorem Machine.bcPgfault_clean (n : Nat) (h : CleanPages s) :
    CleanPages (Machine.bcPgfault n s b off).2 ∧ (Machine.bcPgfault n s b off).2.disk = s.disk := by
  induction n generalizing s b off with
  | zero => exact ⟨h, rfl⟩
  | succ n ih =>
      rcases h1 : s.cache 1 with _ | p
      · rw [Machine.bcPgfault_super_missing _ h1]
        exact ⟨h, rfl⟩
      · rw [Machine.bcPgfault_super n (by simp [h1])]
        split
        · exact ⟨h, rfl⟩
        · split
          · exact ⟨h.pageIn b, rfl⟩
          · have hin : CleanPages ((s.pageIn b).remap b) ∧ ((s.pageIn b).remap b).disk = s.disk := ⟨h.load b, rfl⟩
            have hrec : CleanPages (Machine.access (Machine.bcPgfault n) ((s.pageIn b).remap b) (bitmapBlock b)
                (4 * (b / 32 % 1024))).2 ∧ (Machine.access (Machine.bcPgfault n) ((s.pageIn b).remap b)
                (bitmapBlock b) (4 * (b / 32 % 1024))).2.disk = s.disk :=
              Machine.access_keeps (P := fun t => CleanPages t ∧ t.disk = s.disk) (fun _ => ih hin.1) hin
            split
            · rename_i hacc
              rwa [hacc] at hrec
            · rename_i hacc
              rw [hacc] at hrec
              split <;> exact hrec

namespace Synced

theorem touch (h : Synced mem P s) (b off : Nat) : Synced mem P (s.touch b off).2 := by
  have hclean : CleanPages (s.touch b off).2 ∧ (s.touch b off).2.disk = s.disk :=
    Machine.access_keeps (P := fun t => CleanPages t ∧ t.disk = s.disk)
      (fun _ => Machine.bcPgfault_clean 3 h.clean) ⟨h.clean, rfl⟩
  exact ⟨hclean.1, (congrArg View.mem (s.touch_view b off)).trans h.mem_eq, fun x hx => hclean.2 ▸ h.onDisk x hx⟩

/-- A flushed block is on the disk. -/
theorem flushBlock (h : Synced mem P s) (b : Nat) : Synced mem (fun x => P x ∨ x = b) (s.flushBlock b) where
  clean := h.clean.flushBlock b
  mem_eq := (congrArg View.mem (s.flushBlock_view b)).trans h.mem_eq
  onDisk := fun x hx => by
    rcases eq_or_ne x b with rfl | hne
    · rw [h.clean.disk_flushBlock, h.mem_eq]
    · rw [Machine.disk_flushBlock_of_ne hne]
      exact h.onDisk x (hx.resolve_right hne)

theorem mono {Q : Nat → Prop} (h : Synced mem P s) (hQ : ∀ b, Q b → P b) : Synced mem Q s :=
  ⟨h.clean, h.mem_eq, fun b hb => h.onDisk b (hQ b hb)⟩

/-- A command other than a store. -/
theorem command (h : Synced mem P s) (c : Cmd) (hc : ¬ c.IsStore) : Synced mem P (onMachine c s).2 := by
  cases c with
  | store c w => exact absurd trivial hc
  | access va =>
      change Synced mem P (s.accessAt va).2
      unfold Machine.accessAt
      split
      · exact h.touch _ _
      · exact h
  | load c =>
      cases c with
      | req i | own i => exact h
      | disk b i =>
          have htouch := h.touch b (4 * i)
          simp only [onMachine]
          rcases ht : s.touch b (4 * i) with ⟨e | u, s1⟩ <;> rw [ht] at htouch <;> exact htouch
  | flush b => exact (h.flushBlock b).mono fun _ => .inl
  | note m => exact ⟨h.clean, h.mem_eq, h.onDisk⟩
  | panic msg => exact h

theorem run {α : Type} {p : FsM α} (h : Synced mem P s) (hp : p.Avoids Cmd.IsStore) :
    Synced mem P (p.run onMachine s).2 :=
  hp.run_preserves (fun c _ hc hs => hs.command c hc) h

theorem run_ok {α : Type} {p : FsM α} {a : α} (h : Synced mem P s) (hp : p.Avoids Cmd.IsStore)
    (hrun : p.run onMachine s = (.ok a, s')) : Synced mem P s' := by
  have hs := h.run hp
  rwa [hrun] at hs

end Synced

/-! ## Programs that store nothing -/

theorem avoids_load (c : Cell) : (load c).Avoids Cmd.IsStore := .cmd id

theorem avoids_diskaddr (w : Word) : (diskaddr w).Avoids Cmd.IsStore := by
  unfold diskaddr
  split
  · exact .call id fun r => nomatch r
  · refine .bind (avoids_load _) fun n => ?_
    split
    · exact .call id fun r => nomatch r
    · exact .pure _

theorem avoids_fileBlockWalk (f : FilePtr) (filebno : Word) : (fileBlockWalk f filebno false).Avoids Cmd.IsStore := by
  unfold fileBlockWalk
  split
  · exact .pure _
  · split
    · exact .pure _
    · refine .bind (avoids_load _) fun w => ?_
      split
      · exact .pure _
      · exact .bind (avoids_load _) fun _ => .bind (avoids_diskaddr _) fun _ => .pure _

end

/-! ## `file_flush` -/

section

variable {s s' : Machine} {mem : Nat → Block} {P : Nat → Prop} {f : FilePtr} {k n i : Nat}

theorem Synced.load_ok (h : Synced mem P s) {c : Cell} {w : Word} (hrun : (load c).run onMachine s = (.ok w, s')) :
    w = s.view.get c ∧ Synced mem P s' := by
  have hview := (abstracts.run_ok hrun).symm.trans (run_load c s.view)
  exact ⟨Except.ok.inj (Prod.mk.inj hview).1, h.run_ok (avoids_load c) hrun⟩

/-- `flush_block(diskaddr(w))`. -/
theorem flush_diskaddr_synced (h : Synced mem P s) {w : Word} {u : Unit}
    (hrun : (do flushBlock (← diskaddr w) : FsM Unit).run onMachine s = (.ok u, s')) :
    Synced mem (fun x => P x ∨ x = w.toNat) s' := by
  obtain ⟨a, s1, haddr, hflush⟩ := Prog.bind_ok hrun
  have h1 := h.run_ok (avoids_diskaddr w) haddr
  obtain ⟨rfl, -⟩ := run_diskaddr_ok (abstracts.run_ok haddr)
  cases hflush
  exact h1.flushBlock _

/-- A block that the file has. -/
def AllocatedBlock (mem : Nat → Block) (f : FilePtr) (k x : Nat) : Prop := fileBlock mem f k = x ∧ x ≠ 0

/-- What `file_block_walk` says about block `k`. -/
theorem slot_of_walk {v v' : View} {r : Except Int Cell} (h : SlotOf v f k false r v') :
    v' = v ∧ (∀ e, r = .error e → fileBlock v.mem f k = 0) ∧
      ∀ c, r = .ok c → (v.get c).toNat = fileBlock v.mem f k := by
  cases h with
  | direct hk =>
      refine ⟨rfl, fun e he => (by cases he), fun c hc => ?_⟩
      cases hc
      rw [fileBlock_of_slot (.inl hk), slotBlk, slotIdx, if_pos hk, if_pos hk]
      rfl
  | indirect hk hk' h0 hlt =>
      refine ⟨rfl, fun e he => (by cases he), fun c hc => ?_⟩
      cases hc
      rw [fileBlock_of_slot (.inr ⟨hk', toNat_ne_zero h0⟩), slotBlk, slotIdx, if_neg hk.not_gt, if_neg hk.not_gt]
      rfl
  | newIndirect b hk hk' h0 hb hb0 halloc => cases halloc
  | full hk hk' h0 hb halloc => cases halloc
  | absent hk hk' h0 halloc =>
      refine ⟨rfl, fun _ _ => fileBlock_of_no_slot ?_, fun c hc => (by cases hc)⟩
      exact fun hs => (hs.resolve_left hk.not_gt).2 (congrArg BitVec.toNat h0)
  | range hk =>
      refine ⟨rfl, fun _ _ => fileBlock_of_no_slot ?_, fun c hc => (by cases hc)⟩
      rintro (hs | ⟨hs, -⟩)
      · exact absurd (hk.trans_lt hs) (by decide)
      · exact hk.not_gt hs

theorem flushLoop_synced (h : Synced mem P s) {u : Unit} (hrange : i + n ≤ 2 ^ 32)
    (hrun : (flushLoop f n i).run onMachine s = (.ok u, s')) :
    Synced mem (fun x => P x ∨ ∃ k, i ≤ k ∧ k < i + n ∧ AllocatedBlock mem f k x) s' := by
  induction n generalizing i s P with
  | zero =>
      cases hrun
      refine h.mono fun x hx => hx.resolve_right ?_
      rintro ⟨k, hlo, hhi, -⟩
      omega
  | succ n ih =>
      have hi : (BitVec.ofNat 32 i).toNat = i := by
        rw [BitVec.toNat_ofNat]
        omega
      rw [flushLoop] at hrun
      obtain ⟨r, s1, hwalk, hrest⟩ := Prog.bind_ok hrun
      have h1 := h.run_ok (avoids_fileBlockWalk f _) hwalk
      have hslot := slotOf_of_run (abstracts.run_ok hwalk)
      have hmem : s.view.mem = mem := h.mem_eq
      rw [hi] at hslot
      obtain ⟨hview, herr, hok⟩ := slot_of_walk hslot
      rw [hmem] at herr hok
      -- the blocks of the rest, with what is known of block `i`
      have hsplit : ∀ {Q : Nat → Prop} {t : Machine}, Synced mem (fun x => Q x ∨
          ∃ k, i + 1 ≤ k ∧ k < i + 1 + n ∧ AllocatedBlock mem f k x) t → (∀ x, P x ∨ AllocatedBlock mem f i x → Q x) →
          Synced mem (fun x => P x ∨ ∃ k, i ≤ k ∧ k < i + (n + 1) ∧ AllocatedBlock mem f k x) t := by
        intro Q t ht hQ
        refine ht.mono fun x hx => ?_
        rcases hx with hx | ⟨k, hlo, hhi, hall⟩
        · exact .inl (hQ x (.inl hx))
        · rcases Nat.eq_or_lt_of_le hlo with rfl | hlt
          · exact .inl (hQ x (.inr hall))
          · exact .inr ⟨k, hlt, by omega, hall⟩
      cases r with
      | error e =>
          refine hsplit (ih h1 (by omega) hrest) fun x hx => hx.resolve_right fun hall => ?_
          exact hall.2 (hall.1.symm.trans (herr e rfl))
      | ok c =>
          simp only at hrest
          obtain ⟨w, s2, hload, hlast⟩ := Prog.bind_ok hrest
          obtain ⟨rfl, h2⟩ := h1.load_ok hload
          have hw : (s1.view.get c).toNat = fileBlock mem f i := hview ▸ hok c rfl
          split at hlast
          · rename_i h0
            rw [h0] at hw
            exact hsplit (ih h2 (by omega) hlast) fun x hx => hx.resolve_right fun hall =>
              hall.2 (hall.1.symm.trans hw.symm)
          · have hassoc : (do flushBlock (← diskaddr (s1.view.get c)) : FsM Unit) >>= (fun _ => flushLoop f n (i + 1)) =
                (do
                  flushBlock (← diskaddr (s1.view.get c))
                  flushLoop f n (i + 1)) := Prog.bind_assoc _ _ _
            rw [← hassoc] at hlast
            obtain ⟨u, s3, hflush, hloop⟩ := Prog.bind_ok hlast
            have h3 := flush_diskaddr_synced h2 hflush
            rw [hw] at h3
            exact hsplit (ih h3 (by omega) hloop) fun x hx => hx.imp id fun hall => hall.1.symm

/-- A file on the disk: its `File`, its indirect block and its data. -/
structure Durable (s : Machine) (f : FilePtr) : Prop where
  head : s.disk f.blk = s.mem f.blk
  indirect : indirectBlock s.mem f ≠ 0 → s.disk (indirectBlock s.mem f) = s.mem (indirectBlock s.mem f)
  data : ∀ k, k * BLKSIZE < (fileSize s.mem f).toNat → fileBlock s.mem f k ≠ 0 →
    s.disk (fileBlock s.mem f k) = s.mem (fileBlock s.mem f k)

theorem sizeBlocks_toNat {size : Word} (h : size.toNat ≤ MAXFILESIZE) :
    (sizeBlocks size).toInt.toNat = (size.toNat + 4095) / BLKSIZE := by
  have hmax : MAXFILESIZE = 4235264 := rfl
  have hnat := toNat_sizeBlocks_small (w := size) (by omega)
  rw [toInt_of_lt (by omega), Int.toNat_natCast, hnat]
  rfl

/-- After `file_flush` the file is on the disk, and nothing in memory has changed. -/
theorem flushed_is_durable (h : CleanPages s) (hsize : 0 ≤ (fileSize s.mem f).toInt ∧
      (fileSize s.mem f).toInt ≤ MAXFILESIZE) (hrun : (fileFlush f).run onMachine s = (.ok (), s')) :
    Durable s' f ∧ s'.mem = s.mem ∧ CleanPages s' := by
  have hmax : MAXFILESIZE = 4235264 := rfl
  have hnat : (fileSize s.mem f).toNat ≤ MAXFILESIZE := by
    have hint := BitVec.toInt_eq_toNat_cond (fileSize s.mem f)
    omega
  have h0 : Synced s.mem (fun _ => False) s := ⟨h, rfl, fun _ hf => hf.elim⟩
  unfold fileFlush at hrun
  obtain ⟨size, s1, hload, hrest⟩ := Prog.bind_ok hrun
  obtain ⟨rfl, h1⟩ := h0.load_ok hload
  obtain ⟨_, s2, hloop, hrest⟩ := Prog.bind_ok hrest
  have hturns : (sizeBlocks (s.view.get f.fSize)).toInt.toNat = ((fileSize s.mem f).toNat + 4095) / BLKSIZE :=
    sizeBlocks_toNat hnat
  have hrange : 0 + ((fileSize s.mem f).toNat + 4095) / BLKSIZE ≤ 2 ^ 32 := by
    unfold BLKSIZE
    omega
  rw [hturns] at hloop
  have h2 := flushLoop_synced h1 hrange hloop
  obtain ⟨_, s3, hhead, hrest⟩ := Prog.bind_ok hrest
  cases hhead
  have h3 := h2.flushBlock f.blk
  obtain ⟨w, s4, hload', hrest⟩ := Prog.bind_ok hrest
  obtain ⟨rfl, h4⟩ := h3.load_ok hload'
  have hw : ((s2.flushBlock f.blk).view.get f.fIndirect).toNat = indirectBlock s.mem f := by
    rw [← h3.mem_eq]
    rfl
  have hend : Synced s.mem (fun x => ((False ∨ ∃ k, 0 ≤ k ∧ k < 0 + ((fileSize s.mem f).toNat + 4095) / BLKSIZE ∧
      AllocatedBlock s.mem f k x) ∨ x = f.blk) ∨ indirectBlock s.mem f ≠ 0 ∧ x = indirectBlock s.mem f) s' := by
    split at hrest
    · rename_i hzero
      rw [hzero] at hw
      cases hrest
      exact h4.mono fun x hx => hx.resolve_right fun hi => hi.1 hw.symm
    · have hflush := flush_diskaddr_synced h4 hrest
      rw [hw] at hflush
      exact hflush.mono fun x hx => hx.imp id And.right
  refine ⟨⟨?_, fun hi => ?_, fun k hk hb => ?_⟩, hend.mem_eq, hend.clean⟩
  · rw [hend.onDisk _ (.inl (.inr rfl)), hend.mem_eq]
  · rw [hend.mem_eq] at hi ⊢
    exact hend.onDisk _ (.inr ⟨hi, rfl⟩)
  · rw [hend.mem_eq] at hk hb ⊢
    refine hend.onDisk _ (.inl (.inl (.inr ⟨k, Nat.zero_le k, ?_, rfl, hb⟩)))
    unfold BLKSIZE at *
    omega

end

theorem sample_clean : CleanPages (sampleMachine fun _ => 0) := by
  intro b p hp _
  unfold sampleMachine at hp
  simp only at hp
  split at hp
  · cases hp
    rfl
  · cases hp

/-- The file `a`. -/
theorem flushed_is_durable_sample : ∃ s', (fileFlush sampleFile).run onMachine (sampleMachine fun _ => 0) = (.ok (), s') ∧
    Durable s' sampleFile := by
  have hrun : (fileFlush sampleFile).run onMachine (sampleMachine fun _ => 0) =
      (.ok (), ((fileFlush sampleFile).run onMachine (sampleMachine fun _ => 0)).2) := Prod.ext rfl rfl
  refine ⟨_, hrun, (flushed_is_durable sample_clean ?_ hrun).1⟩
  rw [sample_mem, sample_fileSize]
  decide

end SisOp.Fs
