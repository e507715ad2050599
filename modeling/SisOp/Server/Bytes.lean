/-
# `SisOp.Server.Bytes` — `memmove` byte by byte

On a view the memory of the server is a function from addresses to bytes
(`View.byteAt`): the program's own memory, the request page and the disk map, from
`UTEXT` to the end of the disk map without a gap.  `setBytes` is a copy that has been
made, `run_memmove` what a call of `memmove` does.
-/
import SisOp.Server.Blocks

namespace SisOp.Fs

open SisOp.Lib SisOp.Jos

/-! ## Addresses -/

/-- An address the server may access. -/
def Mapped (va : Nat) : Prop := UTEXT ≤ va ∧ va < DISKMAP + DISKSIZE

/-- An address outside the disk map. -/
def Private (va : Nat) : Prop := UTEXT ≤ va ∧ va < DISKMAP

section

variable {va va' n : Nat} {c : Cell} {b : Byte} {bs : List Byte} {v : View}

theorem Private.mapped (h : Private va) : Mapped va := by
  unfold Private Mapped at *
  omega

theorem cellOf_isSome : (cellOf va).isSome ↔ Mapped va := by
  unfold cellOf Mapped UTEXT FSREQ DISKMAP DISKSIZE
  split
  · simp
    omega
  · split
    · simp
      omega
    · split
      · simp
        omega
      · simp
        omega

/-- Where a word starts. -/
def Cell.addr : Cell → Nat
  | .own i => UTEXT + 4 * i
  | .req i => FSREQ + 4 * i
  | .disk b i => DISKMAP + b * BLKSIZE + 4 * i

theorem addr_of_cellOf (h : cellOf va = some c) : va = c.addr + va % 4 := by
  unfold cellOf at h
  split at h
  · cases h
    unfold Cell.addr UTEXT FSREQ at *
    dsimp only
    omega
  · split at h
    · cases h
      unfold Cell.addr FSREQ at *
      dsimp only
      omega
    · split at h
      · cases h
        unfold Cell.addr DISKMAP BLKSIZE at *
        dsimp only
        omega
      · cases h

/-- A word and the place in it determine the address. -/
theorem cellOf_inj (h : cellOf va = some c) (h' : cellOf va' = some c) (hmod : va % 4 = va' % 4) :
    va = va' := by
  rw [addr_of_cellOf h, addr_of_cellOf h', hmod]

/-- The address of byte `o` of block `b`. -/
def diskVa (b o : Nat) : Nat := DISKMAP + b * BLKSIZE + o

theorem cellOf_diskVa {b o : Nat} (hb : b < DISKSIZE / BLKSIZE) (ho : o < BLKSIZE) :
    cellOf (diskVa b o) = some (.disk b (o / 4)) := by
  have hb' : b < 786432 := hb
  have ho' : o < 4096 := ho
  have hmul : b * BLKSIZE = b * 4096 := rfl
  have hdisk : DISKSIZE = 786432 * 4096 := rfl
  have hoff : diskVa b o - DISKMAP = b * BLKSIZE + o := by
    unfold diskVa
    omega
  have hlo : DISKMAP ≤ diskVa b o := by
    unfold diskVa
    omega
  have hhi : diskVa b o < DISKMAP + DISKSIZE := by
    unfold diskVa
    omega
  have hreq : FSREQ ≤ diskVa b o := le_trans (by decide) hlo
  have hblk : (b * 4096 + o) / 4096 = b := by omega
  have hmod : (b * 4096 + o) % 4096 = o := by omega
  unfold cellOf
  rw [if_neg fun h => h.2.not_ge hreq, if_neg fun h => h.2.not_ge hlo, if_pos ⟨hlo, hhi⟩, hoff]
  exact congrArg some (congrArg₂ Cell.disk hblk (congrArg (· / 4) hmod))

theorem Private.ne_diskVa {blk o : Nat} (h : Private va) : va ≠ diskVa blk o := by
  unfold Private diskVa at *
  omega

theorem Private.cell (h : Private va) (hc : cellOf va = some c) : ∀ blk i, c ≠ .disk blk i := by
  rintro blk i rfl
  unfold cellOf Private at *
  split at hc
  · cases hc
  · split at hc
    · cases hc
    · split at hc
      · omega
      · cases hc

end

/-! ## Bytes of a view -/

namespace View

def byteAt (v : View) (va : Nat) : Byte :=
  match cellOf va with
  | none => 0
  | some c => byteOf (v.get c) (va % 4)

def setByte (v : View) (va : Nat) (b : Byte) : View :=
  match cellOf va with
  | none => v
  | some c => v.set c (withByte (v.get c) (va % 4) b)

def setBytes (v : View) (va : Nat) : List Byte → View
  | [] => v
  | b :: bs => (v.setByte va b).setBytes (va + 1) bs

/-- The `n` bytes from `va` on. -/
def bytes (v : View) (va n : Nat) : List Byte := (List.range n).map fun i => v.byteAt (va + i)

/-- The call of `memmove` is recorded. -/
def noted (v : View) (m : Move) : View := { v with moves := ⟨m, v.mem⟩ :: v.moves }

end View

section

variable {va va' n : Nat} {c : Cell} {b : Byte} {bs : List Byte} {v : View} {m : Move}

@[simp] theorem View.noted_get (v : View) (m : Move) (c : Cell) : (v.noted m).get c = v.get c := by
  cases c <;> rfl

@[simp] theorem View.noted_mem (v : View) (m : Move) : (v.noted m).mem = v.mem := rfl

@[simp] theorem View.noted_byteAt (v : View) (m : Move) : (v.noted m).byteAt = v.byteAt := by
  funext va
  unfold View.byteAt
  split
  · rfl
  · rw [View.noted_get]

@[simp] theorem View.noted_bytes (v : View) (m : Move) (va n : Nat) :
    (v.noted m).bytes va n = v.bytes va n := by
  simp [View.bytes]

@[simp] theorem View.length_bytes (v : View) (va n : Nat) : (v.bytes va n).length = n := by
  simp [View.bytes]

theorem View.byteAt_of_cell (h : cellOf va = some c) : v.byteAt va = byteOf (v.get c) (va % 4) := by
  rw [View.byteAt, h]

theorem View.byteAt_setByte (h : Mapped va) :
    (v.setByte va b).byteAt va' = if va' = va then b else v.byteAt va' := by
  obtain ⟨c, hc⟩ := Option.isSome_iff_exists.mp (cellOf_isSome.mpr h)
  have hset : v.setByte va b = v.set c (withByte (v.get c) (va % 4) b) := by
    rw [View.setByte, hc]
  rcases hc' : cellOf va' with _ | c'
  · have hne : va' ≠ va := fun heq => by
      rw [heq, hc] at hc'
      cases hc'
    rw [if_neg hne, View.byteAt, View.byteAt, hc']
  · rw [View.byteAt_of_cell hc', View.byteAt_of_cell hc', hset, View.get_set]
    by_cases hcell : c' = c
    · subst hcell
      rw [if_pos rfl, byteOf_withByte (Nat.mod_lt _ (by decide)) (Nat.mod_lt _ (by decide))]
      by_cases hmod : va' % 4 = va % 4
      · rw [if_pos hmod, if_pos (cellOf_inj hc' hc hmod)]
      · rw [if_neg hmod, if_neg fun heq => hmod (by rw [heq])]
    · have hne : va' ≠ va := fun heq => by
        rw [heq, hc] at hc'
        exact hcell (Option.some.inj hc').symm
      rw [if_neg hcell, if_neg hne]

theorem View.get_setByte (h : cellOf va ≠ some c) : (v.setByte va b).get c = v.get c := by
  unfold View.setByte
  split
  · rfl
  · rename_i c' hc'
    exact View.get_set_of_ne v _ fun heq => h (heq ▸ hc')

/-- A copy that stays in mapped memory. -/
theorem View.byteAt_setBytes (h : ∀ i, i < bs.length → Mapped (va + i)) (va' : Nat) :
    (v.setBytes va bs).byteAt va' =
      if va ≤ va' ∧ va' < va + bs.length then bs.getD (va' - va) 0 else v.byteAt va' := by
  induction bs generalizing v va with
  | nil =>
      rw [if_neg (by simp)]
      rfl
  | cons b bs ih =>
      have hrest : ∀ i, i < bs.length → Mapped (va + 1 + i) := fun i hi => by
        rw [Nat.add_assoc, Nat.add_comm 1]
        exact h (i + 1) (by rw [List.length_cons]; omega)
      have h0 : Mapped va := h 0 (by simp)
      rw [View.setBytes, ih hrest, View.byteAt_setByte h0, List.length_cons]
      rcases lt_trichotomy va' va with hlt | rfl | hgt
      · rw [if_neg (by omega), if_neg (by omega), if_neg (by omega)]
      · rw [if_neg (by omega), if_pos rfl, if_pos (by omega), Nat.sub_self]
        rfl
      · by_cases hin : va' < va + 1 + bs.length
        · rw [if_pos (by omega), if_pos (by omega), show va' - va = va' - (va + 1) + 1 by omega]
          rfl
        · rw [if_neg (by omega), if_neg (by omega), if_neg (by omega)]

theorem View.get_setBytes (h : ∀ i, i < bs.length → cellOf (va + i) ≠ some c) :
    (v.setBytes va bs).get c = v.get c := by
  induction bs generalizing v va with
  | nil => rfl
  | cons b bs ih =>
      have hrest : ∀ i, i < bs.length → cellOf (va + 1 + i) ≠ some c := fun i hi => by
        rw [Nat.add_assoc, Nat.add_comm 1]
        exact h (i + 1) (by rw [List.length_cons]; omega)
      rw [View.setBytes, ih hrest, View.get_setByte (by simpa using h 0 (by simp))]

/-! ## Running -/

theorem run_loadByte (h : Mapped va) : (loadByte va).run onView v = (.ok (v.byteAt va), v) := by
  obtain ⟨c, hc⟩ := Option.isSome_iff_exists.mp (cellOf_isSome.mpr h)
  unfold loadByte View.byteAt
  rw [hc]
  rfl

theorem run_storeByte (h : Mapped va) :
    (storeByte va b).run onView v = (.ok (), v.setByte va b) := by
  obtain ⟨c, hc⟩ := Option.isSome_iff_exists.mp (cellOf_isSome.mpr h)
  unfold storeByte View.setByte
  rw [hc]
  rfl

theorem run_loadBytes (h : ∀ i, i < n → Mapped (va + i)) :
    (loadBytes va n).run onView v = (.ok (v.bytes va n), v) := by
  induction n generalizing va with
  | zero => rfl
  | succ n ih =>
      have hrest : ∀ i, i < n → Mapped (va + 1 + i) := fun i hi => by
        rw [Nat.add_assoc, Nat.add_comm 1]
        exact h (i + 1) (by omega)
      have hbytes : v.bytes va (n + 1) = v.byteAt va :: v.bytes (va + 1) n := by
        simp only [View.bytes, List.range_succ_eq_map, List.map_cons, List.map_map, Nat.add_zero]
        refine congrArg (v.byteAt va :: ·) (List.map_congr_left fun i _ => ?_)
        rw [Function.comp, Nat.add_assoc, Nat.add_comm 1]
      rw [loadBytes, Prog.run_bind_ok (run_loadByte (by simpa using h 0 (by omega))),
        Prog.run_bind_ok (ih hrest), hbytes]
      rfl

theorem run_storeBytes (h : ∀ i, i < bs.length → Mapped (va + i)) :
    (storeBytes va bs).run onView v = (.ok (), v.setBytes va bs) := by
  induction bs generalizing v va with
  | nil => rfl
  | cons b bs ih =>
      have hrest : ∀ i, i < bs.length → Mapped (va + 1 + i) := fun i hi => by
        rw [Nat.add_assoc, Nat.add_comm 1]
        exact h (i + 1) (by rw [List.length_cons]; omega)
      rw [storeBytes, Prog.run_bind_ok (run_storeByte (by simpa using h 0 (by simp))), ih hrest]
      rfl

/-- `memmove` copies the bytes that were there before it started. -/
theorem run_memmove {dst src : Nat} (hsrc : ∀ i, i < n → Mapped (src + i))
    (hdst : ∀ i, i < n → Mapped (dst + i)) : (memmove dst src n).run onView v =
      (.ok (), (v.noted ⟨dst, src, n⟩).setBytes dst (v.bytes src n)) := by
  have hstore : (storeBytes dst (v.bytes src n)).run onView (v.noted ⟨dst, src, n⟩) = _ :=
    run_storeBytes (by simpa using hdst)
  unfold memmove
  rw [Prog.run_bind_ok (run_note _ v)]
  have hload := run_loadBytes (v := v.noted ⟨dst, src, n⟩) hsrc
  rw [View.noted_bytes] at hload
  exact (Prog.run_bind_ok hload).trans hstore

end

end SisOp.Fs
