/-
# `SisOp.Server.Moves` — which functions call `memmove`

A `Quiet` program makes no call of `memmove` (only the two loops of `file_read` and
`file_write` do), so it leaves the list of calls as it is.  `Within P` is what is
proved of a program whose calls all have `P`; a run of any program only adds calls
(`Machine.Grown`).
-/
import SisOp.Server.Serve

namespace SisOp.Fs

open SisOp.Lib SisOp.Jos

/-! ## Calls of a program -/

/-- A call of `memmove` without `P`. -/
def Cmd.Breaks (P : Move → Prop) : Cmd → Prop
  | .note m => ¬ P m
  | _ => False

/-- Every call of `memmove` has `P`. -/
def Within {α : Type} (P : Move → Prop) (p : FsM α) : Prop := p.Avoids (Cmd.Breaks P)

/-- There is no call of `memmove`. -/
def Quiet {α : Type} (p : FsM α) : Prop := ∀ P, Within P p

/-- What `s'` has over `s` are calls with `P`. -/
def Machine.Grown (P : Move → Prop) (s s' : Machine) : Prop :=
  ∃ ms, s'.moves = ms ++ s.moves ∧ ∀ m ∈ ms, P m.toMove

section

variable {α β : Type} {P : Move → Prop} {s s' s'' : Machine}

namespace Machine.Grown

theorem refl (s : Machine) : Grown P s s := ⟨[], rfl, by simp⟩

theorem of_eq (h : s'.moves = s.moves) : Grown P s s' := ⟨[], h, by simp⟩

theorem mono {P' : Move → Prop} (h : Grown P s s') (hP : ∀ m, P m → P' m) : Grown P' s s' := by
  obtain ⟨ms, heq, hms⟩ := h
  exact ⟨ms, heq, fun m hm => hP _ (hms m hm)⟩

theorem trans (h : Grown P s s') (h' : Grown P s' s'') : Grown P s s'' := by
  obtain ⟨ms, heq, hP⟩ := h
  obtain ⟨ms', heq', hP'⟩ := h'
  refine ⟨ms' ++ ms, by rw [heq', heq, List.append_assoc], fun m hm => ?_⟩
  rcases List.mem_append.mp hm with hm | hm
  · exact hP' m hm
  · exact hP m hm

/-- The calls of both halves of a run have `P` if those of the whole have. -/
theorem split (h : Grown (fun _ => True) s s') (h' : Grown (fun _ => True) s' s'')
    (hP : Grown P s s'') : Grown P s s' ∧ Grown P s' s'' := by
  obtain ⟨ms, heq, -⟩ := h
  obtain ⟨ms', heq', -⟩ := h'
  obtain ⟨all, hall, hP⟩ := hP
  have happ : all = ms' ++ ms := by
    rw [heq', heq, ← List.append_assoc] at hall
    exact (List.append_cancel_right hall).symm
  subst happ
  exact ⟨⟨ms, heq, fun m hm => hP m (List.mem_append_right ms' hm)⟩,
    ⟨ms', heq', fun m hm => hP m (List.mem_append_left ms hm)⟩⟩

theorem congr_left (h : s.moves = s'.moves) : Grown P s s'' ↔ Grown P s' s'' := by
  unfold Grown
  rw [h]

theorem congr_right (h : s'.moves = s''.moves) : Grown P s s' ↔ Grown P s s'' := by
  unfold Grown
  rw [h]

end Machine.Grown

theorem Machine.touch_moves (s : Machine) (b off : Nat) : (s.touch b off).2.moves = s.moves :=
  congrArg View.moves (s.touch_view b off)

theorem Machine.flushBlock_moves (s : Machine) (b : Nat) : (s.flushBlock b).moves = s.moves :=
  congrArg View.moves (s.flushBlock_view b)

theorem onMachine_grown (c : Cmd) (hc : ¬ c.Breaks P) (s : Machine) :
    Machine.Grown P s (onMachine c s).2 := by
  cases c with
  | access va => exact .of_eq (congrArg View.moves (s.accessAt_view va))
  | load c =>
      cases c with
      | req i | own i => exact .refl s
      | disk b i =>
          have htouch := s.touch_moves b (4 * i)
          simp only [onMachine]
          rcases ht : s.touch b (4 * i) with ⟨e | u, s1⟩ <;> rw [ht] at htouch <;>
            exact .of_eq htouch
  | store c w =>
      cases c with
      | req i | own i => exact .of_eq rfl
      | disk b i =>
          have htouch := s.touch_moves b (4 * i)
          simp only [onMachine]
          rcases ht : s.touch b (4 * i) with ⟨e | u, s1⟩ <;> rw [ht] at htouch <;>
            exact .of_eq htouch
  | flush b => exact .of_eq (s.flushBlock_moves b)
  | note m => exact ⟨[⟨m, s.mem⟩], rfl, by simpa [Cmd.Breaks] using hc⟩
  | panic msg => exact .refl s

theorem Within.grown {p : FsM α} (hp : Within P p) (s : Machine) :
    Machine.Grown P s (p.run onMachine s).2 :=
  hp.run_preserves (I := Machine.Grown P s)
    (fun c _ hc hs => hs.trans (onMachine_grown c hc _)) (.refl s)

theorem within_true (p : FsM α) : Within (fun _ => True) p := by
  induction p with
  | ret a => exact .ret a
  | call c k ih => exact .call (by cases c <;> simp [Cmd.Breaks]) ih

/-- Whatever a program does, the calls made before it stay. -/
theorem moves_grow (p : FsM α) (s : Machine) :
    Machine.Grown (fun _ => True) s (p.run onMachine s).2 :=
  (within_true p).grown s

theorem Quiet.moves {p : FsM α} (hp : Quiet p) (s : Machine) :
    (p.run onMachine s).2.moves = s.moves := by
  obtain ⟨ms, heq, hP⟩ := (hp fun _ => False).grown s
  rcases ms with _ | ⟨m, ms⟩
  · exact heq
  · exact (hP m List.mem_cons_self).elim

/-! ## The cache -/

theorem Machine.pageIn_cached {s : Machine} {b : Nat} (b' : Nat) (h : (s.cache b).isSome) :
    ((s.pageIn b').cache b).isSome := by
  unfold Machine.pageIn
  rcases eq_or_ne b b' with rfl | hne
  · simp
  · simpa [Function.update_of_ne hne] using h

theorem Machine.remap_cached {s : Machine} {b : Nat} (b' : Nat) (h : (s.cache b).isSome) :
    ((s.remap b').cache b).isSome := by
  unfold Machine.remap
  rcases eq_or_ne b b' with rfl | hne
  · simpa using h
  · simpa [Function.update_of_ne hne] using h

theorem Machine.bcPgfault_cached {n : Nat} {s : Machine} {b b' off : Nat} (h : (s.cache b).isSome) :
    ((Machine.bcPgfault n s b' off).2.cache b).isSome := by
  induction n generalizing s b' off with
  | zero => exact h
  | succ n ih =>
      rcases h1 : s.cache 1 with _ | p
      · rw [Machine.bcPgfault_super_missing _ h1]
        exact h
      · rw [Machine.bcPgfault_super n (by simp [h1])]
        have hin := s.pageIn_cached b' h
        split
        · exact h
        · split
          · exact hin
          · have hrec : ((Machine.access (Machine.bcPgfault n) ((s.pageIn b').remap b')
                (bitmapBlock b') (4 * (b' / 32 % 1024))).2.cache b).isSome :=
              Machine.access_keeps (P := fun t => (t.cache b).isSome)
                (fun _ => ih (Machine.remap_cached b' hin)) (Machine.remap_cached b' hin)
            split
            · rename_i hacc
              rwa [hacc] at hrec
            · rename_i hacc
              rw [hacc] at hrec
              split <;> exact hrec

theorem Machine.touch_cached {s : Machine} {b : Nat} (b' off : Nat) (h : (s.cache b).isSome) :
    ((s.touch b' off).2.cache b).isSome :=
  Machine.access_keeps (P := fun t => (t.cache b).isSome) (fun _ => Machine.bcPgfault_cached h) h

theorem onMachine_cached {b : Nat} (c : Cmd) (s : Machine) (h : (s.cache b).isSome) :
    ((onMachine c s).2.cache b).isSome := by
  cases c with
  | access va =>
      show ((s.accessAt va).2.cache b).isSome
      unfold Machine.accessAt
      split
      · exact s.touch_cached _ _ h
      · exact h
  | load c =>
      cases c with
      | req i | own i => exact h
      | disk b' i =>
          have htouch := s.touch_cached b' (4 * i) h
          simp only [onMachine]
          rcases ht : s.touch b' (4 * i) with ⟨e | u, s1⟩ <;> rw [ht] at htouch <;> exact htouch
  | store c w =>
      cases c with
      | req i | own i => exact h
      | disk b' i =>
          have htouch := s.touch_cached b' (4 * i) h
          simp only [onMachine]
          rcases ht : s.touch b' (4 * i) with ⟨e | u, s1⟩
          · rw [ht] at htouch
            exact htouch
          · rw [ht] at htouch
            show ((s1.store b' i w).cache b).isSome
            unfold Machine.store
            rcases eq_or_ne b b' with rfl | hne
            · simp
            · simpa [Function.update_of_ne hne] using htouch
  | flush b' =>
      show ((s.flushBlock b').cache b).isSome
      unfold Machine.flushBlock
      split
      · exact h
      · split
        · rcases eq_or_ne b b' with rfl | hne
          · simp
          · simpa [Function.update_of_ne hne] using h
        · exact h
  | note m => exact h
  | panic msg => exact h

/-- A page that is mapped stays mapped. -/
theorem run_cached {b : Nat} (p : FsM α) (s : Machine) (h : (s.cache b).isSome) :
    ((p.run onMachine s).2.cache b).isSome :=
  Prog.run_preserves (I := fun s => (s.cache b).isSome) (fun c s hs => onMachine_cached c s hs) p h

/-! ## Rules -/

namespace Quiet

theorem pure (a : α) : Quiet (Pure.pure a : FsM α) := fun _ => .ret a

theorem bind {p : FsM α} {f : α → FsM β} (hp : Quiet p) (hf : ∀ a, Quiet (f a)) :
    Quiet (p >>= f) := fun P => (hp P).bind fun a => hf a P

theorem access (va : Nat) : Quiet (access va) := fun _ => .cmd id

theorem load (c : Cell) : Quiet (load c) := fun _ => .cmd id

theorem store (c : Cell) (w : Word) : Quiet (store c w) := fun _ => .cmd id

theorem flushBlock (b : Nat) : Quiet (flushBlock b) := fun _ => .cmd id

theorem panic (msg : String) : Quiet (panic msg : FsM α) := fun _ => .call id fun r => nomatch r

theorem ite {c : Prop} [Decidable c] {p q : FsM α} (hp : Quiet p) (hq : Quiet q) :
    Quiet (if c then p else q) := by
  split
  · exact hp
  · exact hq

end Quiet

end

/-! ## Quiet functions -/

section

variable {α : Type} (f : FilePtr)

namespace Quiet

theorem diskaddr (w : Word) : Quiet (diskaddr w) :=
  .ite (.panic _) (.bind (.load _) fun _ => .ite (.panic _) (.pure _))

theorem loadByte (va : Nat) : Quiet (loadByte va) := by
  unfold Fs.loadByte
  split
  · exact .panic _
  · exact .bind (.access _) fun _ => .bind (.load _) fun _ => .pure _

theorem storeByte (va : Nat) (b : Byte) : Quiet (storeByte va b) := by
  unfold Fs.storeByte
  split
  · exact .panic _
  · exact .bind (.access _) fun _ => .bind (.load _) fun _ => .store _ _

theorem loadBytes (va n : Nat) : Quiet (loadBytes va n) := by
  induction n generalizing va with
  | zero => exact .pure _
  | succ n ih => exact .bind (.loadByte va) fun _ => .bind (ih _) fun _ => .pure _

theorem storeBytes (va : Nat) (bs : List Byte) : Quiet (storeBytes va bs) := by
  induction bs generalizing va with
  | nil => exact .pure _
  | cons b bs ih => exact .bind (.storeByte va b) fun _ => ih _

theorem blockIsFree (b : Nat) : Quiet (blockIsFree b) :=
  .bind (.load _) fun _ => .ite (.pure _) (.bind (.load _) fun _ => .pure _)

theorem freeBlock (b : Word) : Quiet (freeBlock b) :=
  .ite (.panic _) (.bind (.load _) fun _ => .store _ _)

theorem findFree (n i : Nat) : Quiet (findFree n i) := by
  induction n generalizing i with
  | zero => exact .pure _
  | succ n ih => exact .bind (.blockIsFree i) fun _ => .ite (.pure _) (ih _)

theorem allocBlock : Quiet allocBlock := by
  refine .bind (.load _) fun _ => .bind (.findFree _ _) fun b => ?_
  cases b with
  | none => exact .pure _
  | some i =>
      exact .bind (.load _) fun _ => .bind (.store _ _) fun _ =>
        .bind (.flushBlock _) fun _ => .pure _

theorem indirectSlot (n : Nat) : Quiet (indirectSlot f n) :=
  .bind (.load _) fun _ => .bind (.diskaddr _) fun _ => .pure _

theorem fileBlockWalk (bno : Word) (alloc : Bool) : Quiet (fileBlockWalk f bno alloc) := by
  refine .ite (.pure _) (.ite (.pure _) (.bind (.load _) fun _ => .ite ?_ (.indirectSlot f _)))
  refine .ite (.bind .allocBlock fun b => ?_) (.pure _)
  cases b with
  | error r => exact .pure _
  | ok b =>
      exact .bind (.store _ _) fun _ => .bind (.load _) fun _ => .bind (.diskaddr _) fun _ =>
        .bind (.flushBlock _) fun _ => .indirectSlot f _

theorem fileGetBlock (bno : Word) : Quiet (fileGetBlock f bno) := by
  refine .bind (.fileBlockWalk f bno true) fun slot => ?_
  cases slot with
  | error r => exact .pure _
  | ok slot =>
      refine .bind (.load _) fun _ => .ite (.bind .allocBlock fun b => ?_)
        (.bind (.load _) fun _ => .bind (.diskaddr _) fun _ => .pure _)
      cases b with
      | error r => exact .pure _
      | ok b =>
          exact .bind (.store _ _) fun _ => .bind (.load _) fun _ =>
            .bind (.diskaddr _) fun _ => .pure _

theorem fileFreeBlock (bno : Word) : Quiet (fileFreeBlock f bno) := by
  refine .bind (.fileBlockWalk f bno false) fun ptr => ?_
  cases ptr with
  | error r => exact .pure _
  | ok ptr =>
      exact .bind (.load _) fun _ => .ite (.pure _)
        (.bind (.freeBlock _) fun _ => .bind (.store _ _) fun _ => .pure _)

theorem freeBlocks (n : Nat) (bno : Word) : Quiet (freeBlocks f n bno) := by
  induction n generalizing bno with
  | zero => exact .pure _
  | succ n ih => exact .bind (.fileFreeBlock f bno) fun _ => ih _

theorem fileTruncateBlocks (size : Word) : Quiet (fileTruncateBlocks f size) :=
  .bind (.load _) fun _ => .bind (.freeBlocks f _ _) fun _ => .ite
    (.bind (.load _) fun _ => .ite (.pure _) (.bind (.freeBlock _) fun _ => .store _ _)) (.pure _)

theorem fileSetSize (size : Word) : Quiet (fileSetSize f size) :=
  .bind (.load _) fun _ => .ite
    (.bind (.fileTruncateBlocks f size) fun _ => .bind (.store _ _) fun _ =>
      .bind (.flushBlock _) fun _ => .pure _)
    (.bind (.store _ _) fun _ => .bind (.flushBlock _) fun _ => .pure _)

theorem extend (stop : Word) : Quiet (extend f stop) :=
  .bind (.load _) fun _ => .ite (.fileSetSize f stop) (.pure _)

theorem growTo (stop : Word) : Quiet (growTo f stop) :=
  .bind (.load _) fun _ => .ite (.bind (.fileSetSize f stop) fun _ => .pure _) (.pure _)

theorem theFile (o : OpenFile) : Quiet (theFile o) := by
  unfold Fs.theFile
  split
  · exact .panic _
  · exact .pure _

end Quiet

end

/-! ## `memmove` and the loop of `file_read` and `file_write` -/

section

variable {P : Move → Prop} {dst src len : Nat}

theorem within_memmove (h : P ⟨dst, src, len⟩) : Within P (memmove dst src len) :=
  .bind (.cmd fun hbreaks => hbreaks h) fun _ =>
    .bind (Quiet.loadBytes src len P) fun bs => Quiet.storeBytes dst bs P

/-- A program that calls `memmove` outside `P` has a call outside `P`. -/
theorem not_grown_memmove {α : Type} {s : Machine} (k : Unit → FsM α) (h : ¬ P ⟨dst, src, len⟩) :
    ¬ s.Grown P ((memmove dst src len >>= k).run onMachine s).2 := by
  intro hall
  let noted : Machine := { s with moves := ⟨⟨dst, src, len⟩, s.mem⟩ :: s.moves }
  have hnote : s.Grown (fun _ => True) noted := ⟨[_], rfl, fun _ _ => trivial⟩
  have hrest := moves_grow ((do storeBytes dst (← loadBytes src len)) >>= k) noted
  obtain ⟨ms, heq, hP⟩ := (hnote.split hrest hall).1
  have hms : [(⟨⟨dst, src, len⟩, s.mem⟩ : Access)] = ms :=
    List.append_cancel_right (List.singleton_append.trans heq)
  subst hms
  exact h (hP _ List.mem_cons_self)

/-- A turn moves at least a byte, and stays below `stop`. -/
theorem chunkLen_le {pos stop : Word} (h : pos < stop) :
    (chunkLen pos stop).toNat ≤ stop.toNat - pos.toNat := by
  have hsub : (stop - pos).toNat = stop.toNat - pos.toNat :=
    BitVec.toNat_sub_of_le (BitVec.le_of_lt h)
  rw [← hsub]
  unfold chunkLen minWord
  split
  · exact BitVec.le_def.mp ‹_›
  · exact le_rfl

theorem add_chunkLen {pos stop : Word} (h : pos < stop) :
    (pos + chunkLen pos stop).toNat = pos.toNat + (chunkLen pos stop).toNat := by
  have hle := chunkLen_le h
  have hlt := BitVec.lt_def.mp h
  rw [BitVec.toNat_add, Nat.mod_eq_of_lt]
  have := stop.isLt
  omega

/-- Every chunk lies in the `stop - pos` bytes of the buffer. -/
theorem within_transfer {copy : Nat → Nat → Nat → FsM Unit} {f : FilePtr} {stop : Word}
    (lo hi : Nat) (hcopy : ∀ blk buf n, lo ≤ buf → buf + n ≤ hi → Within P (copy blk buf n))
    (fuel : Nat) (pos : Word) (buf : Nat) (hlo : lo ≤ buf)
    (hhi : buf + (stop.toNat - pos.toNat) ≤ hi) :
    Within P (transfer copy f stop fuel pos buf) := by
  induction fuel generalizing pos buf with
  | zero => exact .pure _
  | succ fuel ih =>
      unfold transfer
      split
      · rename_i hlt
        refine .bind (Quiet.fileGetBlock f _ P) fun blk => ?_
        have hchunk := chunkLen_le hlt
        have hadd := add_chunkLen hlt
        cases blk with
        | error r => exact .pure _
        | ok blk => exact .bind (hcopy _ _ _ hlo (by omega)) fun _ => ih _ _ (by omega) (by omega)
      · exact .pure _

end

end SisOp.Fs
