/-
# `SisOp.Server.Lookup` — looking up a path

On a sound disk, where a directory has all its blocks, `walk_path` and `file_open` change
nothing, and what they find is a file of the system (`WalkEnd`).
-/
import SisOp.Server.Requests

namespace SisOp.Fs

open SisOp.Lib SisOp.Jos

/-! ## Looking up -/

section

variable {v v' : View} {F : FilePtr → Prop} {d f g : FilePtr} {b i j k n : Nat}
  {test : FilePtr → FsM Bool}

theorem run_nameByte (f : FilePtr) (k : Nat) (v : View) :
    (nameByte f k).run onView v = (.ok (nameAt v.mem f k), v) := rfl

theorem nameIs_same {name : List Byte} {r : Bool} (hrun : (nameIs f name k).run onView v = (.ok r, v')) :
    v' = v := by
  induction name generalizing k with
  | nil =>
      cases hrun
      rfl
  | cons c name ih =>
      rw [nameIs, Prog.run_bind_ok (run_nameByte f k v), run_ite] at hrun
      split at hrun
      · exact ih hrun
      · cases hrun
        rfl

/-- The inner loop: the first file that passes the test, or none does. -/
theorem findFile_ok (htest : ∀ g v r v', (test g).run onView v = (.ok r, v') → v' = v)
    {r : Option FilePtr} (hrun : (findFile test b n j).run onView v = (.ok r, v')) :
    v' = v ∧ (∀ g, r = some g → ∃ i < j + n, g = ⟨b, 64 * i⟩ ∧ (test g).run onView v = (.ok true, v)) ∧
      (r = none → ∀ i, j ≤ i → i < j + n → (test ⟨b, 64 * i⟩).run onView v = (.ok false, v)) := by
  induction n generalizing j with
  | zero =>
      cases hrun
      refine ⟨rfl, fun g hg => ?_, fun _ i hlo hhi => ?_⟩
      · cases hg
      · omega
  | succ n ih =>
      rw [findFile] at hrun
      obtain ⟨passed, v1, hpass, hrest⟩ := Prog.bind_ok hrun
      obtain rfl := htest _ _ _ _ hpass
      rw [run_ite] at hrest
      split at hrest
      · rename_i htrue
        cases hrest
        rw [htrue] at hpass
        refine ⟨rfl, fun g hg => ?_, fun hnone => by cases hnone⟩
        cases hg
        exact ⟨j, by omega, rfl, hpass⟩
      · rename_i hfalse
        obtain ⟨hv, hsome, hnone⟩ := ih hrest
        rw [Bool.not_eq_true] at hfalse
        rw [hfalse] at hpass
        refine ⟨hv, fun g hg => ?_, fun hr i hlo hhi => ?_⟩
        · obtain ⟨i, hi, hgi, hgtest⟩ := hsome g hg
          exact ⟨i, by omega, hgi, hgtest⟩
        · rcases Nat.eq_or_lt_of_le hlo with rfl | hlt
          · exact hpass
          · exact hnone hr i hlt (by omega)

theorem Filled.block_ne_zero (hs : Filled F v.mem) (hd : F d) (hdir : IsDir v.mem d)
    (hk : k < (fileSize v.mem d).toNat / BLKSIZE) : fileBlock v.mem d k ≠ 0 := ((hs d hd hdir).2 k).mpr hk

/-- The outer loop, within the size of the directory. -/
theorem scanDir_ok (htest : ∀ g v r v', (test g).run onView v = (.ok r, v') → v' = v)
    (h : Sound F v.mem) (hs : Filled F v.mem) (hd : F d) (hdir : IsDir v.mem d)
    (hn : i + n ≤ (fileSize v.mem d).toNat / BLKSIZE) {r : Except Int (Option FilePtr)}
    (hrun : (scanDir test d n i).run onView v = (.ok r, v')) :
    v' = v ∧ (∀ g, r = .ok (some g) → F g ∧ (test g).run onView v = (.ok true, v)) ∧
      (r = .ok none → ∀ k, i ≤ k → k < i + n → ∀ j < BLKFILES,
        (test ⟨fileBlock v.mem d k, 64 * j⟩).run onView v = (.ok false, v)) := by
  induction n generalizing i with
  | zero =>
      cases hrun
      refine ⟨rfl, fun g hg => ?_, fun _ k hlo hhi => by omega⟩
      cases hg
  | succ n ih =>
      have h0 := hs.block_ne_zero hd hdir (show i < (fileSize v.mem d).toNat / BLKSIZE by omega)
      have hi : (BitVec.ofNat 32 i).toNat = i := by
        have hmax : MAXFILESIZE = 4235264 := rfl
        have hsize := h.size d hd
        rw [BitVec.toNat_ofNat, Nat.mod_eq_of_lt]
        unfold BLKSIZE at hn
        omega
      rw [scanDir] at hrun
      obtain ⟨blk, v1, hget, hrest⟩ := Prog.bind_ok hrun
      have hgot := gotBlock_of_run h.owned hd (hi.symm ▸ nextBlank_of_ne_zero h0) hget
      rw [hi] at hgot
      obtain ⟨rfl, hblk⟩ := hgot.eq_of_ne_zero h0
      cases blk with
      | error e =>
          cases hrest
          refine ⟨rfl, fun g hg => ?_, fun hr => ?_⟩
          · cases hg
          · cases hr
      | ok b =>
          obtain rfl := hblk b rfl
          simp only at hrest
          obtain ⟨found, v2, hfind, hlast⟩ := Prog.bind_ok hrest
          obtain ⟨rfl, hsome, hnone⟩ := findFile_ok htest hfind
          cases found with
          | some g =>
              cases hlast
              refine ⟨rfl, fun g' hg' => ?_, fun hr => ?_⟩
              · cases hg'
                obtain ⟨j, hj, rfl, hgtest⟩ := hsome g rfl
                exact ⟨h.entries d i j hd hdir h0 (by omega), hgtest⟩
              · cases hr
          | none =>
              obtain ⟨hv, hsome', hnone'⟩ := ih (by omega) hlast
              refine ⟨hv, hsome', fun hr k hlo hhi j hj => ?_⟩
              rcases Nat.eq_or_lt_of_le hlo with rfl | hlt
              · exact hnone rfl j (Nat.zero_le j) (by omega)
              · exact hnone' hr k hlt (by omega) j hj

theorem dirBlocks_ok (h : Sound F v.mem) (hd : F d) (hrun : (dirBlocks d).run onView v = (.ok n, v')) :
    v' = v ∧ n = (fileSize v.mem d).toNat / BLKSIZE := by
  have hmax : MAXFILESIZE = 4235264 := rfl
  have hsize := h.size d hd
  have hload : (load d.fSize).run onView v = (.ok (fileSize v.mem d), v) := run_load d.fSize v
  unfold dirBlocks at hrun
  rw [Prog.run_bind_ok hload, run_ite] at hrun
  split at hrun
  · cases hrun
    exact ⟨rfl, toNat_sdiv_page (by omega)⟩
  · cases hrun

theorem dirLookup_ok (h : Sound F v.mem) (hs : Filled F v.mem) (hd : F d) (hdir : IsDir v.mem d)
    {name : List Byte} {r : Except Int FilePtr} (hrun : (dirLookup d name).run onView v = (.ok r, v')) :
    v' = v ∧ ∀ g, r = .ok g → F g := by
  unfold dirLookup at hrun
  obtain ⟨nblock, v1, hblocks, hrest⟩ := Prog.bind_ok hrun
  obtain ⟨rfl, rfl⟩ := dirBlocks_ok h hd hblocks
  obtain ⟨found, v2, hscan, hlast⟩ := Prog.bind_ok hrest
  obtain ⟨rfl, hsome, -⟩ := scanDir_ok (fun g v r v' => nameIs_same) h hs hd hdir (Nat.zero_add _).le hscan
  rcases found with e | _ | g
  · cases hlast
    exact ⟨rfl, fun g hg => by cases hg⟩
  · cases hlast
    exact ⟨rfl, fun g hg => by cases hg⟩
  · cases hlast
    refine ⟨rfl, fun g' hg' => ?_⟩
    cases hg'
    exact (hsome g rfl).1

/-- What `walk_path` finds. -/
inductive WalkEnd (F : FilePtr → Prop) (mem : Nat → Block) : Walked → Prop
  | found {pdir : Option FilePtr} {pf : FilePtr} (hf : F pf) : WalkEnd F mem (.found pdir pf)
  | missing {pdir : FilePtr} {lastelem : List Byte} (hd : F pdir) (hdir : IsDir mem pdir)
      (hlen : lastelem.length < MAXNAMELEN) : WalkEnd F mem (.missing pdir lastelem)
  | failed (r : Int) : WalkEnd F mem (.failed r)

theorem walkLoop_ok (h : Sound F v.mem) (hs : Filled F v.mem) (hf : F f) {path : List Byte}
    {dir : Option FilePtr} {r : Walked} (hrun : (walkLoop n path dir f).run onView v = (.ok r, v')) :
    v' = v ∧ WalkEnd F v.mem r := by
  induction n generalizing path dir f with
  | zero =>
      cases hrun
      exact ⟨rfl, .found hf⟩
  | succ n ih =>
      rw [walkLoop, run_ite] at hrun
      split at hrun
      · cases hrun
        exact ⟨rfl, .found hf⟩
      · simp only at hrun
        rw [run_ite] at hrun
        split at hrun
        · cases hrun
          exact ⟨rfl, .failed _⟩
        · rename_i hlen
          rw [Prog.run_bind_ok (run_load _ v), run_ite] at hrun
          split at hrun
          · cases hrun
            exact ⟨rfl, .failed _⟩
          · rename_i hdir
            have hdir' : IsDir v.mem f := not_not.mp hdir
            obtain ⟨found, v1, hlook, hrest⟩ := Prog.bind_ok hrun
            obtain ⟨rfl, hfound⟩ := dirLookup_ok h hs hf hdir' hlook
            cases found with
            | error e =>
                simp only at hrest
                rw [run_ite] at hrest
                split at hrest
                · cases hrest
                  exact ⟨rfl, .missing hf hdir' (not_le.mp hlen)⟩
                · cases hrest
                  exact ⟨rfl, .failed _⟩
            | ok g => exact ih (hfound g rfl) hrest

theorem walkPath_ok (h : Sound F v.mem) (hs : Filled F v.mem) {path : List Byte} {r : Walked}
    (hrun : (walkPath path).run onView v = (.ok r, v')) : v' = v ∧ WalkEnd F v.mem r :=
  walkLoop_ok h hs h.root hrun

theorem fileOpen_ok (h : Sound F v.mem) (hs : Filled F v.mem) {path : List Byte} {r : Except Int FilePtr}
    (hrun : (fileOpen path).run onView v = (.ok r, v')) :
    v' = v ∧ ∀ g, r = .ok g → F g ∧ ∃ pdir, (walkPath path).run onView v = (.ok (.found pdir g), v) := by
  unfold fileOpen at hrun
  obtain ⟨w, v1, hwalk, hrest⟩ := Prog.bind_ok hrun
  obtain ⟨rfl, hend⟩ := walkPath_ok h hs hwalk
  cases hend with
  | @found pdir pf hf =>
      cases hrest
      refine ⟨rfl, fun g hg => ?_⟩
      cases hg
      exact ⟨hf, pdir, hwalk⟩
  | missing _ _ _ =>
      cases hrest
      refine ⟨rfl, fun g hg => ?_⟩
      cases hg
  | failed r =>
      cases hrest
      refine ⟨rfl, fun g hg => ?_⟩
      cases hg

end

end SisOp.Fs
