/-
# `SisOp.Server.Walk` — resolving a path

`walk_path` scans a path in place.  What it comes to is said by the components of the
path, the fields between its slashes: they are looked up one after the other from the
root (`follow`), and the first that cannot be looked up decides (`Resolves`).  The
directories that are looked at must be `Whole`.
-/
import SisOp.Lib.Cells
import SisOp.Lib.Fields
import SisOp.Server.SizeRuns

namespace SisOp.Fs

open SisOp.Lib SisOp.Jos

/-! ## Directories -/

/-- The string that bytes start with. -/
def cString (bs : List Byte) : List Byte := bs.takeWhile (· ≠ 0)

theorem cString_null (bs : List Byte) : cString (0 :: bs) = [] := by
  simp [cString]

theorem cString_cons {c : Byte} (hc : c ≠ 0) (bs : List Byte) : cString (c :: bs) = c :: cString bs :=
  List.takeWhile_cons_of_pos (decide_eq_true hc)

/-- A string and its null byte. -/
theorem cString_append {s : List Byte} (h0 : 0 ∉ s) (bs : List Byte) : cString (s ++ 0 :: bs) = s := by
  induction s with
  | nil => exact cString_null bs
  | cons c s ih =>
      obtain ⟨hc, h0⟩ := not_or.mp (mt List.mem_cons.mpr h0)
      rw [List.cons_append, cString_cons (Ne.symm hc), ih h0]

/-- The name of a file, up to the null byte. -/
def fileName (mem : Nat → Block) (f : FilePtr) : List Byte := cString ((List.range MAXNAMELEN).map (nameAt mem f))

/-- The `File`s of block `b`. -/
def blockEntries (b : Nat) : List FilePtr := (List.range BLKFILES).map fun j => ⟨b, 64 * j⟩

/-- The number of blocks of a directory. -/
def dirLength (mem : Nat → Block) (d : FilePtr) : Nat := (fileSize mem d).toNat / BLKSIZE

/-- The `File`s of a directory. -/
def dirEntries (mem : Nat → Block) (d : FilePtr) : List FilePtr :=
  (List.range (dirLength mem d)).flatMap fun k => blockEntries (fileBlock mem d k)

/-- The first entry of the name. -/
def lookup (mem : Nat → Block) (d : FilePtr) (name : List Byte) : Option FilePtr :=
  (dirEntries mem d).find? fun g => fileName mem g = name

/-- A directory without holes: its blocks are on the disk. -/
structure Whole (mem : Nat → Block) (d : FilePtr) : Prop where
  size_mod : (fileSize mem d).toNat % BLKSIZE = 0
  size_le : (fileSize mem d).toNat ≤ MAXFILESIZE
  block_ne : ∀ k < dirLength mem d, fileBlock mem d k ≠ 0
  block_lt : ∀ k < dirLength mem d, fileBlock mem d k < nblocks mem
  indirect_lt : indirectBlock mem d ≠ 0 → indirectBlock mem d < nblocks mem

/-! ## Paths -/

/-- The components of a path. -/
def components (path : List Byte) : List (List Byte) := fields (· = slash) path

/-- A component is looked up; the result is the directory and the file. -/
def descend (mem : Nat → Block) (at' : Option FilePtr × FilePtr) (c : List Byte) :
    Option (Option FilePtr × FilePtr) :=
  if c.length < MAXNAMELEN ∧ IsDir mem at'.2 then (lookup mem at'.2 c).map fun g => (some at'.2, g)
  else none

/-- The components are looked up from the root, which is in no directory. -/
def follow (mem : Nat → Block) (cs : List (List Byte)) : Option (Option FilePtr × FilePtr) :=
  cs.foldlM (descend mem) (none, sRoot)

/-- What a path of the components comes to: all of them are found, or the first that is not
decides. -/
inductive Resolves (mem : Nat → Block) (cs : List (List Byte)) : Walked → Prop
  | found {pdir : Option FilePtr} {pf : FilePtr} (h : follow mem cs = some (pdir, pf)) :
      Resolves mem cs (.found pdir pf)
  | badPath {pre post : List (List Byte)} {c : List Byte} {dir : Option FilePtr} {d : FilePtr}
      (hsplit : cs = pre ++ c :: post) (hpre : follow mem pre = some (dir, d)) (hlen : MAXNAMELEN ≤ c.length) :
      Resolves mem cs (.failed (-E_BAD_PATH))
  | notDir {pre post : List (List Byte)} {c : List Byte} {dir : Option FilePtr} {d : FilePtr}
      (hsplit : cs = pre ++ c :: post) (hpre : follow mem pre = some (dir, d)) (hlen : c.length < MAXNAMELEN)
      (hdir : ¬ IsDir mem d) : Resolves mem cs (.failed (-E_NOT_FOUND))
  | noPrefix {pre post : List (List Byte)} {c : List Byte} {dir : Option FilePtr} {d : FilePtr}
      (hsplit : cs = pre ++ c :: post) (hpre : follow mem pre = some (dir, d)) (hlen : c.length < MAXNAMELEN)
      (hdir : IsDir mem d) (hno : lookup mem d c = none) (hpost : post ≠ []) :
      Resolves mem cs (.failed (-E_NOT_FOUND))
  | missing {pre : List (List Byte)} {c : List Byte} {dir : Option FilePtr} {d : FilePtr}
      (hsplit : cs = pre ++ [c]) (hpre : follow mem pre = some (dir, d)) (hlen : c.length < MAXNAMELEN)
      (hdir : IsDir mem d) (hno : lookup mem d c = none) : Resolves mem cs (.missing d c)

/-- Every directory that a path leads to is without holes. -/
def Unbroken (mem : Nat → Block) : Prop :=
  ∀ cs dir d, follow mem cs = some (dir, d) → IsDir mem d → Whole mem d

/-! ## Looking up a name -/

section

variable {v : View} {d f : FilePtr} {b i j k n : Nat} {name : List Byte}

theorem run_nameIs (h0 : 0 ∉ name) (hlen : k + name.length < MAXNAMELEN) :
    (nameIs f name k).run onView v =
      (.ok (decide (cString ((List.range' k (MAXNAMELEN - k)).map (nameAt v.mem f)) = name)), v) := by
  obtain ⟨m, hm⟩ : ∃ m, MAXNAMELEN - k = m + 1 := ⟨MAXNAMELEN - k - 1, by omega⟩
  rw [hm, List.range'_succ, List.map_cons]
  induction name generalizing k m with
  | nil =>
      rw [nameIs, Prog.run_bind_ok (run_nameByte f k v)]
      by_cases hz : nameAt v.mem f k = 0
      · rw [hz, cString_null]
        rfl
      · rw [cString_cons hz, decide_eq_false hz]
        rfl
  | cons c name ih =>
      rw [List.length_cons] at hlen
      obtain ⟨hc, h0⟩ := not_or.mp (mt List.mem_cons.mpr h0)
      rw [nameIs, Prog.run_bind_ok (run_nameByte f k v), run_ite]
      by_cases heq : nameAt v.mem f k = c
      · obtain ⟨m', rfl⟩ : ∃ m', m = m' + 1 := ⟨m - 1, by omega⟩
        rw [if_pos heq, ih h0 (by omega) m' (by omega), heq, cString_cons (Ne.symm hc), List.range'_succ, List.map_cons]
        simp only [List.cons.injEq, true_and]
      · have hno : cString (nameAt v.mem f k :: (List.range' (k + 1) m).map (nameAt v.mem f)) ≠ c :: name := by
          by_cases hz : nameAt v.mem f k = 0
          · rw [hz, cString_null]
            exact (List.cons_ne_nil _ _).symm
          · rw [cString_cons hz, Ne, List.cons.injEq]
            exact fun h => heq h.1
        rw [if_neg heq, decide_eq_false hno]
        rfl

/-- `strcmp` with a component. -/
theorem run_nameIs_zero (h0 : 0 ∉ name) (hlen : name.length < MAXNAMELEN) :
    (nameIs f name 0).run onView v = (.ok (decide (fileName v.mem f = name)), v) := by
  rw [run_nameIs h0 (by omega), fileName, List.range_eq_range']
  rfl

variable {test : FilePtr → FsM Bool} {t : FilePtr → Bool}

theorem run_findFile (htest : ∀ g, (test g).run onView v = (.ok (t g), v)) :
    (findFile test b n j).run onView v =
      (.ok (((List.range' j n).map fun i => (⟨b, 64 * i⟩ : FilePtr)).find? t), v) := by
  induction n generalizing j with
  | zero => rfl
  | succ n ih =>
      rw [findFile, Prog.run_bind_ok (htest _), run_ite, List.range'_succ, List.map_cons, List.find?_cons]
      cases t ⟨b, 64 * j⟩ with
      | true => rfl
      | false => exact ih

theorem run_findFile_block (htest : ∀ g, (test g).run onView v = (.ok (t g), v)) :
    (findFile test b BLKFILES 0).run onView v = (.ok ((blockEntries b).find? t), v) := by
  rw [run_findFile htest, blockEntries, List.range_eq_range']

/-- A block that the file has. -/
theorem run_fileGetBlock_held (h0 : fileBlock v.mem f k ≠ 0) (hlt : fileBlock v.mem f k < nblocks v.mem)
    (hind : indirectBlock v.mem f ≠ 0 → indirectBlock v.mem f < nblocks v.mem) :
    (fileGetBlock f (BitVec.ofNat 32 k)).run onView v = (.ok (.ok (fileBlock v.mem f k)), v) := by
  have hslot : HasSlot v.mem f k := by
    by_contra hno
    exact h0 (fileBlock_of_no_slot hno)
  have hrange : NDIRECT + NINDIRECT = 1034 := rfl
  have hten : NDIRECT = 10 := rfl
  have hk : (BitVec.ofNat 32 k).toNat = k := by
    rw [BitVec.toNat_ofNat, Nat.mod_eq_of_lt]
    rcases hslot with hk | ⟨hk, -⟩ <;> omega
  have hwalk : (fileBlockWalk f (BitVec.ofNat 32 k) true).run onView v = (.ok (.ok (slot v.mem f k)), v) := by
    unfold fileBlockWalk
    rw [hk, run_ite, if_neg (by rcases hslot with hk | ⟨hk, -⟩ <;> omega), run_ite]
    by_cases hdirect : k < NDIRECT
    · rw [if_pos hdirect, slot, slotBlk, slotIdx, if_pos hdirect, if_pos hdirect]
      rfl
    · have hne := (hslot.resolve_left hdirect).2
      have hword : v.get f.fIndirect ≠ 0 := fun h => hne (congrArg BitVec.toNat h)
      rw [if_neg hdirect, Prog.run_bind_ok (run_load _ v), run_ite, if_neg hword, slot, slotBlk, slotIdx,
        if_neg hdirect, if_neg hdirect]
      unfold indirectSlot
      rw [Prog.run_bind_ok (run_load _ v), Prog.run_bind, run_diskaddr, if_pos ⟨hword, hind hne⟩]
      rfl
  rw [fileBlock_of_slot hslot] at h0 hlt ⊢
  have hword : v.get (slot v.mem f k) ≠ 0 := fun h => h0 (congrArg BitVec.toNat h)
  unfold fileGetBlock
  rw [Prog.run_bind_ok hwalk]
  simp only
  rw [Prog.run_bind_ok (run_load _ v), run_ite, if_neg hword, Prog.run_bind_ok (run_load _ v), Prog.run_bind,
    run_diskaddr, if_pos ⟨hword, hlt⟩]
  rfl

theorem run_scanDir (h : Whole v.mem d) (htest : ∀ g, (test g).run onView v = (.ok (t g), v))
    (hn : i + n ≤ dirLength v.mem d) : (scanDir test d n i).run onView v =
      (.ok (.ok (((List.range' i n).flatMap fun k => blockEntries (fileBlock v.mem d k)).find? t)), v) := by
  induction n generalizing i with
  | zero => rfl
  | succ n ih =>
      have hi : i < dirLength v.mem d := by omega
      have hget := run_fileGetBlock_held (h.block_ne i hi) (h.block_lt i hi) h.indirect_lt
      rw [scanDir, Prog.run_bind_ok hget, List.range'_succ, List.flatMap_cons, List.find?_append]
      simp only
      rw [Prog.run_bind_ok (run_findFile_block htest)]
      cases (blockEntries (fileBlock v.mem d i)).find? t with
      | some g => rfl
      | none => exact ih (by omega)

theorem run_dirBlocks (h : Whole v.mem d) : (dirBlocks d).run onView v = (.ok (dirLength v.mem d), v) := by
  have hmax : MAXFILESIZE = 4235264 := rfl
  have hle := h.size_le
  have hmod := h.size_mod
  have hload : (load d.fSize).run onView v = (.ok (fileSize v.mem d), v) := run_load d.fSize v
  have hsrem : (fileSize v.mem d).srem 4096 = 0 := by
    refine BitVec.eq_of_toInt_eq ?_
    rw [toInt_srem_page, toInt_of_lt (by omega)]
    exact (Int.ofNat_tmod _ 4096).symm.trans (congrArg Nat.cast hmod)
  unfold dirBlocks
  rw [Prog.run_bind_ok hload, run_ite, if_pos hsrem, toNat_sdiv_page (by omega)]
  rfl

/-- `dir_lookup` finds the first entry of the name. -/
theorem run_dirLookup (h : Whole v.mem d) (h0 : 0 ∉ name) (hlen : name.length < MAXNAMELEN) :
    (dirLookup d name).run onView v =
      (.ok (match lookup v.mem d name with
        | some g => .ok g
        | none => .error (-E_NOT_FOUND)), v) := by
  have hscan := run_scanDir h (fun g => run_nameIs_zero (f := g) h0 hlen)
    (Nat.zero_add _).le
  unfold dirLookup
  rw [Prog.run_bind_ok (run_dirBlocks h), Prog.run_bind_ok hscan, lookup, dirEntries, List.range_eq_range']
  cases List.find? _ _ <;> rfl

end

/-! ## `walk_path` -/

theorem follow_append_singleton (mem : Nat → Block) (cs : List (List Byte)) (c : List Byte) :
    follow mem (cs ++ [c]) = (follow mem cs).bind fun x => descend mem x c := by
  rw [follow, List.foldlM_append, follow]
  congr 1
  funext x
  exact List.foldlM_cons.trans (bind_pure _)

/-- What `skip_slash` leaves does not start with a slash. -/
theorem skipSlash_head {path : List Byte} {c : Byte} {rest : List Byte} (h : skipSlash path = c :: rest) : c ≠ slash := by
  have hhead := List.head?_dropWhile_not (· = slash) path
  rw [show path.dropWhile (· = slash) = c :: rest from h, List.head?_cons] at hhead
  simpa using hhead

theorem components_skipSlash (path : List Byte) : components (skipSlash path) = components path := fields_dropWhile

/-- The component that the scanner takes. -/
theorem components_cons {c : Byte} {rest : List Byte} (hc : c ≠ slash) : components (c :: rest) =
    (c :: rest).takeWhile (· ≠ slash) :: components (skipSlash ((c :: rest).dropWhile (· ≠ slash))) := by
  have hcons := @fields_cons _ (fun x : Byte => decide (x = slash)) c rest (decide_eq_false hc)
  have hp : (fun x : Byte => !decide (x = slash)) = fun x => decide (x ≠ slash) := by
    funext x
    exact decide_not.symm
  rw [firstPiece, hp] at hcons
  rw [components_skipSlash]
  exact hcons

section

variable {s : Machine} {v : View} {path : List Byte}

theorem walkLoop_resolves (h : Unbroken v.mem) {n : Nat} {pre : List (List Byte)} {dir : Option FilePtr} {f : FilePtr}
    (hpre : follow v.mem pre = some (dir, f)) (h0 : 0 ∉ path) (hhead : ∀ c rest, path = c :: rest → c ≠ slash)
    (hn : path.length ≤ n) :
    ∃ w, (walkLoop n path dir f).run onView v = (.ok w, v) ∧ Resolves v.mem (pre ++ components path) w := by
  induction n generalizing path pre dir f with
  | zero =>
      obtain rfl := List.length_eq_zero_iff.mp (Nat.le_zero.mp hn)
      exact ⟨_, rfl, .found (by rwa [components, fields_nil, List.append_nil])⟩
  | succ n ih =>
      rw [walkLoop]
      cases path with
      | nil => exact ⟨_, rfl, .found (by rwa [components, fields_nil, List.append_nil])⟩
      | cons c rest =>
          rw [if_neg (List.cons_ne_nil c rest), components_cons (hhead c rest rfl)]
          simp only
          generalize hp : (c :: rest).takeWhile (· ≠ slash) = p
          generalize hq : skipSlash ((c :: rest).dropWhile (· ≠ slash)) = q
          have hp0 : 0 ∉ p := fun hmem => h0 (List.takeWhile_subset _ (hp ▸ hmem))
          have hqsuf : q <:+ (c :: rest).dropWhile (· ≠ slash) := hq ▸ List.dropWhile_suffix _
          have hq0 : 0 ∉ q := fun hmem => h0 ((List.dropWhile_suffix _).subset (hqsuf.subset hmem))
          have hqlen : q.length ≤ n := by
            have hle := hqsuf.length_le
            have hdrop : (c :: rest).dropWhile (· ≠ slash) = rest.dropWhile (· ≠ slash) :=
              List.dropWhile_cons_of_pos (decide_eq_true (hhead c rest rfl))
            have hle' := (List.dropWhile_suffix (fun x => decide (x ≠ slash)) (l := rest)).length_le
            rw [hdrop] at hle
            rw [List.length_cons] at hn
            omega
          have hqhead : ∀ c rest, q = c :: rest → c ≠ slash := fun c' rest' heq =>
            skipSlash_head (hq.trans heq)
          have hcomp : components q = [] ↔ q = [] := by
            constructor
            · intro hnil
              cases hq' : q with
              | nil => rfl
              | cons c' rest' =>
                  rw [hq', components_cons (hqhead c' rest' hq')] at hnil
                  cases hnil
            · rintro rfl
              rfl
          rw [run_ite]
          by_cases hlen : MAXNAMELEN ≤ p.length
          · exact ⟨_, if_pos hlen, .badPath rfl hpre hlen⟩
          · have hlen' : p.length < MAXNAMELEN := not_le.mp hlen
            rw [if_neg hlen, Prog.run_bind_ok (run_load _ v), run_ite]
            by_cases hdir : IsDir v.mem f
            · have hlook := run_dirLookup (h pre dir f hpre hdir) hp0 hlen'
              rw [if_neg (show ¬ v.get f.fType ≠ FTYPE_DIR from not_not_intro hdir), Prog.run_bind_ok hlook]
              cases hfind : lookup v.mem f p with
              | some g =>
                  have hfollow : follow v.mem (pre ++ [p]) = some (some f, g) := by
                    rw [follow_append_singleton, hpre, Option.bind_some, descend, if_pos ⟨hlen', hdir⟩, hfind]
                    rfl
                  obtain ⟨w, hrun, hres⟩ := ih hfollow hq0 hqhead hqlen
                  rw [List.append_assoc, List.singleton_append] at hres
                  exact ⟨w, hrun, hres⟩
              | none =>
                  simp only [true_and]
                  rw [run_ite]
                  by_cases hnil : q = []
                  · rw [if_pos hnil, hcomp.mpr hnil]
                    exact ⟨_, rfl, .missing rfl hpre hlen' hdir hfind⟩
                  · rw [if_neg hnil]
                    exact ⟨_, rfl, .noPrefix rfl hpre hlen' hdir hfind (mt hcomp.mp hnil)⟩
            · rw [if_pos (show v.get f.fType ≠ FTYPE_DIR from hdir)]
              exact ⟨_, rfl, .notDir rfl hpre hlen' hdir⟩

theorem walkPath_resolves (h : Unbroken v.mem) (h0 : 0 ∉ path) :
    ∃ w, (walkPath path).run onView v = (.ok w, v) ∧ Resolves v.mem (components path) w := by
  have hroot : follow v.mem [] = some (none, sRoot) := rfl
  have h0' : 0 ∉ skipSlash path := fun hmem => h0 ((List.dropWhile_suffix _).subset hmem)
  have hres := walkLoop_resolves h hroot h0' (fun c rest => skipSlash_head) le_rfl
  rwa [List.nil_append, components_skipSlash] at hres

end

/-! ## The buffers -/

/-- A `char [MAXNAMELEN]`. -/
abbrev NameBuf := Nat → Byte

namespace NameBuf

/-- The bytes are stored from index `i` on. -/
def copy (buf : NameBuf) (i : Nat) (bs : List Byte) : FsM NameBuf :=
  if i + bs.length ≤ MAXNAMELEN then return put buf i bs
  else panic "store past the end of a name"

def str (buf : NameBuf) : List Byte := cString ((List.range MAXNAMELEN).map buf)

end NameBuf

/-- The loop of `walk_path` with the array `name`; `lastelem` may be null. -/
def walkLoopBuf (lastelem : Option NameBuf) : Nat → List Byte → NameBuf → Option FilePtr → FilePtr →
    FsM (Walked × Option NameBuf)
  | 0, _, _, dir, f => return (.found dir f, lastelem)
  | n + 1, path, name, dir, f =>
      if path = [] then return (.found dir f, lastelem)
      else
        let p := path.takeWhile (· ≠ slash)
        let rest := skipSlash (path.dropWhile (· ≠ slash))
        if MAXNAMELEN ≤ p.length then return (.failed (-E_BAD_PATH), lastelem)
        else do
          let name ← name.copy 0 p
          let name ← name.copy p.length [0]
          if (← load f.fType) ≠ FTYPE_DIR then return (.failed (-E_NOT_FOUND), lastelem)
          else
            match ← dirLookup f name.str with
            | .error r =>
                if r = -E_NOT_FOUND ∧ rest = [] then
                  match lastelem with
                  | none => return (.missing f name.str, none)
                  | some buf => do
                      let buf ← buf.copy 0 (name.str ++ [0])
                      return (.missing f name.str, some buf)
                else return (.failed r, lastelem)
            | .ok f' => walkLoopBuf lastelem n rest name (some f) f'

/-- `walk_path(path, &dir, &f, lastelem)`, with what `name` holds before. -/
def walkPathBuf (path : List Byte) (name : NameBuf) (lastelem : Option NameBuf) : FsM (Walked × Option NameBuf) := do
  let name ← name.copy 0 [0]
  walkLoopBuf lastelem (skipSlash path).length (skipSlash path) name none sRoot

/-- `lastelem` after the call. -/
def Walked.lastelem (lastelem : Option NameBuf) : Walked → Option NameBuf
  | .missing _ c => lastelem.map fun buf => put buf 0 (c ++ [0])
  | _ => lastelem

section

variable {path : List Byte} {name : NameBuf} {lastelem : Option NameBuf} {p : List Byte}

theorem NameBuf.copy_eq {i : Nat} {bs : List Byte} (buf : NameBuf) (h : i + bs.length ≤ MAXNAMELEN) :
    buf.copy i bs = (pure (put buf i bs) : FsM NameBuf) := if_pos h

/-- The string of a buffer that holds it. -/
theorem NameBuf.str_of_holdsAt {buf : NameBuf} (h : HoldsAt buf 0 (p ++ [0])) (h0 : 0 ∉ p)
    (hlen : p.length < MAXNAMELEN) : buf.str = p := by
  obtain ⟨m, hm⟩ : ∃ m, MAXNAMELEN = p.length + 1 + m := ⟨MAXNAMELEN - p.length - 1, by omega⟩
  have hfirst : (List.range (p.length + 1)).map buf = p ++ [0] := by
    refine List.ext_getElem (by simp) fun i hi hi' => ?_
    rw [List.getElem_map, List.getElem_range, ← h i hi', Nat.zero_add]
  rw [NameBuf.str, hm, List.range_add, List.map_append, hfirst, List.append_assoc]
  exact cString_append h0 _

/-- The component that has been copied. -/
theorem str_put (name : NameBuf) (h0 : 0 ∉ p) (hlen : p.length < MAXNAMELEN) :
    NameBuf.str (put (put name 0 p) p.length [0]) = p := by
  refine NameBuf.str_of_holdsAt (holdsAt_append.mpr ⟨holdsAt_put.put (.inl ?_), ?_⟩) h0 hlen
  · exact (Nat.zero_add _).le
  · rw [Nat.zero_add]
    exact holdsAt_put

/-- No store is past the end of a buffer: the loop is the one without buffers. -/
theorem walkLoopBuf_eq (n : Nat) (name : NameBuf) (dir : Option FilePtr) (f : FilePtr) (h0 : 0 ∉ path) :
    walkLoopBuf lastelem n path name dir f = (do
      let w ← walkLoop n path dir f
      return (w, w.lastelem lastelem)) := by
  induction n generalizing path name dir f with
  | zero => rfl
  | succ n ih =>
      rw [walkLoopBuf, walkLoop]
      by_cases hnil : path = []
      · rw [if_pos hnil, if_pos hnil]
        rfl
      · rw [if_neg hnil, if_neg hnil]
        simp only
        generalize hp : path.takeWhile (· ≠ slash) = p
        have hp0 : 0 ∉ p := fun hmem => h0 (List.takeWhile_subset _ (hp ▸ hmem))
        have hq0 : 0 ∉ skipSlash (path.dropWhile (· ≠ slash)) := fun hmem =>
          h0 ((List.dropWhile_suffix _).subset ((List.dropWhile_suffix _).subset hmem))
        generalize skipSlash (path.dropWhile (· ≠ slash)) = q at hq0
        by_cases hlen : MAXNAMELEN ≤ p.length
        · rw [if_pos hlen, if_pos hlen]
          rfl
        · have hlen' : p.length < MAXNAMELEN := not_le.mp hlen
          rw [if_neg hlen, if_neg hlen, NameBuf.copy_eq name (by omega), Prog.pure_bind,
            NameBuf.copy_eq _ (show p.length + 1 ≤ MAXNAMELEN from hlen'), Prog.pure_bind, str_put name hp0 hlen',
            Prog.bind_assoc]
          refine congrArg (load f.fType >>= ·) (funext fun w => ?_)
          by_cases hdir : w ≠ FTYPE_DIR
          · rw [if_pos hdir, if_pos hdir]
            rfl
          · rw [if_neg hdir, if_neg hdir, Prog.bind_assoc]
            refine congrArg (dirLookup f p >>= ·) (funext fun found => ?_)
            cases found with
            | ok g => exact ih _ _ _ hq0
            | error r =>
                simp only
                by_cases hlast : r = -E_NOT_FOUND ∧ q = []
                · rw [if_pos hlast, if_pos hlast]
                  cases lastelem with
                  | none => rfl
                  | some buf =>
                      have hroom : 0 + (p ++ [0]).length ≤ MAXNAMELEN := by
                        rw [List.length_append, Nat.zero_add]
                        exact hlen'
                      simp only
                      rw [NameBuf.copy_eq buf hroom, Prog.pure_bind]
                      rfl
                · rw [if_neg hlast, if_neg hlast]
                  rfl

theorem walkPathBuf_eq (h0 : 0 ∉ path) : walkPathBuf path name lastelem = (do
      let w ← walkPath path
      return (w, w.lastelem lastelem)) := by
  have h0' : 0 ∉ skipSlash path := fun hmem => h0 ((List.dropWhile_suffix _).subset hmem)
  rw [walkPathBuf, NameBuf.copy_eq name (by decide), Prog.pure_bind]
  exact walkLoopBuf_eq _ _ _ _ h0'

end

section

variable {mem : Nat → Block} {F : FilePtr → Prop} {d g : FilePtr}

/-- What is found is an entry. -/
theorem lookup_some {name : List Byte} (h : lookup mem d name = some g) :
    fileName mem g = name ∧ ∃ k < dirLength mem d, ∃ j < BLKFILES, g = ⟨fileBlock mem d k, 64 * j⟩ := by
  refine ⟨by simpa using List.find?_some h, ?_⟩
  have hmem := List.mem_of_find?_eq_some h
  simp only [dirEntries, blockEntries, List.mem_flatMap, List.mem_map, List.mem_range] at hmem
  obtain ⟨k, hk, j, hj, rfl⟩ := hmem
  exact ⟨k, hk, j, hj, rfl⟩

/-- What a path leads to is the root or has been looked up. -/
theorem follow_induction {P : FilePtr → Prop} (hroot : P sRoot)
    (hstep : ∀ d g name, P d → IsDir mem d → lookup mem d name = some g → P g) {cs : List (List Byte)}
    {dir : Option FilePtr} (h : follow mem cs = some (dir, d)) : P d := by
  induction cs using List.reverseRecOn generalizing dir d with
  | nil =>
      cases h
      exact hroot
  | append_singleton cs c ih =>
      rw [follow_append_singleton] at h
      obtain ⟨⟨dir', d'⟩, hpre, hdesc⟩ := Option.bind_eq_some_iff.mp h
      unfold descend at hdesc
      split at hdesc
      · rename_i hc
        obtain ⟨g, hfind, heq⟩ := Option.map_eq_some_iff.mp hdesc
        cases heq
        exact hstep d' _ c (ih hpre) hc.2 hfind
      · cases hdesc

theorem Sound.whole (h : Sound F mem) (hs : Filled F mem) (hd : F d) (hdir : IsDir mem d) : Whole mem d where
  size_mod := (hs d hd hdir).1
  size_le := h.size d hd
  block_ne := fun k hk => ((hs d hd hdir).2 k).mpr hk
  block_lt := fun k hk => (h.owned.range (.data d k) hd (((hs d hd hdir).2 k).mpr hk)).2
  indirect_lt := fun h0 => (h.owned.range (.indirect d) hd h0).2

theorem Sound.follow_mem (h : Sound F mem) (hs : Filled F mem) {cs : List (List Byte)} {dir : Option FilePtr}
    (hf : follow mem cs = some (dir, d)) : F d :=
  follow_induction h.root (fun d g _ hd hdir hfind => by
    obtain ⟨-, k, hk, j, hj, rfl⟩ := lookup_some hfind
    exact h.entries d k j hd hdir (((hs d hd hdir).2 k).mpr hk) hj) hf

theorem Sound.unbroken (h : Sound F mem) (hs : Filled F mem) : Unbroken mem := fun _ _ _ hf hdir =>
  h.whole hs (h.follow_mem hs hf) hdir

end

end SisOp.Fs
