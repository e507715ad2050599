/-
# `SisOp.Shell.Wiring` — who holds the ends of the pipes of a pipeline

The table of a process is a function of where it is.  `node k` starts from the table the
shell gave with its descriptor 0 on pipe `k - 1`; the two ends of pipe `k` come and go above it.
-/
import SisOp.Shell.Pipeline

namespace SisOp.Shell

open SisOp.Lib

/-! ## Paths -/

theorem node_injective {k j : Nat} (h : node k = node j) : k = j := by
  have hlen := congrArg List.length h
  simpa [node] using hlen

theorem node_succ (k : Nat) : node k ++ [true] = node (k + 1) :=
  (List.replicate_succ').symm

theorem node_ne_izq (k j : Nat) : node k ≠ node j ++ [false] := by
  intro h
  have hmem : false ∈ node k := by
    rw [h]
    exact List.mem_append_right _ List.mem_cons_self
  have hbad := List.eq_of_mem_replicate hmem
  cases hbad

theorem izq_injective {k j : Nat} (h : node k ++ [false] = node j ++ [false]) : k = j :=
  node_injective (List.append_cancel_right h)

theorem node_ne_append (q : Path) (b : Bool) : q ≠ q ++ [b] := by
  intro h
  have hlen := congrArg List.length h
  simp at hlen

/-! ## Tables -/

variable (start : Slots Nat)

/-- The table of `node k` before its `pipe`. -/
def nodeFds : Nat → Nat → Option Ref
  | 0 => fun n => (start.get n).map .other
  | k + 1 => Function.update (fun n => (start.get n).map .other) 0 (some (.read (node k)))

/-- A descriptor that `pipe` may return in `node k`. -/
def Free (k fd : Nat) : Prop := 3 ≤ fd ∧ nodeFds start k fd = none

/-- The table of `node k` with one end more. -/
def withRead (k rd : Nat) : Nat → Option Ref :=
  Function.update (nodeFds start k) rd (some (.read (node k)))

def withWrite (k wr : Nat) : Nat → Option Ref :=
  Function.update (nodeFds start k) wr (some (.write (node k)))

/-- The table of `node k` after its `pipe`. -/
def withBoth (k rd wr : Nat) : Nat → Option Ref :=
  Function.update (withRead start k rd) wr (some (.write (node k)))

/-- What `pipe` returned in `node k`. -/
structure FdPair (k rd wr : Nat) : Prop where
  read_free : Free start k rd
  write_free : Free start k wr
  ne : rd ≠ wr

variable {start}

theorem get_put_eq (t : Fds) (n : Nat) (v : Option Ref) :
    (t.put n v).get = Function.update t.get n v := by
  funext m
  rw [Slots.get_put, Function.update_apply]

theorem nodeFds_zero_isSome (hopen : ∀ n, n < 3 → (start.get n).isSome = true) (k : Nat) {n : Nat}
    (hn : n < 3) : (nodeFds start k n).isSome = true := by
  cases k with
  | zero =>
    rw [nodeFds, Option.isSome_map]
    exact hopen n hn
  | succ k =>
    rw [nodeFds, Function.update_apply]
    split
    · rfl
    · rw [Option.isSome_map]
      exact hopen n hn

theorem update_read_zero (k : Nat) :
    Function.update (nodeFds start k) 0 (some (.read (node k))) = nodeFds start (k + 1) := by
  cases k with
  | zero => rfl
  | succ k => exact Function.update_idem _ _ _

/-- The end that came first goes. -/
theorem update_first {g : Nat → Option Ref} {a b : Nat} (hab : a ≠ b) (hg : g a = none)
    (x y : Option Ref) :
    Function.update (Function.update (Function.update g a x) b y) a none
      = Function.update g b y := by
  rw [Function.update_comm hab.symm, Function.update_idem, ← hg, Function.update_eq_self]

/-- The end that came last goes. -/
theorem update_last {g : Nat → Option Ref} {a : Nat} (hg : g a = none) (x : Option Ref) :
    Function.update (Function.update g a x) a none = g := by
  rw [Function.update_idem, ← hg, Function.update_eq_self]

theorem nodeFds_not_write (k n : Nat) (p : Path) : nodeFds start k n ≠ some (.write p) := by
  cases k with
  | zero =>
    intro h
    obtain ⟨_, _, hc⟩ := Option.map_eq_some_iff.mp h
    cases hc
  | succ k =>
    rw [nodeFds, Function.update_apply]
    split
    · intro h
      cases h
    · intro h
      obtain ⟨_, _, hc⟩ := Option.map_eq_some_iff.mp h
      cases hc

theorem nodeFds_read {k n : Nat} {p : Path} (h : nodeFds start k n = some (.read p)) :
    0 < k ∧ n = 0 := by
  cases k with
  | zero =>
    obtain ⟨_, _, hc⟩ := Option.map_eq_some_iff.mp h
    cases hc
  | succ k =>
    rw [nodeFds, Function.update_apply] at h
    split at h
    · rename_i hn
      exact ⟨Nat.succ_pos k, hn⟩
    · obtain ⟨_, _, hc⟩ := Option.map_eq_some_iff.mp h
      cases hc

/-- `pipe` in a process with the table of `node k`. -/
theorem pipe_fdPair (hopen : ∀ n, n < 3 → (start.get n).isSome = true) {k : Nat} {t : Fds}
    (ht : t.get = nodeFds start k) :
    FdPair start k t.lowest (pipeRead (node k) t).lowest ∧
      (pipeBoth (node k) t).get = withBoth start k t.lowest (pipeRead (node k) t).lowest := by
  have hread : (pipeRead (node k) t).get = withRead start k t.lowest := by
    rw [pipeRead, get_put_eq, ht]
    rfl
  have hsome : ∀ n, n < 3 → ((pipeRead (node k) t).get n).isSome = true := by
    intro n hn
    rw [hread, withRead, Function.update_apply]
    split
    · rfl
    · exact nodeFds_zero_isSome hopen k hn
  have hrd : 2 < t.lowest := by
    refine Slots.lt_lowest fun m hm => ?_
    rw [ht]
    exact nodeFds_zero_isSome hopen k (by omega)
  have hwr : 2 < (pipeRead (node k) t).lowest :=
    Slots.lt_lowest fun m hm => hsome m (by omega)
  have hfree : withRead start k t.lowest (pipeRead (node k) t).lowest = none := by
    rw [← hread]
    exact Slots.get_lowest _
  have hne : t.lowest ≠ (pipeRead (node k) t).lowest := by
    intro heq
    rw [← heq, withRead, Function.update_self] at hfree
    cases hfree
  refine ⟨⟨⟨hrd, ?_⟩, ⟨hwr, ?_⟩, hne⟩, ?_⟩
  · rw [← ht]
    exact Slots.get_lowest t
  · rw [withRead, Function.update_of_ne hne.symm] at hfree
    exact hfree
  · rw [pipeBoth, get_put_eq, hread]
    rfl

/-! ## Where a process may be -/

variable (start) (cs : List Cmd)

/-- Process `q` at its place, with the table `g`. -/
def Good (q : Path) (g : Nat → Option Ref) : Pc → Prop
  | .execCmd c =>
    (∃ k, q = node k ∧ c.RightNested ∧ c.leaves = cs.drop k ∧ g = nodeFds start k) ∨
    (∃ k, q = node k ++ [false] ∧ c.IsSimple ∧ cs[k]? = some c ∧ k + 1 < cs.length ∧
      g = Function.update (nodeFds start k) 1 (some (.write (node k))))
  | .forkIzq l r rd wr =>
    ∃ k, q = node k ∧ l.IsSimple ∧ r.RightNested ∧ l.leaves ++ r.leaves = cs.drop k ∧
      FdPair start k rd wr ∧ g = withBoth start k rd wr
  | .forkDer r rd wr =>
    ∃ k, q = node k ∧ r.RightNested ∧ r.leaves = cs.drop (k + 1) ∧ k + 1 < cs.length ∧
      FdPair start k rd wr ∧ g = withBoth start k rd wr
  | .closeRead rd wr =>
    ∃ k, q = node k ∧ k + 1 < cs.length ∧ FdPair start k rd wr ∧ g = withBoth start k rd wr
  | .closeWrite wr =>
    ∃ k, q = node k ∧ k + 1 < cs.length ∧ Free start k wr ∧ g = withWrite start k wr
  | .waitIzq => ∃ k, q = node k ∧ k + 1 < cs.length ∧ g = nodeFds start k
  | .waitDer => ∃ k, q = node k ∧ k + 1 < cs.length ∧ g = nodeFds start k
  | .izqClose c rd wr =>
    ∃ k, q = node k ++ [false] ∧ c.IsSimple ∧ cs[k]? = some c ∧ k + 1 < cs.length ∧
      FdPair start k rd wr ∧ g = withBoth start k rd wr
  | .izqDup c wr =>
    ∃ k, q = node k ++ [false] ∧ c.IsSimple ∧ cs[k]? = some c ∧ k + 1 < cs.length ∧
      Free start k wr ∧ g = withWrite start k wr
  | .izqLast c wr =>
    ∃ k, q = node k ++ [false] ∧ c.IsSimple ∧ cs[k]? = some c ∧ k + 1 < cs.length ∧
      Free start k wr ∧ g = Function.update (withWrite start k wr) 1 (some (.write (node k)))
  | .derClose c rd wr =>
    ∃ k, q = node (k + 1) ∧ c.RightNested ∧ c.leaves = cs.drop (k + 1) ∧
      FdPair start k rd wr ∧ g = withBoth start k rd wr
  | .derDup c rd =>
    ∃ k, q = node (k + 1) ∧ c.RightNested ∧ c.leaves = cs.drop (k + 1) ∧
      Free start k rd ∧ g = withRead start k rd
  | .derLast c rd =>
    ∃ k, q = node (k + 1) ∧ c.RightNested ∧ c.leaves = cs.drop (k + 1) ∧
      Free start k rd ∧ g = Function.update (withRead start k rd) 0 (some (.read (node k)))
  | .ended =>
    ((∃ k, q = node k ∧ k < cs.length) ∨ (∃ k, q = node k ++ [false] ∧ k + 1 < cs.length)) ∧
      g = fun _ => none

variable {start cs}

theorem leaves_of_simple {c : Cmd} (h : c.IsSimple) : c.leaves = [c] := by
  cases c with
  | null => cases h
  | exec addr e => rfl
  | back addr scmd c => rfl
  | pipe addr l r => cases h

theorem leaves_ne_nil {c : Cmd} (h : c.RightNested) : c.leaves ≠ [] := by
  cases c with
  | null => cases h
  | exec addr e => exact List.cons_ne_nil _ _
  | back addr scmd c => exact List.cons_ne_nil _ _
  | pipe addr l r =>
    intro hnil
    have hl := leaves_of_simple h.1
    rw [Cmd.leaves, hl] at hnil
    cases hnil

theorem lt_of_drop {l : List Cmd} {k : Nat} {cs : List Cmd} (hl : l ≠ []) (h : l = cs.drop k) :
    k < cs.length := by
  by_contra hle
  rw [List.drop_eq_nil_of_le (Nat.le_of_not_lt hle)] at h
  exact hl h

theorem drop_cons {c : Cmd} {l : List Cmd} {k : Nat} {cs : List Cmd} (h : c :: l = cs.drop k) :
    cs[k]? = some c ∧ l = cs.drop (k + 1) := by
  refine ⟨?_, ?_⟩
  · rw [← List.head?_drop, ← h, List.head?_cons]
  · rw [← List.drop_drop, ← h]
    rfl

/-- A command handed to `exec_cmd` at the end of the pipeline, or on its left. -/
theorem simple_last {c : Cmd} {k : Nat} (hs : c.IsSimple) (hl : c.leaves = cs.drop k) :
    cs[k]? = some c ∧ k + 1 = cs.length := by
  rw [leaves_of_simple hs] at hl
  obtain ⟨hget, hnil⟩ := drop_cons hl
  have hle := List.drop_eq_nil_iff.mp hnil.symm
  have hlt := (List.getElem?_eq_some_iff.mp hget).1
  exact ⟨hget, by omega⟩

theorem good_own (hopen : ∀ n, n < 3 → (start.get n).isSome = true) {q : Path} {pr pr' : Process}
    (hg : Good start cs q pr.fds.get pr.pc) (h : Own q pr pr') :
    Good start cs q pr'.fds.get pr'.pc := by
  cases h with
  | pipe addr l r t =>
    obtain ⟨k, rfl, hr, hl, ht⟩ | ⟨_, _, hs, _⟩ := hg
    · obtain ⟨hpair, hboth⟩ := pipe_fdPair hopen ht
      exact ⟨k, rfl, hr.1, hr.2, hl, hpair, hboth⟩
    · cases hs
  | exit c t hs =>
    refine ⟨?_, rfl⟩
    obtain ⟨k, rfl, _, hl, _⟩ | ⟨k, rfl, _, _, hk, _⟩ := hg
    · have hlast := (simple_last hs hl).2
      exact Or.inl ⟨k, rfl, by omega⟩
    · exact Or.inr ⟨k, rfl, hk⟩
  | closeRead rd wr t =>
    obtain ⟨k, rfl, hk, hp, ht⟩ := hg
    refine ⟨k, rfl, hk, hp.write_free, ?_⟩
    dsimp only at ht
    rw [close, get_put_eq, ht]
    exact update_first hp.ne hp.read_free.2 _ _
  | closeWrite wr t =>
    obtain ⟨k, rfl, hk, hw, ht⟩ := hg
    refine ⟨k, rfl, hk, ?_⟩
    dsimp only at ht
    rw [close, get_put_eq, ht]
    exact update_last hw.2 _
  | izqClose c rd wr t =>
    obtain ⟨k, rfl, hs, hc, hk, hp, ht⟩ := hg
    refine ⟨k, rfl, hs, hc, hk, hp.write_free, ?_⟩
    dsimp only at ht
    rw [close, get_put_eq, ht]
    exact update_first hp.ne hp.read_free.2 _ _
  | izqDup c wr t =>
    obtain ⟨k, rfl, hs, hc, hk, hw, ht⟩ := hg
    refine ⟨k, rfl, hs, hc, hk, hw, ?_⟩
    dsimp only at ht
    rw [dup, get_put_eq, ht, withWrite, Function.update_self]
  | izqLast c wr t =>
    obtain ⟨k, rfl, hs, hc, hk, hw, ht⟩ := hg
    refine Or.inr ⟨k, rfl, hs, hc, hk, ?_⟩
    dsimp only at ht
    rw [close, get_put_eq, ht]
    exact update_first (by have := hw.1; omega) hw.2 _ _
  | derClose c rd wr t =>
    obtain ⟨k, rfl, hr, hl, hp, ht⟩ := hg
    refine ⟨k, rfl, hr, hl, hp.read_free, ?_⟩
    dsimp only at ht
    rw [close, get_put_eq, ht]
    refine update_last ?_ _
    rw [withRead, Function.update_of_ne hp.ne.symm]
    exact hp.write_free.2
  | derDup c rd t =>
    obtain ⟨k, rfl, hr, hl, hw, ht⟩ := hg
    refine ⟨k, rfl, hr, hl, hw, ?_⟩
    dsimp only at ht
    rw [dup, get_put_eq, ht, withRead, Function.update_self]
  | derLast c rd t =>
    obtain ⟨k, rfl, hr, hl, hw, ht⟩ := hg
    refine Or.inl ⟨k + 1, rfl, hr, hl, ?_⟩
    dsimp only at ht
    rw [close, get_put_eq, ht, ← update_read_zero]
    exact update_first (by have := hw.1; omega) hw.2 _ _

/-! ## The invariant -/

/-- `pipe_command` is past the fork of the left child. -/
def Pc.AfterIzq : Pc → Prop
  | .forkDer _ _ _ => True
  | .closeRead _ _ => True
  | .closeWrite _ => True
  | .waitIzq => True
  | .waitDer => True
  | .ended => True
  | _ => False

/-- `pipe_command` is past the fork of the right child. -/
def Pc.AfterDer : Pc → Prop
  | .forkDer _ _ _ => False
  | pc => pc.AfterIzq

/-- Every process is at its place, and the children of the forks that are done are there. -/
structure Wiring (start : Slots Nat) (cs : List Cmd) (s : System) : Prop where
  good : ∀ q pr, s q = some pr → Good start cs q pr.fds.get pr.pc
  root : (s (node 0)).isSome = true
  izq : ∀ k pr, s (node k) = some pr → k + 1 < cs.length → pr.pc.AfterIzq →
    (s (node k ++ [false])).isSome = true
  der : ∀ k pr, s (node k) = some pr → k + 1 < cs.length → pr.pc.AfterDer →
    (s (node (k + 1))).isSome = true

theorem set_self (s : System) (q : Path) (pr : Process) : s.set q pr q = some pr :=
  Function.update_self _ _ _

theorem set_of_ne (s : System) {q q' : Path} (h : q' ≠ q) (pr : Process) : s.set q pr q' = s q' :=
  Function.update_of_ne h _ _

theorem set_isSome {s : System} {q : Path} (q' : Path) (pr : Process)
    (h : (s q).isSome = true) : (s.set q' pr q).isSome = true := by
  by_cases heq : q = q'
  · rw [heq, set_self]
    rfl
  · rw [set_of_ne s heq]
    exact h

/-- A process of a node that goes on by itself has not passed a fork. -/
theorem own_after {k : Nat} {pr pr' : Process} (hg : Good start cs (node k) pr.fds.get pr.pc)
    (h : Own (node k) pr pr') (hk : k + 1 < cs.length) :
    (pr'.pc.AfterIzq → pr.pc.AfterIzq) ∧ (pr'.pc.AfterDer → pr.pc.AfterDer) := by
  cases h with
  | exit c t hs =>
    obtain ⟨j, hj, _, hl, _⟩ | ⟨j, hj, _⟩ := hg
    · have hlast := (simple_last hs hl).2
      rw [node_injective hj] at hk
      omega
    · exact absurd hj (node_ne_izq k j)
  | pipe addr l r t => exact ⟨id, id⟩
  | closeRead rd wr t => exact ⟨id, id⟩
  | closeWrite wr t => exact ⟨id, id⟩
  | izqClose c rd wr t => exact ⟨id, id⟩
  | izqDup c wr t => exact ⟨id, id⟩
  | izqLast c wr t => exact ⟨id, id⟩
  | derClose c rd wr t => exact ⟨id, id⟩
  | derDup c rd t => exact ⟨id, id⟩
  | derLast c rd t => exact ⟨id, id⟩

/-- A process changes, and has passed no fork. -/
theorem Wiring.set {s : System} (hw : Wiring start cs s) {q : Path} {pr pr' : Process}
    (hq : s q = some pr) (hgood : Good start cs q pr'.fds.get pr'.pc)
    (hafter : ∀ k, q = node k → k + 1 < cs.length →
      (pr'.pc.AfterIzq → pr.pc.AfterIzq) ∧ (pr'.pc.AfterDer → pr.pc.AfterDer)) :
    Wiring start cs (s.set q pr') := by
  refine ⟨?_, set_isSome _ _ hw.root, ?_, ?_⟩
  · intro q' pr'' h
    by_cases heq : q' = q
    · subst heq
      rw [set_self] at h
      cases h
      exact hgood
    · rw [set_of_ne s heq] at h
      exact hw.good q' pr'' h
  · intro k pr'' h hk ha
    refine set_isSome _ _ ?_
    by_cases heq : node k = q
    · rw [heq, set_self] at h
      cases h
      exact hw.izq k pr (heq ▸ hq) hk ((hafter k heq.symm hk).1 ha)
    · rw [set_of_ne s heq] at h
      exact hw.izq k pr'' h hk ha
  · intro k pr'' h hk ha
    refine set_isSome _ _ ?_
    by_cases heq : node k = q
    · rw [heq, set_self] at h
      cases h
      exact hw.der k pr (heq ▸ hq) hk ((hafter k heq.symm hk).2 ha)
    · rw [set_of_ne s heq] at h
      exact hw.der k pr'' h hk ha

theorem Wiring.forkIzq {s : System} (hw : Wiring start cs s) {q : Path} {l r : Cmd} {rd wr : Nat}
    {t : Fds} (hq : s q = some ⟨.forkIzq l r rd wr, t⟩) :
    Wiring start cs
      ((s.set q ⟨.forkDer r rd wr, t⟩).set (q ++ [false]) ⟨.izqClose l rd wr, t⟩) := by
  obtain ⟨j, rfl, hl, hr, hcs, hp, ht⟩ := hw.good q _ hq
  rw [leaves_of_simple hl] at hcs
  obtain ⟨hget, hrest⟩ := drop_cons hcs
  have hlt := lt_of_drop (leaves_ne_nil hr) hrest
  refine ⟨?_, set_isSome _ _ (set_isSome _ _ hw.root), ?_, ?_⟩
  · intro q' pr h
    by_cases hc : q' = node j ++ [false]
    · rw [hc, set_self] at h
      cases h
      exact ⟨j, hc, hl, hget, hlt, hp, ht⟩
    · rw [set_of_ne _ hc] at h
      by_cases heq : q' = node j
      · rw [heq, set_self] at h
        cases h
        exact ⟨j, heq, hr, hrest, hlt, hp, ht⟩
      · rw [set_of_ne _ heq] at h
        exact hw.good q' pr h
  · intro k pr h hk ha
    rw [set_of_ne _ (node_ne_izq k j)] at h
    by_cases heq : k = j
    · rw [heq, set_self]
      rfl
    · rw [set_of_ne _ (fun hn => heq (node_injective hn))] at h
      exact set_isSome _ _ (set_isSome _ _ (hw.izq k pr h hk ha))
  · intro k pr h hk ha
    rw [set_of_ne _ (node_ne_izq k j)] at h
    by_cases heq : k = j
    · rw [heq, set_self] at h
      cases h
      cases ha
    · rw [set_of_ne _ (fun hn => heq (node_injective hn))] at h
      exact set_isSome _ _ (set_isSome _ _ (hw.der k pr h hk ha))

theorem Wiring.forkDer {s : System} (hw : Wiring start cs s) {q : Path} {r : Cmd} {rd wr : Nat}
    {t : Fds} (hq : s q = some ⟨.forkDer r rd wr, t⟩) :
    Wiring start cs
      ((s.set q ⟨.closeRead rd wr, t⟩).set (q ++ [true]) ⟨.derClose r rd wr, t⟩) := by
  obtain ⟨j, rfl, hr, hcs, hlt, hp, ht⟩ := hw.good q _ hq
  rw [node_succ]
  have hne : ∀ k, k ≠ j → node k ≠ node j := fun k hk hn => hk (node_injective hn)
  refine ⟨?_, set_isSome _ _ (set_isSome _ _ hw.root), ?_, ?_⟩
  · intro q' pr h
    by_cases hc : q' = node (j + 1)
    · rw [hc, set_self] at h
      cases h
      exact ⟨j, hc, hr, hcs, hp, ht⟩
    · rw [set_of_ne _ hc] at h
      by_cases heq : q' = node j
      · rw [heq, set_self] at h
        cases h
        exact ⟨j, heq, hlt, hp, ht⟩
      · rw [set_of_ne _ heq] at h
        exact hw.good q' pr h
  · intro k pr h hk ha
    refine set_isSome _ _ (set_isSome _ _ ?_)
    by_cases hc : k = j + 1
    · rw [hc, set_self] at h
      cases h
      cases ha
    · rw [set_of_ne _ (fun hn => hc (node_injective hn))] at h
      by_cases heq : k = j
      · rw [heq]
        exact hw.izq j _ hq hlt trivial
      · rw [set_of_ne _ (hne k heq)] at h
        exact hw.izq k pr h hk ha
  · intro k pr h hk ha
    by_cases hc : k = j + 1
    · rw [hc, set_self] at h
      cases h
      cases ha
    · rw [set_of_ne _ (fun hn => hc (node_injective hn))] at h
      by_cases heq : k = j
      · rw [heq, set_self]
        rfl
      · rw [set_of_ne _ (hne k heq)] at h
        exact set_isSome _ _ (set_isSome _ _ (hw.der k pr h hk ha))

/-- One step keeps the wiring. -/
theorem wiring_step (hopen : ∀ n, n < 3 → (start.get n).isSome = true) {s s' : System} {q : Path}
    (hw : Wiring start cs s) (h : System.Step s q s') : Wiring start cs s' := by
  cases h with
  | own pr pr' hq hown =>
    refine hw.set hq (good_own hopen (hw.good q pr hq) hown) ?_
    rintro k rfl hk
    exact own_after (hw.good _ pr hq) hown hk
  | forkIzq l r rd wr t hq => exact hw.forkIzq hq
  | forkDer r rd wr t hq => exact hw.forkDer hq
  | waitIzq t hq hend =>
    refine hw.set hq ?_ (fun _ _ _ => ⟨id, id⟩)
    obtain ⟨k, rfl, hk, ht⟩ := hw.good q _ hq
    exact ⟨k, rfl, hk, ht⟩
  | waitDer t hq hend =>
    refine hw.set hq ?_ (fun _ _ _ => ⟨id, id⟩)
    obtain ⟨k, rfl, hk, ht⟩ := hw.good q _ hq
    exact ⟨Or.inl ⟨k, rfl, by omega⟩, rfl⟩

theorem wiring_init {tree : Cmd} (hr : tree.RightNested) :
    Wiring start tree.leaves (.init tree start) := by
  refine ⟨?_, rfl, ?_, ?_⟩
  · intro q pr h
    unfold System.init at h
    split at h
    · rename_i hq
      cases h
      refine Or.inl ⟨0, hq, hr, rfl, ?_⟩
      funext n
      exact Slots.get_mapVal _ _ _
    · cases h
  · intro k pr h _ ha
    unfold System.init at h
    split at h
    · cases h
      cases ha
    · cases h
  · intro k pr h _ ha
    unfold System.init at h
    split at h
    · cases h
      cases ha
    · cases h

/-! ## The stages -/

theorem stage_node {n k : Nat} (h : k + 1 = n) : stage n k = node k := by
  rw [stage, if_neg (by omega)]

theorem stage_izq {n k : Nat} (h : k + 1 < n) : stage n k = node k ++ [false] := by
  rw [stage, if_pos h]

theorem wired_node {n k : Nat} {t : Fds} (hk : k + 1 = n) (ht : t.get = nodeFds start k) :
    Wired n k t := by
  refine ⟨by omega, ?_, ?_, ?_⟩
  · intro hpos
    cases k with
    | zero => omega
    | succ k =>
      rw [ht, nodeFds, Function.update_self]
      rfl
  · intro m p h
    rw [ht] at h
    exact nodeFds_read h
  · intro m p h
    rw [ht] at h
    exact absurd h (nodeFds_not_write k m p)

theorem wired_izq {n k : Nat} {t : Fds} (hk : k + 1 < n)
    (ht : t.get = Function.update (nodeFds start k) 1 (some (.write (node k)))) :
    Wired n k t := by
  refine ⟨?_, ?_, ?_, ?_⟩
  · intro _
    rw [ht, Function.update_self]
  · intro hpos
    cases k with
    | zero => omega
    | succ k =>
      rw [ht, Function.update_of_ne (by omega), nodeFds, Function.update_self]
      rfl
  · intro m p h
    rw [ht, Function.update_apply] at h
    split at h
    · cases h
    · exact nodeFds_read h
  · intro m p h
    rw [ht, Function.update_apply] at h
    split at h
    · rename_i hm
      exact ⟨hk, hm⟩
    · exact absurd h (nodeFds_not_write k m p)

/-- A process with a command that is no pipe at `exec_cmd` is a stage, and is wired. -/
theorem wired_of_exec {s : System} (hw : Wiring start cs s) {q : Path} {c : Cmd} {t : Fds}
    (hq : s q = some ⟨.execCmd c, t⟩) (hs : c.IsSimple) :
    ∃ i, q = stage cs.length i ∧ cs[i]? = some c ∧ Wired cs.length i t := by
  obtain ⟨k, rfl, _, hl, ht⟩ | ⟨k, rfl, _, hc, hk, ht⟩ := hw.good q _ hq
  · obtain ⟨hc, hk⟩ := simple_last hs hl
    exact ⟨k, (stage_node hk).symm, hc, wired_node hk ht⟩
  · exact ⟨k, (stage_izq hk).symm, hc, wired_izq hk ht⟩

theorem settled_cases {pc : Pc} (h : pc.Settled) :
    (∃ c, pc = .execCmd c ∧ c.IsSimple) ∨ pc = .waitIzq ∨ pc = .waitDer ∨ pc = .ended := by
  cases pc with
  | execCmd c => exact Or.inl ⟨c, rfl, h⟩
  | waitIzq => exact Or.inr (Or.inl rfl)
  | waitDer => exact Or.inr (Or.inr (Or.inl rfl))
  | ended => exact Or.inr (Or.inr (Or.inr rfl))
  | forkIzq l r rd wr => cases h
  | forkDer r rd wr => cases h
  | closeRead rd wr => cases h
  | closeWrite wr => cases h
  | izqClose c rd wr => cases h
  | izqDup c wr => cases h
  | izqLast c wr => cases h
  | derClose c rd wr => cases h
  | derDup c rd => cases h
  | derLast c rd => cases h

/-- A settled process with an end to write to is the stage before that pipe, at its command. -/
theorem stage_of_write {s : System} (hw : Wiring start cs s) {q : Path} {pr : Process}
    (hq : s q = some pr) (hset : pr.pc.Settled) {m : Nat} {p : Path}
    (hm : pr.fds.get m = some (.write p)) :
    ∃ k, k + 1 < cs.length ∧ q = node k ++ [false] ∧ p = node k ∧ pr.pc ≠ .ended := by
  obtain ⟨pc, t⟩ := pr
  have hg := hw.good q _ hq
  obtain ⟨c, rfl, hs⟩ | rfl | rfl | rfl := settled_cases hset
  · obtain ⟨k, rfl, _, _, ht⟩ | ⟨k, rfl, _, _, hk, ht⟩ := hg
    · rw [ht] at hm
      exact absurd hm (nodeFds_not_write k m p)
    · rw [ht, Function.update_apply] at hm
      split at hm
      · cases hm
        exact ⟨k, hk, rfl, rfl, Pc.noConfusion⟩
      · exact absurd hm (nodeFds_not_write k m p)
  · obtain ⟨k, _, _, ht⟩ := hg
    rw [ht] at hm
    exact absurd hm (nodeFds_not_write k m p)
  · obtain ⟨k, _, _, ht⟩ := hg
    rw [ht] at hm
    exact absurd hm (nodeFds_not_write k m p)
  · rw [hg.2] at hm
    cases hm

/-- A settled node that is not the last is past its forks. -/
theorem after_of_settled {s : System} (hw : Wiring start cs s) {k : Nat} {pr : Process}
    (hq : s (node k) = some pr) (hset : pr.pc.Settled) (hk : k + 1 < cs.length) :
    pr.pc.AfterIzq ∧ pr.pc.AfterDer := by
  obtain ⟨pc, t⟩ := pr
  obtain ⟨c, rfl, hs⟩ | rfl | rfl | rfl := settled_cases hset
  · obtain ⟨j, hj, _, hl, _⟩ | ⟨j, hj, _⟩ := hw.good _ _ hq
    · have hlast := (simple_last hs hl).2
      rw [node_injective hj] at hk
      omega
    · exact absurd hj (node_ne_izq k j)
  · exact ⟨trivial, trivial⟩
  · exact ⟨trivial, trivial⟩
  · exact ⟨trivial, trivial⟩

/-- By induction on the node: once every process is settled, every node is there. -/
theorem node_of_settled {s : System} (hw : Wiring start cs s) (hset : s.Settled) (k : Nat)
    (hk : k < cs.length) : (s (node k)).isSome = true := by
  induction k with
  | zero => exact hw.root
  | succ k ih =>
    obtain ⟨pr, hpr⟩ := Option.isSome_iff_exists.mp (ih (by omega))
    exact hw.der k pr hpr hk (after_of_settled hw hpr (hset _ pr hpr) hk).2

/-- The left child of a node: at its command with the end to write to, or ended. -/
theorem izq_of_settled {s : System} (hw : Wiring start cs s) (hset : s.Settled) {k : Nat}
    (hk : k + 1 < cs.length) :
    (∃ pr, s (node k ++ [false]) = some pr ∧ pr.fds.get 1 = some (.write (node k))) ∨
      s.Ended (node k ++ [false]) := by
  obtain ⟨nd, hnd⟩ := Option.isSome_iff_exists.mp (node_of_settled hw hset k (by omega))
  have hafter := (after_of_settled hw hnd (hset _ nd hnd) hk).1
  obtain ⟨⟨pc, t⟩, hpr⟩ := Option.isSome_iff_exists.mp (hw.izq k nd hnd hk hafter)
  have hg := hw.good _ _ hpr
  obtain ⟨c, rfl, hs⟩ | rfl | rfl | rfl := settled_cases (hset _ _ hpr)
  · obtain ⟨j, hj, _⟩ | ⟨j, hj, _, _, _, ht⟩ := hg
    · exact absurd hj.symm (node_ne_izq j k)
    · refine Or.inl ⟨_, hpr, ?_⟩
      rw [ht, izq_injective hj, Function.update_self]
  · obtain ⟨j, hj, _⟩ := hg
    exact absurd hj.symm (node_ne_izq j k)
  · obtain ⟨j, hj, _⟩ := hg
    exact absurd hj.symm (node_ne_izq j k)
  · exact Or.inr ⟨_, hpr, rfl⟩

def ls : Cmd := .exec 0 ⟨.EXEC, "ls".toList, ["ls".toList], [], [], [], []⟩
def wc : Cmd := .exec 1 ⟨.EXEC, "wc".toList, ["wc".toList], [], [], [], []⟩

/-- Descriptors 0, 1 and 2 of the shell, and with a pipe. -/
def terminal : Slots Nat := [some 0, some 1, some 2]
def terminalPipe : Fds := pipeBoth [] (terminal.mapVal .other)

/-- After the second `fork` of `ls | wc`. -/
def forked : System :=
  ((((System.init (.pipe 2 ls wc) terminal).set [] ⟨.forkIzq ls wc 3 4, terminalPipe⟩).set []
    ⟨.forkDer wc 3 4, terminalPipe⟩).set [false] ⟨.izqClose ls 3 4, terminalPipe⟩).set []
    ⟨.closeRead 3 4, terminalPipe⟩ |>.set [true] ⟨.derClose wc 3 4, terminalPipe⟩

theorem run_forked : Run System.Step (.init (.pipe 2 ls wc) terminal) [[], [], []] forked := by
  have hder := set_self ((System.init (.pipe 2 ls wc) terminal).set [] ⟨.forkIzq ls wc 3 4,
    terminalPipe⟩) [] ⟨.forkDer wc 3 4, terminalPipe⟩
  exact .cons (.own _ [] _ _ rfl (Own.pipe 2 ls wc _))
    (.cons (.forkIzq _ [] ls wc 3 4 terminalPipe (set_self _ _ _))
      (.cons (.forkDer _ [] wc 3 4 terminalPipe ((set_of_ne _ (by decide) _).trans hder))
        (.nil _)))

/-- Every process of `forked` is past its forks. -/
theorem forksDone_forked : forked.ForksDone := by
  intro q pr h
  unfold forked at h
  by_cases hder : q = [true]
  · rw [hder, set_self] at h
    cases h
    exact fun hf => hf trivial
  · rw [set_of_ne _ hder] at h
    by_cases hroot : q = []
    · rw [hroot, set_self] at h
      cases h
      exact id
    · rw [set_of_ne _ hroot] at h
      by_cases hizq : q = [false]
      · rw [hizq, set_self] at h
        cases h
        exact fun hf => hf trivial
      · rw [set_of_ne _ hizq, set_of_ne _ hroot, set_of_ne _ hroot, System.init, if_neg hroot] at h
        cases h

end SisOp.Shell
