/-
# `SisOp.User.PipeClosed` — a pipe looks closed only if it is

`_pipeisclosed` compares the counters of an `Fd` page and of the data page.  Each
mapping of an `Fd` page of a pipe comes with one of its data page, except in the
environment whose call of `pipe` is not done, and in a child that `fork` or `spawn`
has given the `Fd` page and not yet the data page, which is at a higher address.
`Settled` excludes the second; with it the counters are equal only if the other end is
mapped nowhere (`not_mapped_of_pipeisclosed`).
-/
import SisOp.User.Descriptors
import Mathlib.Tactic.FinCases

namespace SisOp.User

open SisOp.Lib SisOp.Jos

/-! ## Addresses -/

theorem fd2data_injective : Function.Injective fd2data := by
  intro a b h
  unfold fd2data fd2num at h
  bv_omega

theorem fdAlloc_none {m : AddrSpace} {i : Fin MAXFD} (h : fdAlloc m = some i) :
    m (fdVa i) = none := by
  have hnone := List.find?_some h
  simpa using hnone

theorem fdLookup_some {m : AddrSpace} {fdnum : Int} {i : Fin MAXFD}
    (h : fdLookup m fdnum = some i) : (i : Int) = fdnum ∧ (m (fdVa i)).isSome := by
  unfold fdLookup at h
  split at h
  · rename_i hrange
    split at h
    · rename_i hsome
      cases h
      exact ⟨Int.toNat_of_nonneg hrange.1, hsome⟩
    · cases h
  · cases h

/-- A number in range that is not open. -/
theorem fdLookup_none {m : AddrSpace} {i : Fin MAXFD} (h : fdLookup m i = none) :
    m (fdVa i) = none := by
  unfold fdLookup at h
  have hrange : 0 ≤ ((i : Nat) : Int) ∧ ((i : Nat) : Int).toNat < MAXFD := ⟨by omega, i.isLt⟩
  rw [dif_pos hrange] at h
  split at h
  · cases h
  · rename_i hnone
    simpa using hnone

/-! ## One address space -/

/-- The call of `pipe` that an environment is in. -/
def Pc.building : Pc → Option Nat
  | .pipe1 k _ => some k
  | .pipe2 k _ _ => some k
  | .pipe3 k _ _ => some k
  | .err3 k _ _ => some k
  | .err2 k _ _ => some k
  | .err1 k _ => some k
  | _ => none

/-- The child that an environment fills, and from which page on it has nothing yet. -/
def After.filling : After → Option (Slot × Vpn)
  | .spawn c => some (c, 0)
  | _ => none

def Pc.filling : Pc → Option (Slot × Vpn)
  | .close1 _ after => after.filling
  | .close2 _ after => after.filling
  | .close3 _ after => after.filling
  | .loading c _ => some (c, 0)
  | .sweep c n _ => some (c, n)
  | _ => none

/-- Every `Fd` page of a pipe other than `except` has the data page next to it. -/
def Covered (m : AddrSpace) (except : Option Nat) : Prop :=
  ∀ i k b, m (fdVa i) = some (.fd k b) → except ≠ some k → m (dataVa i) = some (.pipe k)

/-- The `Fd` pages of pipe `k` are at `i` only. -/
def FirstEnd (m : AddrSpace) (k : Nat) (i : Fin MAXFD) : Prop :=
  m (fdVa i) = some (.fd k false) ∧ ∀ j b, m (fdVa j) = some (.fd k b) → j = i

/-- Those of pipe `k` are at `i` and `j`. -/
def BothEnds (m : AddrSpace) (k : Nat) (i j : Fin MAXFD) : Prop :=
  m (fdVa i) = some (.fd k false) ∧ m (fdVa j) = some (.fd k true) ∧
    ∀ l b, m (fdVa l) = some (.fd k b) → l = i ∨ l = j

/-- `newfdnum` is in range and not open. -/
def Vacant (m : AddrSpace) (newfdnum : Int) : Prop :=
  ∃ j : Fin MAXFD, newfdnum = j ∧ m (fdVa j) = none

/-- The `close` of descriptor `i` is the one that what follows it needs. -/
def After.For (i : Fin MAXFD) : After → Prop
  | .dup _ newfdnum => newfdnum = i
  | _ => True

/-- What holds of the address space where a call is. -/
def Pc.At (m : AddrSpace) : Pc → Prop
  | .pipe1 k i => FirstEnd m k i
  | .pipe2 k i j => BothEnds m k i j
  | .pipe3 k i j => BothEnds m k i j ∧ m (dataVa i) = some (.pipe k)
  | .err3 k i j => BothEnds m k i j
  | .err2 k i j => BothEnds m k i j
  | .err1 k i => FirstEnd m k i
  | .close1 i after => after.For i
  | .close2 i after => after.For i ∧ m (fdVa i) = none
  | .close3 i after => after.For i
  | .dup1 _ newfdnum => Vacant m newfdnum
  | .dup2 old newfdnum => ∃ j : Fin MAXFD, newfdnum = j ∧ m (fdVa j) = none ∧
      ∀ k b, m (fdVa old) = some (.fd k b) → m (dataVa j) = some (.pipe k)
  | .dupErr1 newfdnum => Vacant m newfdnum
  | .dupErr2 newfdnum => Vacant m newfdnum
  | .sweep _ _ stop => UTOPPN - 1 ≤ stop
  | _ => True

/-- A page is where pages of its kind are. -/
def Page.Typed (va : Vpn) : Page → Prop
  | .fd _ _ => ∃ i, va = fdVa i
  | .pipe _ => ∃ i, va = dataVa i
  | .file _ => ∃ i, va = fdVa i

/-- One page is at most once at each of the 32 numbers. -/
theorem Page.Typed.eq_of_mod {p : Page} {a b : Vpn} (ha : p.Typed a) (hb : p.Typed b)
    (h : a.toNat % 32 = b.toNat % 32) : a = b := by
  have hfd : ∀ i j : Fin MAXFD, (fdVa i).toNat % 32 = (fdVa j).toNat % 32 → fdVa i = fdVa j := by
    intro i j hij
    have hi : i.val < 32 := i.isLt
    have hj : j.val < 32 := j.isLt
    rw [toNat_fdVa, toNat_fdVa] at hij
    exact fdVa_inj.mpr (Fin.ext (by omega))
  cases p with
  | pipe k =>
      obtain ⟨i, rfl⟩ := ha
      obtain ⟨j, rfl⟩ := hb
      have hi : i.val < 32 := i.isLt
      have hj : j.val < 32 := j.isLt
      rw [toNat_dataVa, toNat_dataVa] at h
      exact dataVa_inj.mpr (Fin.ext (by omega))
  | fd k wr =>
      obtain ⟨i, rfl⟩ := ha
      obtain ⟨j, rfl⟩ := hb
      exact hfd i j h
  | file k =>
      obtain ⟨i, rfl⟩ := ha
      obtain ⟨j, rfl⟩ := hb
      exact hfd i j h

/-- What is known of one address space and the call in it. -/
structure Good (m : AddrSpace) (pc : Pc) : Prop where
  typed : ∀ va p, m va = some p → p.Typed va
  covered : Covered m pc.building
  here : pc.At m

/-! ## What a change of one page does -/

section

variable {m : AddrSpace} {pc pc' : Pc} {k : Nat} {i j : Fin MAXFD} {except : Option Nat}

@[simp] theorem update_fd_fd (x : Option Page) :
    Function.update m (fdVa i) x (fdVa j) = if j = i then x else m (fdVa j) := by
  simp [Function.update_apply, fdVa_inj]

@[simp] theorem update_fd_data (x : Option Page) :
    Function.update m (fdVa i) x (dataVa j) = m (dataVa j) :=
  Function.update_of_ne (fdVa_ne_dataVa i j).symm ..

@[simp] theorem update_data_fd (x : Option Page) :
    Function.update m (dataVa i) x (fdVa j) = m (fdVa j) :=
  Function.update_of_ne (fdVa_ne_dataVa j i) ..

@[simp] theorem update_data_data (x : Option Page) :
    Function.update m (dataVa i) x (dataVa j) = if j = i then x else m (dataVa j) := by
  simp [Function.update_apply, dataVa_inj]

theorem typed_update {va : Vpn} {x : Option Page} (h : ∀ va p, m va = some p → p.Typed va)
    (hx : ∀ p, x = some p → p.Typed va) (a : Vpn) (p : Page)
    (ha : Function.update m va x a = some p) : p.Typed a := by
  rcases eq_or_ne a va with rfl | hne
  · rw [Function.update_self] at ha
    exact hx p ha
  · rw [Function.update_of_ne hne] at ha
    exact h a p ha

theorem Covered.leaveOut (h : Covered m none) (except : Option Nat) : Covered m except :=
  fun i k b hfd _ => h i k b hfd (by simp)

/-- The pipe that was left out has its data pages too. -/
theorem Covered.done (h : Covered m (some k))
    (hk : ∀ i b, m (fdVa i) = some (.fd k b) → m (dataVa i) = some (.pipe k)) : Covered m none := by
  intro i k' b hfd _
  rcases eq_or_ne k' k with rfl | hne
  · exact hk i b hfd
  · exact h i k' b hfd (by simp [hne.symm])

theorem Covered.setFd (h : Covered m except) {x : Option Page}
    (hx : ∀ k b, x = some (.fd k b) → except ≠ some k → m (dataVa i) = some (.pipe k)) :
    Covered (Function.update m (fdVa i) x) except := by
  intro l k b hfd hk
  rw [update_fd_fd] at hfd
  rw [update_fd_data]
  split at hfd
  · rename_i heq
    exact heq ▸ hx k b hfd hk
  · exact h l k b hfd hk

theorem Covered.setData (h : Covered m except) {x : Option Page}
    (hx : ∀ k b, m (fdVa i) = some (.fd k b) → except ≠ some k → x = some (.pipe k)) :
    Covered (Function.update m (dataVa i) x) except := by
  intro l k b hfd hk
  rw [update_data_fd] at hfd
  rw [update_data_data]
  split
  · rename_i heq
    exact hx k b (heq ▸ hfd) hk
  · exact h l k b hfd hk

/-- `fd_close` and `close` from where no pipe is being made. -/
theorem Good.close {fdnum : Int} {after : After} (htyped : ∀ va p, m va = some p → p.Typed va)
    (hcov : Covered m none) (hfor : ∀ i : Fin MAXFD, (i : Int) = fdnum → after.For i)
    (hnone : fdLookup m fdnum = none → after.pc.At m) : Good m (close m fdnum after) := by
  unfold User.close
  rcases hlook : fdLookup m fdnum with _ | i
  · refine ⟨htyped, hcov.leaveOut _, hnone hlook⟩
  · have hi := hfor i (fdLookup_some hlook).1
    simp only [fdClose]
    split
    · exact ⟨htyped, hcov.leaveOut _, hi⟩
    · exact ⟨htyped, hcov.leaveOut _, hi⟩

/-- `dup` in range, after the `close` of its target. -/
theorem vacant_of_lookup {newfdnum : Int} (hrange : 0 ≤ newfdnum ∧ newfdnum < MAXFD)
    (h : fdLookup m newfdnum = none) : Vacant m newfdnum := by
  obtain ⟨n, rfl⟩ := Int.eq_ofNat_of_zero_le hrange.1
  have hn : n < MAXFD := by omega
  exact ⟨⟨n, hn⟩, rfl, fdLookup_none (i := ⟨n, hn⟩) h⟩

theorem After.at_pc {after : After} (hfor : after.For i) (hnone : m (fdVa i) = none) :
    after.pc.At m := by
  cases after with
  | ret => trivial
  | dup old newfdnum => exact ⟨i, hfor, hnone⟩
  | closeAll n => trivial
  | spawn c => exact show UTOPPN - 1 ≤ UTOPPN by decide

theorem After.building_pc (after : After) : after.pc.building = none := by
  cases after <;> rfl

end

/-! ## Local steps -/

/-- The address space after a change. -/
def AddrSpace.change (m : AddrSpace) : Option (Vpn × Option Page) → AddrSpace
  | none => m
  | some (va, x) => Function.update m va x

section

variable {m : AddrSpace} {next k : Nat} {i j : Fin MAXFD}

/-- `pipe` maps its first page. -/
theorem Good.pipeFd0 (h : Good m .idle) (hnew : ∀ va p, m va = some p → p.call < next) :
    Good (Function.update m (fdVa i) (some (.fd next false))) (.pipe1 next i) where
  typed := typed_update h.typed fun p hp => by
    cases hp
    exact ⟨i, rfl⟩
  covered := (h.covered.leaveOut _).setFd fun k b hp hne => by
    cases hp
    exact absurd rfl hne
  here := by
    refine ⟨by simp, fun l b hl => ?_⟩
    rw [update_fd_fd] at hl
    split at hl
    · assumption
    · exact absurd (hnew _ _ hl) (lt_irrefl _)

theorem Good.pipeFd1 (h : Good m (.pipe1 k i)) (halloc : fdAlloc m = some j) :
    Good (Function.update m (fdVa j) (some (.fd k true))) (.pipe2 k i j) where
  typed := typed_update h.typed fun p hp => by
    cases hp
    exact ⟨j, rfl⟩
  covered := h.covered.setFd fun k b hp hne => by
    cases hp
    exact absurd rfl hne
  here := by
    obtain ⟨hfst, honly⟩ := h.here
    have hji : i ≠ j := fun heq => by
      have hnone := fdAlloc_none halloc
      rw [← heq, hfst] at hnone
      cases hnone
    refine ⟨by simp [hji, hfst], by simp, fun l b hl => ?_⟩
    rw [update_fd_fd] at hl
    split at hl
    · exact .inr ‹_›
    · exact .inl (honly l b hl)

theorem Good.pipeData (h : Good m (.pipe2 k i j)) :
    Good (Function.update m (dataVa i) (some (.pipe k))) (.pipe3 k i j) where
  typed := typed_update h.typed fun p hp => by
    cases hp
    exact ⟨i, rfl⟩
  covered := h.covered.setData fun k' b hfd hne => by
    rw [h.here.1] at hfd
    cases hfd
    rfl
  here := by
    obtain ⟨hfst, hsnd, honly⟩ := h.here
    exact ⟨⟨by simp [hfst], by simp [hsnd], fun l b hl => honly l b (by simpa using hl)⟩, by simp⟩

/-- Its last page: now every `Fd` page of the pipe has the data page. -/
theorem Good.pipeMap {p : Page} (h : Good m (.pipe3 k i j)) (hp : m (dataVa i) = some p) :
    Good (Function.update m (dataVa j) (some p)) .idle := by
  obtain ⟨⟨hfst, hsnd, honly⟩, hdata⟩ := h.here
  have hpipe : p = .pipe k := Option.some.inj (hp.symm.trans hdata)
  subst hpipe
  have hcov : Covered (Function.update m (dataVa j) (some (.pipe k))) (some k) :=
    h.covered.setData fun k' b hfd hne => by
      rw [hsnd] at hfd
      cases hfd
      rfl
  refine ⟨typed_update h.typed fun q hq => ?_, hcov.done fun l b hl => ?_, trivial⟩
  · cases hq
    exact ⟨j, rfl⟩
  · rw [update_data_fd] at hl
    rw [update_data_data]
    split
    · rfl
    · rcases honly l b hl with rfl | rfl
      · exact hdata
      · exact absurd rfl ‹_›

theorem Good.err3 (h : Good m (.err3 k i j)) :
    Good (Function.update m (dataVa i) none) (.err2 k i j) where
  typed := typed_update h.typed fun p hp => by cases hp
  covered := h.covered.setData fun k' b hfd hne => by
    rw [h.here.1] at hfd
    cases hfd
    exact absurd rfl hne
  here := by
    obtain ⟨hfst, hsnd, honly⟩ := h.here
    exact ⟨by simp [hfst], by simp [hsnd], fun l b hl => honly l b (by simpa using hl)⟩

theorem Good.err2 (h : Good m (.err2 k i j)) :
    Good (Function.update m (fdVa j) none) (.err1 k i) where
  typed := typed_update h.typed fun p hp => by cases hp
  covered := h.covered.setFd fun k b hp _ => by cases hp
  here := by
    obtain ⟨hfst, hsnd, honly⟩ := h.here
    have hij : i ≠ j := fun heq => by
      rw [heq, hsnd] at hfst
      cases hfst
    refine ⟨by simp [hij, hfst], fun l b hl => ?_⟩
    rw [update_fd_fd] at hl
    split at hl
    · cases hl
    · exact (honly l b hl).resolve_right ‹_›

theorem Good.err1 (h : Good m (.err1 k i)) : Good (Function.update m (fdVa i) none) .idle where
  typed := typed_update h.typed fun p hp => by cases hp
  covered := (h.covered.setFd fun k b hp _ => by cases hp).done fun l b hl => by
    rw [update_fd_fd] at hl
    split at hl
    · cases hl
    · exact absurd (h.here.2 l b hl) ‹_›
  here := trivial

/-- `dup` maps the data page of the new descriptor, which is not open. -/
theorem Good.dupData {old : Fin MAXFD} {newfdnum : Int} {p : Page}
    (h : Good m (.dup1 old newfdnum)) (hp : m (dataVa old) = some p) :
    Good (Function.update m (fd2data (INDEX2FD newfdnum)) (some p)) (.dup2 old newfdnum) := by
  obtain ⟨j, rfl, hnone⟩ := h.here
  refine ⟨typed_update h.typed fun q hq => ?_, h.covered.setData fun k b hfd _ => ?_, j, rfl, ?_,
    fun k b hfd => ?_⟩
  · cases hq
    have htyped := h.typed _ _ hp
    cases p with
    | pipe k => exact ⟨j, rfl⟩
    | fd k b =>
        obtain ⟨l, hl⟩ := htyped
        exact absurd hl.symm (fdVa_ne_dataVa l old)
    | file k =>
        obtain ⟨l, hl⟩ := htyped
        exact absurd hl.symm (fdVa_ne_dataVa l old)
  · rw [hnone] at hfd
    cases hfd
  · exact (update_data_fd _).trans hnone
  · have hfd' : m (fdVa old) = some (.fd k b) := (update_data_fd (i := j) _).symm.trans hfd
    have hdata := h.covered old k b hfd' (by simp [Pc.building])
    rw [hp] at hdata
    exact (update_data_data (i := j) _).trans (by simp [hdata])

theorem Good.dupFd {old : Fin MAXFD} {newfdnum : Int} {p : Page}
    (h : Good m (.dup2 old newfdnum)) (hp : m (fdVa old) = some p) :
    Good (Function.update m (INDEX2FD newfdnum) (some p)) .idle := by
  obtain ⟨j, rfl, -, hdata⟩ := h.here
  refine ⟨typed_update h.typed fun q hq => ?_, h.covered.setFd fun k b hq _ => ?_, trivial⟩
  · cases hq
    have htyped := h.typed _ _ hp
    cases p with
    | pipe k =>
        obtain ⟨l, hl⟩ := htyped
        exact absurd hl (fdVa_ne_dataVa old l)
    | fd k b => exact ⟨j, rfl⟩
    | file k => exact ⟨j, rfl⟩
  · cases hq
    exact hdata k b hp

/-- Every local step of a `dup` in range keeps what is known of the address space. -/
theorem Good.local {next : Nat} {pc pc' : Pc} {ev : Event} {c : Option (Vpn × Option Page)}
    (h : Good m pc) (hnew : ∀ va p, m va = some p → p.call < next)
    (hguard : ∀ newfdnum, ev = .dup newfdnum → 0 ≤ newfdnum ∧ newfdnum < MAXFD)
    (hl : Local m next pc ev c pc') : Good (m.change c) pc' := by
  cases hl with
  | nothing => exact h
  | pipeFd0 i halloc => exact h.pipeFd0 hnew
  | pipe1Fail k i => exact ⟨h.typed, h.covered, h.here⟩
  | pipeFd1 k i j halloc => exact h.pipeFd1 halloc
  | pipe2Fail k i j => exact ⟨h.typed, h.covered, h.here⟩
  | pipeData k i j => exact h.pipeData
  | pipe3Fail k i j => exact ⟨h.typed, h.covered, h.here.1⟩
  | pipeMap k i j p hp => exact h.pipeMap hp
  | err3 k i j => exact h.err3
  | err2 k i j => exact h.err2
  | err1 k i => exact h.err1
  | closeFd fdnum => exact .close h.typed h.covered (fun i _ => trivial) fun _ => trivial
  | close1 i after =>
      exact ⟨typed_update h.typed fun p hp => (by cases hp),
        h.covered.setFd fun k b hp _ => (by cases hp), h.here, Function.update_self ..⟩
  | close2 i after =>
      refine ⟨typed_update h.typed fun p hp => (by cases hp),
        h.covered.setData fun k b hfd _ => ?_, h.here.1⟩
      rw [h.here.2] at hfd
      cases hfd
  | close3 i after =>
      have hnone : Function.update m (fdVa i) none (fdVa i) = none := Function.update_self ..
      refine ⟨typed_update h.typed fun p hp => (by cases hp), ?_, After.at_pc h.here hnone⟩
      rw [After.building_pc]
      exact h.covered.setFd fun k b hp _ => by cases hp
  | dup oldfdnum newfdnum old _ =>
      have hrange := hguard newfdnum rfl
      exact .close h.typed h.covered (fun i hi => hi.symm) (vacant_of_lookup hrange)
  | dupData old newfdnum p hp _ => exact h.dupData hp
  | dupNoData old newfdnum hnone =>
      obtain ⟨j, hj, hfd⟩ := h.here
      refine ⟨h.typed, h.covered, j, hj, hfd, fun k b hold => ?_⟩
      have hcov : Covered m none := h.covered
      have hdata := hcov old k b hold (by simp)
      rw [hnone] at hdata
      cases hdata
  | dup1Fail old newfdnum _ => exact ⟨h.typed, h.covered, h.here⟩
  | dupFd old newfdnum p hp _ => exact h.dupFd hp
  | dup2Fail old newfdnum =>
      obtain ⟨j, hj, hfd, -⟩ := h.here
      exact ⟨h.typed, h.covered, j, hj, hfd⟩
  | dupErr1 newfdnum =>
      obtain ⟨j, rfl, hfd⟩ := h.here
      exact ⟨typed_update h.typed fun p hp => (by cases hp),
        h.covered.setFd (i := j) fun k b hp _ => (by cases hp), j, rfl, Function.update_self ..⟩
  | dupErr2 newfdnum =>
      obtain ⟨j, rfl, hfd⟩ := h.here
      refine ⟨typed_update h.typed fun p hp => (by cases hp),
        h.covered.setData (i := j) fun k b hp _ => ?_, trivial⟩
      rw [hfd] at hp
      cases hp
  | exit => exact ⟨h.typed, h.covered, trivial⟩
  | closeAll n _ => exact .close h.typed h.covered (fun i _ => trivial) fun _ => trivial
  | spawnOpen i halloc =>
      refine ⟨typed_update h.typed fun p hp => ?_, h.covered.setFd fun k b hp _ => ?_, trivial⟩
      · cases hp
        exact ⟨i, rfl⟩
      · cases hp
  | spawnClose i => exact .close h.typed h.covered (fun i _ => trivial) fun _ => trivial
  | spawnFail i => exact ⟨h.typed, h.covered, trivial⟩
  | loadFail child i => exact ⟨h.typed, h.covered, trivial⟩
  | loaded child i =>
      refine .close h.typed h.covered (fun i _ => trivial) fun _ => ?_
      exact show UTOPPN - 1 ≤ UTOPPN by decide
  | sweepFail child n stop => exact ⟨h.typed, h.covered, trivial⟩

end

/-- Where a mapped page comes from. -/
theorem Local.source {m : AddrSpace} {next : Nat} {pc pc' : Pc} {ev : Event} {va : Vpn} {p : Page}
    (hl : Local m next pc ev (some (va, some p)) pc') :
    p.call = next ∨ (∃ a, m a = some p) ∨ pc.building = some p.call := by
  cases hl with
  | pipeFd0 i _ => exact .inl rfl
  | pipeFd1 k i j _ => exact .inr (.inr rfl)
  | pipeData k i j => exact .inr (.inr rfl)
  | pipeMap k i j _ hp => exact .inr (.inl ⟨_, hp⟩)
  | dupData old newfdnum _ hp _ => exact .inr (.inl ⟨_, hp⟩)
  | dupFd old newfdnum _ hp _ => exact .inr (.inl ⟨_, hp⟩)
  | spawnOpen i _ => exact .inl rfl

theorem close_building {m : AddrSpace} {fdnum : Int} {after : After} :
    (close m fdnum after).building = none := by
  unfold User.close fdClose
  split
  · exact after.building_pc
  · split <;> rfl

theorem close_filling {m : AddrSpace} {fdnum : Int} {after : After} :
    (close m fdnum after).filling = after.filling := by
  unfold User.close fdClose
  split
  · cases after <;> rfl
  · split <;> rfl

theorem Local.building {m : AddrSpace} {next k : Nat} {pc pc' : Pc} {ev : Event}
    {c : Option (Vpn × Option Page)} (hl : Local m next pc ev c pc') (hk : pc'.building = some k) :
    pc.building = some k ∨ k = next := by
  have hclose : ∀ {fdnum after}, (close m fdnum after).building ≠ some k := by
    intro fdnum after h
    rw [close_building] at h
    cases h
  cases hl with
  | pipeFd0 i _ => exact .inr (Option.some.inj hk).symm
  | closeFd _ => exact absurd hk hclose
  | dup _ _ _ _ => exact absurd hk hclose
  | closeAll _ _ => exact absurd hk hclose
  | spawnClose _ => exact absurd hk hclose
  | loaded _ _ => exact absurd hk hclose
  | close3 _ after =>
      rw [after.building_pc] at hk
      cases hk
  | pipeMap _ _ _ _ _ => cases hk
  | err1 _ _ => cases hk
  | _ => exact .inl hk

/-- A local step keeps the child, and only a loop has given it pages. -/
theorem Local.filling {m : AddrSpace} {next : Nat} {pc pc' : Pc} {ev : Event}
    {c : Option (Vpn × Option Page)} (hl : Local m next pc ev c pc') :
    pc'.filling = none ∨
      pc'.filling = pc.filling ∧ ∀ child n, pc.filling = some (child, n) → n = 0 := by
  have hzero : ∀ (after : After) child n, after.filling = some (child, n) → n = 0 := by
    intro after child n h
    cases after with
    | spawn _ =>
        cases h
        rfl
    | _ => cases h
  cases hl with
  | closeFd _ => exact .inl close_filling
  | dup _ _ _ _ => exact .inl close_filling
  | closeAll _ _ => exact .inl close_filling
  | spawnClose _ => exact .inl close_filling
  | loaded child _ => exact .inr ⟨close_filling, hzero (.spawn child)⟩
  | close1 _ after => exact .inr ⟨rfl, hzero after⟩
  | close2 _ after => exact .inr ⟨rfl, hzero after⟩
  | close3 _ after => exact .inr ⟨by cases after <;> rfl, hzero after⟩
  | _ => exact .inl rfl

/-- Whoever makes a pipe has its first end mapped. -/
theorem Good.building_mapped {m : AddrSpace} {pc : Pc} {k : Nat} (h : Good m pc)
    (hk : pc.building = some k) : ∃ va b, m va = some (.fd k b) := by
  have hhere := h.here
  cases pc with
  | pipe1 k' i =>
      cases hk
      exact ⟨_, _, hhere.1⟩
  | pipe2 k' i j =>
      cases hk
      exact ⟨_, _, hhere.1⟩
  | pipe3 k' i j =>
      cases hk
      exact ⟨_, _, hhere.1.1⟩
  | err3 k' i j =>
      cases hk
      exact ⟨_, _, hhere.1⟩
  | err2 k' i j =>
      cases hk
      exact ⟨_, _, hhere.1⟩
  | err1 k' i =>
      cases hk
      exact ⟨_, _, hhere.1⟩
  | _ => cases hk

/-! ## The whole system -/

namespace World

/-- All page table entries. -/
def slots (w : World) : Slot × Vpn → Option Page := fun r => w.map r.1 r.2

structure Inv (w : World) : Prop where
  counted : ∀ p, w.ppRef p = BitVec.ofNat 16 (refs w.slots p)
  old : ∀ e va p, w.map e va = some p → p.call < w.next
  typed : ∀ e va p, w.map e va = some p → p.Typed va
  free : ∀ e, (w.procs e).status = .free → w.map e = fun _ => none
  good : ∀ e pc, (w.procs e).status = .run pc → Good (w.map e) pc
  /-- Nobody else has a page of the pipe that `e` is making. -/
  alone : ∀ e pc k, (w.procs e).status = .run pc → pc.building = some k → k < w.next ∧
    ∀ e' va b, e' ≠ e → w.map e' va ≠ some (.fd k b)
  /-- The child has what its parent has, up to where the loop is. -/
  filled : ∀ e pc c n, (w.procs e).status = .run pc → pc.filling = some (c, n) →
    (w.procs c).status = .embryo e ∧ ∀ va, w.map c va = if va < n then w.map e va else none

theorem inv_init (live : Slot → Bool) : Inv (init live) where
  counted p := by
    have hnone : (init live).slots = fun _ => none := rfl
    rw [hnone, refs_none]
    rfl
  old e va p h := by cases h
  typed e va p h := by cases h
  free e _ := rfl
  good e pc h := by
    refine ⟨fun va p hp => (by cases hp), fun i k b hp => (by cases hp), ?_⟩
    simp only [init] at h
    split at h
    · cases h
      trivial
    · cases h
  alone e pc k h hk := by
    simp only [init] at h
    split at h
    · cases h
      cases hk
    · cases h
  filled e pc c n h hc := by
    simp only [init] at h
    split at h
    · cases h
      cases hc
    · cases h

section

variable {w : World} {e c f : Slot} {va : Vpn} {x : Option Page} {pc : Pc}

@[simp] theorem goto_map : (w.goto e pc).map f = w.map f := by
  unfold goto map
  rcases eq_or_ne f e with rfl | hne
  · simp
  · simp [hne]

theorem goto_status_self : ((w.goto e pc).procs e).status = .run pc := by simp [goto]

theorem goto_status_of_ne (h : f ≠ e) : ((w.goto e pc).procs f).status = (w.procs f).status := by
  simp [goto, h]

theorem setPte_map_self : (w.setPte e va x).map e = Function.update (w.map e) va x := by
  simp [setPte, map]

theorem setPte_map_of_ne (h : f ≠ e) : (w.setPte e va x).map f = w.map f := by
  simp [setPte, map, h]

@[simp] theorem setPte_status : ((w.setPte e va x).procs f).status = (w.procs f).status := by
  rcases eq_or_ne f e with rfl | hne
  · simp [setPte]
  · simp [setPte, hne]

theorem exofork_map_of_ne (h : f ≠ c) : (w.exofork e c).map f = w.map f := by
  simp [exofork, map, h]

theorem exofork_status_of_ne (h : f ≠ c) :
    ((w.exofork e c).procs f).status = (w.procs f).status := by simp [exofork, h]

theorem envFree_map_of_ne (h : f ≠ e) : (w.envFree e).map f = w.map f := by
  simp [envFree, map, h]

theorem envFree_status_of_ne (h : f ≠ e) :
    ((w.envFree e).procs f).status = (w.procs f).status := by simp [envFree, h]

/-- The counters after a change of one entry. -/
theorem counted_setPte (h : ∀ p, w.ppRef p = BitVec.ofNat 16 (refs w.slots p)) (p : Page) :
    (w.setPte e va x).ppRef p = BitVec.ofNat 16 (refs (w.setPte e va x).slots p) := by
  have hslots : (w.setPte e va x).slots = Function.update w.slots (e, va) x := by
    funext ⟨f, a⟩
    by_cases hf : f = e
    · subst hf
      by_cases ha : a = va <;> simp [slots, setPte_map_self, ha]
    · simp [slots, setPte_map_of_ne hf, hf]
  have hrefs := refs_update w.slots (e, va) x p
  rw [← hslots] at hrefs
  have hold : w.slots (e, va) = w.map e va := rfl
  rw [hold] at hrefs
  have hcast := congrArg (BitVec.ofNat 16) hrefs
  rw [BitVec.ofNat_add, BitVec.ofNat_add, ← h p, apply_ite (BitVec.ofNat 16),
    apply_ite (BitVec.ofNat 16)] at hcast
  exact (congrArg (· - _) hcast.symm).trans (BitVec.add_sub_cancel _ _)

/-- Those after an address space is given up. -/
theorem counted_envFree (h : ∀ p, w.ppRef p = BitVec.ofNat 16 (refs w.slots p)) (p : Page) :
    (w.envFree e).ppRef p = BitVec.ofNat 16 (refs (w.envFree e).slots p) := by
  have hslots : (w.envFree e).slots = fun r => if r.1 = e then none else w.slots r := by
    funext ⟨f, a⟩
    by_cases hf : f = e
    · subst hf
      simp [slots, envFree, map]
    · simp [slots, envFree_map_of_ne hf, hf]
  have hrow := refs_row w.slots e p
  rw [← hslots] at hrow
  change w.ppRef p - BitVec.ofNat 16 (refs (w.map e) p) = _
  have hmap : (fun a => w.slots (e, a)) = w.map e := rfl
  rw [h p, hrow, hmap, BitVec.ofNat_add]
  bv_omega

/-! ## Every step keeps the invariant -/

/-- A step that concerns one address space. -/
theorem Inv.local {pc' : Pc} {ev : Event} {ch : Option (Vpn × Option Page)} (h : Inv w)
    (hpc : (w.procs e).status = .run pc)
    (hguard : ∀ newfdnum, ev = .dup newfdnum → 0 ≤ newfdnum ∧ newfdnum < MAXFD)
    (hl : Local (w.map e) w.next pc ev ch pc') :
    Inv { (w.change e ch).goto e pc' with next := w.next + 1 } := by
  set w' : World := { (w.change e ch).goto e pc' with next := w.next + 1 } with hw'
  have hself : w'.map e = (w.map e).change ch := by
    refine (goto_map (w := w.change e ch)).trans ?_
    rcases ch with _ | ⟨va, x⟩
    · rfl
    · exact setPte_map_self
  have hmap : ∀ f, f ≠ e → w'.map f = w.map f := by
    intro f hf
    refine (goto_map (w := w.change e ch)).trans ?_
    rcases ch with _ | ⟨va, x⟩
    · rfl
    · exact setPte_map_of_ne hf
  have hstat : ∀ f, f ≠ e → (w'.procs f).status = (w.procs f).status := by
    intro f hf
    refine (goto_status_of_ne (w := w.change e ch) hf).trans ?_
    rcases ch with _ | ⟨va, x⟩
    · rfl
    · exact setPte_status
  have hrun : (w'.procs e).status = .run pc' := goto_status_self (w := w.change e ch)
  have hgood := (h.good e pc hpc).local (h.old e) hguard hl
  -- a page that is mapped now was there before, is new, or is one of the pipe being made
  have hpage : ∀ va p, w'.map e va = some p →
      (∃ a, w.map e a = some p) ∨ p.call = w.next ∨ pc.building = some p.call := by
    intro va p hp
    rw [hself] at hp
    rcases ch with _ | ⟨a, x⟩
    · exact .inl ⟨va, hp⟩
    · change Function.update (w.map e) a x va = some p at hp
      rcases eq_or_ne va a with rfl | hne
      · rw [Function.update_self] at hp
        subst hp
        rcases hl.source with hnew | hold | hbuild
        · exact .inr (.inl hnew)
        · exact .inl hold
        · exact .inr (.inr hbuild)
      · rw [Function.update_of_ne hne] at hp
        exact .inl ⟨va, hp⟩
  refine ⟨fun p => ?_, fun f va p hp => ?_, fun f va p hp => ?_, fun f hf => ?_,
    fun f q hq => ?_, fun f q k hq hk => ?_, fun f q c n hq hc => ?_⟩
  · have hslots : w'.slots = (w.change e ch).slots := by
      funext r
      exact congrFun (goto_map (w := w.change e ch)) r.2
    rw [hslots]
    rcases ch with _ | ⟨va, x⟩
    · exact h.counted p
    · exact counted_setPte h.counted p
  · by_cases hf : f = e
    · subst hf
      rcases hpage va p hp with ⟨a, ha⟩ | hnew | hbuild
      · exact Nat.lt_succ_of_lt (h.old f a p ha)
      · exact hnew ▸ Nat.lt_succ_self _
      · exact Nat.lt_succ_of_lt (h.alone f pc p.call hpc hbuild).1
    · rw [hmap f hf] at hp
      exact Nat.lt_succ_of_lt (h.old f va p hp)
  · by_cases hf : f = e
    · subst hf
      rw [hself] at hp
      exact hgood.typed va p hp
    · rw [hmap f hf] at hp
      exact h.typed f va p hp
  · have hne : f ≠ e := fun heq => by
      rw [heq, hrun] at hf
      cases hf
    rw [hstat f hne] at hf
    rw [hmap f hne]
    exact h.free f hf
  · by_cases hf : f = e
    · subst hf
      rw [hrun] at hq
      cases hq
      rw [hself]
      exact hgood
    · rw [hstat f hf] at hq
      rw [hmap f hf]
      exact h.good f q hq
  · by_cases hf : f = e
    · subst hf
      rw [hrun] at hq
      cases hq
      rcases hl.building hk with hold | rfl
      · obtain ⟨hlt, halone⟩ := h.alone f pc k hpc hold
        exact ⟨Nat.lt_succ_of_lt hlt, fun e' va b hne => hmap e' hne ▸ halone e' va b hne⟩
      · refine ⟨Nat.lt_succ_self _, fun e' va b hne hp => ?_⟩
        rw [hmap e' hne] at hp
        exact absurd (h.old e' va _ hp) (lt_irrefl _)
    · rw [hstat f hf] at hq
      obtain ⟨hlt, halone⟩ := h.alone f q k hq hk
      refine ⟨Nat.lt_succ_of_lt hlt, fun e' va b hne hp => ?_⟩
      by_cases he : e' = e
      · subst he
        rcases hpage va _ hp with ⟨a, ha⟩ | hnew | hbuild
        · exact halone e' a b hne ha
        · exact absurd hnew (Nat.ne_of_lt hlt)
        · -- two environments make the same pipe
          obtain ⟨a, b', ha⟩ := (h.good f q hq).building_mapped hk
          exact (h.alone e' pc k hpc hbuild).2 f a b' hf ha
      · rw [hmap e' he] at hp
        exact halone e' va b hne hp
  · by_cases hf : f = e
    · subst hf
      rw [hrun] at hq
      cases hq
      rcases hl.filling with hnone | ⟨hsame, hzero⟩
      · rw [hnone] at hc
        cases hc
      · rw [hsame] at hc
        obtain rfl := hzero c n hc
        obtain ⟨hembryo, hfill⟩ := h.filled f pc c 0 hpc hc
        have hne : c ≠ f := fun heq => by
          rw [heq, hpc] at hembryo
          cases hembryo
        rw [hstat c hne, hmap c hne]
        exact ⟨hembryo, fun va => (hfill va).trans (by simp)⟩
    · rw [hstat f hf] at hq
      obtain ⟨hembryo, hfill⟩ := h.filled f q c n hq hc
      have hne : c ≠ e := fun heq => by
        rw [heq, hpc] at hembryo
        cases hembryo
      rw [hstat c hne, hmap c hne, hmap f hf]
      exact ⟨hembryo, hfill⟩

/-- `sys_exofork`, in `fork` or in `spawn`. -/
theorem Inv.exofork {pc' : Pc} (h : Inv w) (hpc : (w.procs e).status = .run pc)
    (hfree : (w.procs c).status = .free) (hgood : Good (w.map e) pc')
    (hbuild : pc'.building = none) (hfill : pc'.filling = some (c, 0)) :
    Inv ((w.exofork e c).goto e pc') := by
  have hce : c ≠ e := fun heq => by
    rw [heq, hpc] at hfree
    cases hfree
  have hmap : ∀ f, ((w.exofork e c).goto e pc').map f = w.map f := by
    intro f
    rw [goto_map]
    rcases eq_or_ne f c with rfl | hne
    · rw [h.free f hfree]
      simp [World.exofork, map]
    · exact exofork_map_of_ne hne
  have hslots : ((w.exofork e c).goto e pc').slots = w.slots := by
    funext r
    exact congrFun (hmap r.1) r.2
  have hstat : ∀ f, f ≠ e → f ≠ c →
      (((w.exofork e c).goto e pc').procs f).status = (w.procs f).status := fun f hf hc =>
    (goto_status_of_ne hf).trans (exofork_status_of_ne hc)
  have hrun : (((w.exofork e c).goto e pc').procs e).status = .run pc' := goto_status_self
  have hembryo : (((w.exofork e c).goto e pc').procs c).status = .embryo e := by
    rw [goto_status_of_ne hce]
    simp [World.exofork]
  refine ⟨fun p => ?_, fun f va p hp => ?_, fun f va p hp => ?_, fun f hf => ?_,
    fun f q hq => ?_, fun f q k hq hk => ?_, fun f q d n hq hd => ?_⟩
  · rw [hslots]
    exact h.counted p
  · exact h.old f va p (hmap f ▸ hp)
  · exact h.typed f va p (hmap f ▸ hp)
  · by_cases hfe : f = e
    · rw [hfe, hrun] at hf
      cases hf
    by_cases hfc : f = c
    · rw [hfc, hembryo] at hf
      cases hf
    rw [hstat f hfe hfc] at hf
    rw [hmap]
    exact h.free f hf
  · rw [hmap]
    by_cases hfe : f = e
    · rw [hfe, hrun] at hq
      cases hq
      exact hfe ▸ hgood
    by_cases hfc : f = c
    · rw [hfc, hembryo] at hq
      cases hq
    rw [hstat f hfe hfc] at hq
    exact h.good f q hq
  · by_cases hfe : f = e
    · rw [hfe, hrun] at hq
      cases hq
      rw [hbuild] at hk
      cases hk
    by_cases hfc : f = c
    · rw [hfc, hembryo] at hq
      cases hq
    rw [hstat f hfe hfc] at hq
    obtain ⟨hlt, halone⟩ := h.alone f q k hq hk
    exact ⟨hlt, fun e' va b hne => hmap e' ▸ halone e' va b hne⟩
  · by_cases hfe : f = e
    · rw [hfe, hrun] at hq
      cases hq
      rw [hfill] at hd
      cases hd
      refine ⟨hfe ▸ hembryo, fun va => ?_⟩
      rw [hmap, h.free _ hfree]
      simp
    by_cases hfc : f = c
    · rw [hfc, hembryo] at hq
      cases hq
    rw [hstat f hfe hfc] at hq
    obtain ⟨hemb, hfilled⟩ := h.filled f q d n hq hd
    have hde : d ≠ e := fun heq => by
      rw [heq, hpc] at hemb
      cases hemb
    have hdc : d ≠ c := fun heq => by
      rw [heq, hfree] at hemb
      cases hemb
    rw [hstat d hde hdc, hmap, hmap]
    exact ⟨hemb, hfilled⟩

/-- An environment that nobody fills is somewhere else now. -/
theorem Inv.goto {pc' : Pc} (h : Inv w) (hgood : Good (w.map e) pc') (hbuild : pc'.building = none)
    (hfill : pc'.filling = none)
    (hnot : ∀ f q n, f ≠ e → (w.procs f).status = .run q → q.filling ≠ some (e, n)) :
    Inv (w.goto e pc') := by
  have hrun : ((w.goto e pc').procs e).status = .run pc' := goto_status_self
  have hslots : (w.goto e pc').slots = w.slots := by
    funext r
    exact congrFun goto_map r.2
  refine ⟨fun p => ?_, fun f va p hp => ?_, fun f va p hp => ?_, fun f hf => ?_,
    fun f q hq => ?_, fun f q k hq hk => ?_, fun f q d n hq hd => ?_⟩
  · rw [hslots]
    exact h.counted p
  · exact h.old f va p (goto_map (w := w) ▸ hp)
  · exact h.typed f va p (goto_map (w := w) ▸ hp)
  · by_cases hfe : f = e
    · rw [hfe, hrun] at hf
      cases hf
    rw [goto_status_of_ne hfe] at hf
    rw [goto_map]
    exact h.free f hf
  · rw [goto_map]
    by_cases hfe : f = e
    · rw [hfe, hrun] at hq
      cases hq
      exact hfe ▸ hgood
    rw [goto_status_of_ne hfe] at hq
    exact h.good f q hq
  · by_cases hfe : f = e
    · rw [hfe, hrun] at hq
      cases hq
      rw [hbuild] at hk
      cases hk
    rw [goto_status_of_ne hfe] at hq
    obtain ⟨hlt, halone⟩ := h.alone f q k hq hk
    exact ⟨hlt, fun e' va b hne => by
      rw [goto_map]
      exact halone e' va b hne⟩
  · by_cases hfe : f = e
    · rw [hfe, hrun] at hq
      cases hq
      rw [hfill] at hd
      cases hd
    rw [goto_status_of_ne hfe] at hq
    have hde : d ≠ e := fun heq => hnot f q n hfe hq (heq ▸ hd)
    rw [goto_status_of_ne hde, goto_map, goto_map]
    exact h.filled f q d n hq hd

/-- An environment that nobody fills gives up its address space. -/
theorem Inv.envFree (h : Inv w)
    (hnot : ∀ f q n, f ≠ e → (w.procs f).status = .run q → q.filling ≠ some (e, n)) :
    Inv (w.envFree e) := by
  have hnone : (w.envFree e).map e = fun _ => none := by simp [World.envFree, map]
  have hfree : ((w.envFree e).procs e).status = .free := by simp [World.envFree]
  have hkeep : ∀ f va p, (w.envFree e).map f va = some p → w.map f va = some p := by
    intro f va p hp
    by_cases hfe : f = e
    · rw [hfe, hnone] at hp
      cases hp
    · exact envFree_map_of_ne hfe ▸ hp
  refine ⟨counted_envFree h.counted, fun f va p hp => h.old f va p (hkeep f va p hp),
    fun f va p hp => h.typed f va p (hkeep f va p hp), fun f hf => ?_,
    fun f q hq => ?_, fun f q k hq hk => ?_, fun f q d n hq hd => ?_⟩
  · by_cases hfe : f = e
    · rw [hfe, hnone]
    rw [envFree_status_of_ne hfe] at hf
    rw [envFree_map_of_ne hfe]
    exact h.free f hf
  · have hfe : f ≠ e := fun heq => by
      rw [heq, hfree] at hq
      cases hq
    rw [envFree_status_of_ne hfe] at hq
    rw [envFree_map_of_ne hfe]
    exact h.good f q hq
  · have hfe : f ≠ e := fun heq => by
      rw [heq, hfree] at hq
      cases hq
    rw [envFree_status_of_ne hfe] at hq
    obtain ⟨hlt, halone⟩ := h.alone f q k hq hk
    exact ⟨hlt, fun e' va b hne hp => halone e' va b hne (hkeep e' va _ hp)⟩
  · have hfe : f ≠ e := fun heq => by
      rw [heq, hfree] at hq
      cases hq
    rw [envFree_status_of_ne hfe] at hq
    have hde : d ≠ e := fun heq => hnot f q n hfe hq (heq ▸ hd)
    rw [envFree_status_of_ne hde, envFree_map_of_ne hde, envFree_map_of_ne hfe]
    exact h.filled f q d n hq hd

/-- Nobody but its parent fills an embryo. -/
theorem Inv.not_filling (h : Inv w) (hc : (w.procs c).status = .embryo e) {f : Slot} {q : Pc}
    {n : Vpn} (hne : f ≠ e) (hq : (w.procs f).status = .run q) : q.filling ≠ some (c, n) := by
  intro hf
  have hembryo := (h.filled f q c n hq hf).1
  rw [hc] at hembryo
  cases hembryo
  exact hne rfl

/-- The loop of `fork` or of `copy_shared_pages` gives the child a page. -/
theorem Inv.sweep {n stop : Vpn} {p : Page} (h : Inv w)
    (hpc : (w.procs e).status = .run (.sweep c n stop)) (hva : n ≤ va ∧ va < stop)
    (hskip : ∀ a, n ≤ a → a < va → w.map e a = none) (hp : w.map e va = some p) :
    Inv ((w.setPte c va (some p)).goto e (.sweep c (va + 1) stop)) := by
  obtain ⟨hembryo, hfill⟩ := h.filled e _ c n hpc rfl
  have hce : c ≠ e := fun heq => by
    rw [heq, hpc] at hembryo
    cases hembryo
  set w' := (w.setPte c va (some p)).goto e (.sweep c (va + 1) stop) with hw'
  have hmap : ∀ f, f ≠ c → w'.map f = w.map f := fun f hf =>
    goto_map.trans (setPte_map_of_ne hf)
  have hself : w'.map c = Function.update (w.map c) va (some p) := goto_map.trans setPte_map_self
  have hstat : ∀ f, f ≠ e → (w'.procs f).status = (w.procs f).status := fun f hf =>
    (goto_status_of_ne hf).trans setPte_status
  have hrun : (w'.procs e).status = .run (.sweep c (va + 1) stop) := goto_status_self
  have hslots : w'.slots = (w.setPte c va (some p)).slots := by
    funext r
    exact congrFun goto_map r.2
  -- every page of the child is one of its parent
  have hpage : ∀ f a q, w'.map f a = some q → ∃ g, w.map g a = some q := by
    intro f a q hq
    by_cases hfc : f = c
    · rw [hfc, hself] at hq
      rcases eq_or_ne a va with rfl | hne
      · rw [Function.update_self] at hq
        exact ⟨e, hp.trans hq⟩
      · rw [Function.update_of_ne hne] at hq
        exact ⟨c, hq⟩
    · exact ⟨f, hmap f hfc ▸ hq⟩
  have hgood := h.good e _ hpc
  refine ⟨fun q => ?_, fun f a q hq => ?_, fun f a q hq => ?_, fun f hf => ?_,
    fun f q hq => ?_, fun f q k hq hk => ?_, fun f q d m hq hd => ?_⟩
  · rw [hslots]
    exact counted_setPte h.counted q
  · obtain ⟨g, hg⟩ := hpage f a q hq
    exact h.old g a q hg
  · obtain ⟨g, hg⟩ := hpage f a q hq
    exact h.typed g a q hg
  · have hfe : f ≠ e := fun heq => by
      rw [heq, hrun] at hf
      cases hf
    rw [hstat f hfe] at hf
    have hfc : f ≠ c := fun heq => by
      rw [heq, hembryo] at hf
      cases hf
    rw [hmap f hfc]
    exact h.free f hf
  · by_cases hfe : f = e
    · subst hfe
      rw [hrun] at hq
      cases hq
      rw [hmap f hce.symm]
      exact ⟨hgood.typed, hgood.covered, hgood.here⟩
    · rw [hstat f hfe] at hq
      have hfc : f ≠ c := fun heq => by
        rw [heq, hembryo] at hq
        cases hq
      rw [hmap f hfc]
      exact h.good f q hq
  · have hfe : f ≠ e := fun heq => by
      rw [heq, hrun] at hq
      cases hq
      cases hk
    rw [hstat f hfe] at hq
    obtain ⟨hlt, halone⟩ := h.alone f q k hq hk
    refine ⟨hlt, fun e' a b hne hq' => ?_⟩
    by_cases hec : e' = c
    · rw [hec, hself] at hq'
      rcases eq_or_ne a va with rfl | hav
      · rw [Function.update_self] at hq'
        exact halone e a b (Ne.symm hfe) (hp.trans hq')
      · rw [Function.update_of_ne hav] at hq'
        exact halone c a b (hec ▸ hne) hq'
    · rw [hmap e' hec] at hq'
      exact halone e' a b hne hq'
  · by_cases hfe : f = e
    · subst hfe
      rw [hrun] at hq
      cases hq
      cases hd
      rw [hstat c hce, hself, hmap f hce.symm]
      refine ⟨hembryo, fun a => ?_⟩
      have hlt : a < va + 1 ↔ a < va ∨ a = va := by bv_omega
      rcases eq_or_ne a va with rfl | hne
      · rw [Function.update_self, if_pos (hlt.mpr (.inr rfl)), hp]
      · rw [Function.update_of_ne hne, hfill]
        by_cases han : a < n
        · have hav : a < va := by bv_omega
          rw [if_pos han, if_pos (hlt.mpr (.inl hav))]
        · rw [if_neg han]
          split
          · rename_i hav
            exact (hskip a (by bv_omega) ((hlt.mp hav).resolve_right hne)).symm
          · rfl
    · rw [hstat f hfe] at hq
      obtain ⟨hemb, hfilled⟩ := h.filled f q d m hq hd
      have hde : d ≠ e := fun heq => by
        rw [heq, hpc] at hemb
        cases hemb
      have hdc : d ≠ c := fun heq => h.not_filling hembryo hfe hq (heq ▸ hd)
      have hfc : f ≠ c := fun heq => by
        rw [heq, hembryo] at hq
        cases hq
      rw [hstat d hde, hmap d hdc, hmap f hfc]
      exact ⟨hemb, hfilled⟩

/-- The child has all that its parent has, and runs. -/
theorem Inv.sweepDone {n stop : Vpn} (h : Inv w)
    (hpc : (w.procs e).status = .run (.sweep c n stop))
    (hskip : ∀ a, n ≤ a → a < stop → w.map e a = none) : Inv ((w.goto e .idle).goto c .idle) := by
  obtain ⟨hembryo, hfill⟩ := h.filled e _ c n hpc rfl
  have hce : c ≠ e := fun heq => by
    rw [heq, hpc] at hembryo
    cases hembryo
  have hgood := h.good e _ hpc
  have hstop : UTOPPN - 1 ≤ stop := hgood.here
  have hidle : Inv (w.goto e .idle) := by
    refine h.goto ⟨hgood.typed, hgood.covered, trivial⟩ rfl rfl fun f q m hne hq hf => ?_
    have hemb := (h.filled f q e m hq hf).1
    rw [hpc] at hemb
    cases hemb
  refine hidle.goto ⟨hidle.typed c, ?_, trivial⟩ rfl rfl fun f q m hne hq => ?_
  · rw [goto_map]
    intro i k b hfd _
    rw [hfill] at hfd
    split at hfd
    · have hdata := hgood.covered i k b hfd (by simp [Pc.building])
      rw [hfill]
      split
      · exact hdata
      · rename_i hge
        have hval : (dataVa i).toNat = 0xD0020 + i.val := toNat_dataVa i
        have hi : i.val < 32 := i.isLt
        have hlast : (UTOPPN - 1).toNat = 0xEEBFF := rfl
        have hlt : dataVa i < stop := by
          rw [BitVec.lt_def]
          rw [BitVec.le_def] at hstop
          omega
        rw [hskip (dataVa i) (by bv_omega) hlt] at hdata
        cases hdata
    · cases hfd
  · by_cases hfe : f = e
    · rw [hfe, goto_status_self] at hq
      cases hq
      exact fun hf => by cases hf
    · rw [goto_status_of_ne hfe] at hq
      exact h.not_filling hembryo hfe hq

end

end World

/-! ## The comparison -/

/-- `dup` is given a number in range, and no child of a `fork` or `spawn` under way has an `Fd` page
of the pipe that is looked at without its data page. -/
def Settled (w : World) : Event → Prop
  | .tau => True
  | .dup newfdnum => 0 ≤ newfdnum ∧ newfdnum < MAXFD
  | .closed e i _ => ∀ k b, w.map e (fdVa i) = some (.fd k b) → ∀ c parent j b',
      (w.procs c).status = .embryo parent → w.map c (fdVa j) = some (.fd k b') →
        w.map c (dataVa j) = some (.pipe k)

namespace World

section

variable {w w' : World}

theorem Inv.step {ev : Event} (h : Inv w) (hstep : Guarded Settled World.Step w ev w') :
    Inv w' := by
  obtain ⟨hguard, hstep⟩ := hstep
  cases hstep with
  | own e pc pc' ev ch hpc hl =>
      refine h.local hpc (fun newfdnum hev => ?_) hl
      subst hev
      exact hguard
  | fork e c hpc hfree =>
      have hgood := h.good e _ hpc
      exact h.exofork hpc hfree ⟨hgood.typed, hgood.covered, BitVec.le_refl (UTOPPN - 1)⟩ rfl rfl
  | spawn e c i hpc hfree =>
      have hgood := h.good e _ hpc
      exact h.exofork hpc hfree ⟨hgood.typed, hgood.covered, trivial⟩ rfl rfl
  | spawnError e c i hpc =>
      have hgood := h.good e _ hpc
      have hembryo := (h.filled e _ c 0 hpc rfl).1
      have hclose : Inv (w.goto e (close (w.map e) i .ret)) := by
        refine h.goto (.close hgood.typed hgood.covered (fun _ _ => trivial) fun _ => trivial)
          close_building close_filling fun f q n hne hq hf => ?_
        have hemb := (h.filled f q e n hq hf).1
        rw [hpc] at hemb
        cases hemb
      refine hclose.envFree fun f q n hne hq => ?_
      by_cases hfe : f = e
      · rw [hfe, goto_status_self] at hq
        cases hq
        rw [close_filling]
        exact fun hf => by cases hf
      · rw [goto_status_of_ne hfe] at hq
        exact h.not_filling hembryo hfe hq
  | sweep e c n stop va p hpc hva hskip hp => exact h.sweep hpc hva hskip hp
  | sweepDone e c n stop hpc hskip => exact h.sweepDone hpc hskip
  | exit e i hpc hall =>
      refine h.envFree fun f q n hne hq hf => ?_
      have hemb := (h.filled f q e n hq hf).1
      rw [hpc] at hemb
      cases hemb
  | closed e i hpc hfd => exact h

/-- No page is mapped often enough for its counter to overflow. -/
theorem Inv.refs_lt (h : Inv w) (p : Page) : refs w.slots p < 2 ^ 16 := by
  have hle : refs w.slots p ≤ Fintype.card (Slot × Fin 32) := by
    refine refs_le_card (fun r => (r.1, Fin.ofNat 32 r.2.toNat)) ?_
    rintro ⟨e, a⟩ ⟨f, b⟩ ha hb heq
    simp only [Prod.mk.injEq, Fin.ofNat, Fin.mk.injEq] at heq
    obtain ⟨rfl, heq⟩ := heq
    have hval : a = b := (h.typed e a p ha).eq_of_mod (h.typed e b p hb) heq
    rw [hval]
  have hcard : Fintype.card (Slot × Fin 32) = 32768 := by
    rw [Fintype.card_prod, Fintype.card_fin, Fintype.card_fin]
  omega

/-- Where the other end of a pipe is looked at, every `Fd` page of it has the data page. -/
theorem Inv.covered_all (h : Inv w) {e : Slot} {i : Fin MAXFD} {ret : Bool} {k : Nat} {b : Bool}
    (hpc : (w.procs e).status = .run .idle) (hset : Settled w (.closed e i ret))
    (hfd : w.map e (fdVa i) = some (.fd k b)) {f : Slot} {j : Fin MAXFD} {b' : Bool}
    (hj : w.map f (fdVa j) = some (.fd k b')) : w.map f (dataVa j) = some (.pipe k) := by
  rcases hstat : (w.procs f).status with _ | parent | q
  · rw [h.free f hstat] at hj
    cases hj
  · exact hset k b hfd f parent j b' hstat hj
  · refine (h.good f q hstat).covered j k b' hj fun hbuild => ?_
    have hef : e ≠ f := fun heq => by
      rw [← heq, hpc] at hstat
      cases hstat
      cases hbuild
    exact (h.alone f q k hstat hbuild).2 e _ b hef hfd

/-- The counters agree only if the other end is mapped nowhere. -/
theorem Inv.not_mapped (h : Inv w) {e : Slot} {i : Fin MAXFD} {k : Nat} {b : Bool}
    (hpc : (w.procs e).status = .run .idle) (hset : Settled w (.closed e i true))
    (hfd : w.map e (fdVa i) = some (.fd k b)) (hclosed : w.pipeisclosed e i = true) (f : Slot)
    (va : Vpn) : w.map f va ≠ some (.fd k (!b)) := by
  have hdata := h.covered_all hpc hset hfd hfd
  have heq : w.ppRef (.fd k b) = w.ppRef (.pipe k) := by
    have hrefs : w.pageref e (fdVa i) = w.pageref e (dataVa i) := of_decide_eq_true hclosed
    simpa only [pageref, hfd, hdata] using hrefs
  have hcount : refs w.slots (.fd k b) = refs w.slots (.pipe k) := by
    rw [h.counted, h.counted] at heq
    have hval := congrArg BitVec.toNat heq
    rwa [BitVec.toNat_ofNat, BitVec.toNat_ofNat, Nat.mod_eq_of_lt (h.refs_lt _),
      Nat.mod_eq_of_lt (h.refs_lt _)] at hval
  have hle : refs w.slots (.fd k b) + refs w.slots (.fd k (!b)) ≤ refs w.slots (.pipe k) := by
    refine refs_add_le (by cases b <;> simp) (fun r => (r.1, fd2data r.2)) ?_ ?_
    · rintro ⟨e, x⟩ ⟨f, y⟩ hxy
      simp only [Prod.mk.injEq] at hxy
      rw [hxy.1, fd2data_injective hxy.2]
    · rintro ⟨g, a⟩ hga
      have hend : ∃ b', w.map g a = some (.fd k b') := hga.elim (⟨b, ·⟩) (⟨!b, ·⟩)
      obtain ⟨b', hb'⟩ := hend
      obtain ⟨j, rfl⟩ := h.typed g a _ hb'
      exact h.covered_all hpc hset hfd hb'
  have hzero : refs w.slots (.fd k (!b)) = 0 := by omega
  exact refs_eq_zero.mp hzero (f, va)

end

end World

/-! ## Runs -/

/-- In every run in which `dup` is given numbers in range and pipes are looked at when no child is
between an `Fd` page and its data page: where `_pipeisclosed` returns true, no environment has the
other end of the pipe mapped. -/
theorem not_mapped_of_pipeisclosed {live : Slot → Bool} {tr : List Event} {w w' : World} {e : Slot}
    {i : Fin MAXFD} {k : Nat} {b : Bool}
    (hrun : Run (Guarded Settled World.Step) (.init live) tr w)
    (hstep : Guarded Settled World.Step w (.closed e i true) w')
    (hfd : w.map e (fdVa i) = some (.fd k b)) (f : Slot) (va : Vpn) :
    w.map f va ≠ some (.fd k (!b)) := by
  have hinv : w.Inv := hrun.preserves (fun _ _ _ h hs => h.step hs) (World.inv_init live)
  obtain ⟨hset, hstep⟩ := hstep
  generalize hev : Event.closed e i true = ev at hstep
  cases hstep with
  | closed e' i' hpc hsome =>
      injection hev with he hi hret
      subst he hi
      exact hinv.not_mapped hpc hset hfd hret.symm f va
  | own e' pc pc' ev ch hpc hl =>
      subst hev
      cases hl
  | _ => cases hev

section

private def only0 : Slot → Bool := fun e => e = 0
private def fd0 : Fin MAXFD := ⟨0, by decide⟩
private def fd1 : Fin MAXFD := ⟨1, by decide⟩

/-- A pipe whose second end is closed looks closed. -/
theorem not_mapped_of_pipeisclosed_sample : ∃ tr w,
    Run (Guarded Settled World.Step) (.init only0) tr w ∧
      w.map 0 (fdVa fd0) = some (.fd 0 false) ∧ w.pipeisclosed 0 fd0 = true ∧
        ∀ f va, w.map f va ≠ some (.fd 0 true) := by
  have hrun : ∃ tr w, Run (Guarded Settled World.Step) (.init only0) tr w ∧
      w.map 0 (fdVa fd0) = some (.fd 0 false) ∧ w.pipeisclosed 0 fd0 = true ∧
      (w.procs 0).status = .run .idle ∧ ∀ c, c ≠ 0 → (w.procs c).status = .free :=
    ⟨List.replicate 8 .tau, _,
      .cons ⟨trivial, .own _ 0 _ _ _ _ rfl (.pipeFd0 fd0 rfl)⟩
      (.cons ⟨trivial, .own _ 0 _ _ _ _ rfl (.pipeFd1 _ _ fd1 rfl)⟩
      (.cons ⟨trivial, .own _ 0 _ _ _ _ rfl (.pipeData _ _ _)⟩
      (.cons ⟨trivial, .own _ 0 _ _ _ _ rfl (.pipeMap _ _ _ (.pipe 0) rfl)⟩
      (.cons ⟨trivial, .own _ 0 _ _ _ _ rfl (.closeFd 1)⟩
      (.cons ⟨trivial, .own _ 0 _ _ _ _ rfl (.close1 fd1 .ret)⟩
      (.cons ⟨trivial, .own _ 0 _ _ _ _ rfl (.close2 fd1 .ret)⟩
      (.single ⟨trivial, .own _ 0 _ _ _ _ rfl (.close3 fd1 .ret)⟩))))))),
      rfl, by decide, rfl, fun c hc => by
        simp [World.goto, World.change, World.setPte, World.init, only0, hc]⟩
  obtain ⟨tr, w, hrun, hfd, hclosed, hpc, hfree⟩ := hrun
  refine ⟨tr, w, hrun, hfd, hclosed, fun f va => ?_⟩
  have hset : Settled w (.closed 0 fd0 true) := by
    intro k b _ c parent j b' hembryo
    by_cases hc : c = 0
    · rw [hc, hpc] at hembryo
      cases hembryo
    · rw [hfree c hc] at hembryo
      cases hembryo
  have hstep : World.Step w (.closed 0 fd0 true) w :=
    hclosed ▸ .closed w 0 fd0 hpc (by rw [hfd]; rfl)
  exact not_mapped_of_pipeisclosed hrun ⟨hset, hstep⟩ hfd f va

/-- An address space with a pipe at 0 and 1. -/
private def ends : AddrSpace :=
  Function.update (Function.update (Function.update (Function.update (fun _ => none)
    (fdVa fd0) (some (.fd 0 false))) (fdVa fd1) (some (.fd 0 true)))
    (dataVa fd0) (some (.pipe 0))) (dataVa fd1) (some (.pipe 0))

private theorem ends_none {a : Vpn}
    (h : a ≠ 0xD0000 ∧ a ≠ 0xD0001 ∧ a ≠ 0xD0020 ∧ a ≠ 0xD0021) : ends a = none := by
  obtain ⟨h0, h1, h2, h3⟩ := h
  unfold ends
  rw [Function.update_of_ne (show a ≠ dataVa fd1 from h3),
    Function.update_of_ne (show a ≠ dataVa fd0 from h2),
    Function.update_of_ne (show a ≠ fdVa fd1 from h1),
    Function.update_of_ne (show a ≠ fdVa fd0 from h0)]

/-- Environment 0 makes a pipe and forks 1, which closes its second end; while 0 forks 2, the new
child has the first end and no data page: 1 finds the pipe closed, and 0 has its second end. -/
theorem looks_closed_during_fork : ∃ tr w,
    Run World.Step (.init only0) tr w ∧ World.Step w (.closed 1 fd0 true) w ∧
      w.map 1 (fdVa fd0) = some (.fd 0 false) ∧ w.map 0 (fdVa fd1) = some (.fd 0 true) := by
  have hrun : ∃ tr w, Run World.Step (.init only0) tr w ∧ (w.procs 1).status = .run .idle ∧
      w.pipeisclosed 1 fd0 = true ∧ w.map 1 (fdVa fd0) = some (.fd 0 false) ∧
      w.map 0 (fdVa fd1) = some (.fd 0 true) :=
    ⟨List.replicate 16 .tau, _,
      .cons (.own _ 0 _ _ _ _ rfl (.pipeFd0 fd0 rfl))
      (.cons (.own _ 0 _ _ _ _ rfl (.pipeFd1 _ _ fd1 rfl))
      (.cons (.own _ 0 _ _ _ _ rfl (.pipeData _ _ _))
      (.cons (.own _ 0 _ _ _ _ rfl (.pipeMap _ _ _ (.pipe 0) rfl))
      (.cons (.fork _ 0 1 rfl rfl)
      (.cons (.sweep _ 0 1 0 _ 0xD0000 (.fd 0 false) rfl (by decide)
        (fun a _ _ => ends_none (by bv_omega)) rfl)
      (.cons (.sweep _ 0 1 _ _ 0xD0001 (.fd 0 true) rfl (by decide)
        (fun a _ _ => ends_none (by bv_omega)) rfl)
      (.cons (.sweep _ 0 1 _ _ 0xD0020 (.pipe 0) rfl (by decide)
        (fun a _ _ => ends_none (by bv_omega)) rfl)
      (.cons (.sweep _ 0 1 _ _ 0xD0021 (.pipe 0) rfl (by decide)
        (fun a _ _ => ends_none (by bv_omega)) rfl)
      (.cons (.sweepDone _ 0 1 _ _ rfl (fun a _ _ => ends_none (by bv_omega)))
      (.cons (.own _ 1 _ _ _ _ rfl (.closeFd 1))
      (.cons (.own _ 1 _ _ _ _ rfl (.close1 fd1 .ret))
      (.cons (.own _ 1 _ _ _ _ rfl (.close2 fd1 .ret))
      (.cons (.own _ 1 _ _ _ _ rfl (.close3 fd1 .ret))
      (.cons (.fork _ 0 2 rfl rfl)
      (.single (.sweep _ 0 2 0 _ 0xD0000 (.fd 0 false) rfl (by decide)
        (fun a _ _ => ends_none (by bv_omega)) rfl)))))))))))))))),
      rfl, by decide, rfl, rfl⟩
  obtain ⟨tr, w, hrun, hpc, hclosed, hfd, hother⟩ := hrun
  exact ⟨tr, w, hrun, hclosed ▸ .closed w 1 fd0 hpc (by rw [hfd]; rfl), hfd, hother⟩

end
end SisOp.User
