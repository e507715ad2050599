/-
# `SisOp.Kdebug.Trusted` — what the checks of `debuginfo_eip` cover

`Trusted` goes through the events of a run: every byte read lies in a range that a call
of `user_mem_check` has passed before, and the call was right to pass it.  The check of
the table of entries is given their number for its length, so that not even the first
entry that `stab_binsearch` looks at is inside the range: the run is trusted as long as
it reads no entry, and no longer (`eip_trusted`).
-/
import SisOp.Kdebug.Eip

namespace SisOp.Kdebug

open SisOp.Jos

/-! ## Trusted runs -/

section

variable {m : Phys} {pgdir : Ppn} {α β : Type} {known : List (Word × Word)} {es : List Event}
  {undef : Word → Word → Word} {kern t : UserStabData} {addr : Word} {info : Eipdebuginfo}

/-- The byte lies in a range that has passed its check, and may be read. -/
def Vouched (m : Phys) (pgdir : Ppn) (known : List (Word × Word)) (a : Word) : Prop :=
  (∃ c ∈ known, c.1.toNat ≤ a.toNat ∧ a.toNat < c.1.toNat + c.2.toNat) ∧ Covered m pgdir 0 a.toNat

/-- Every byte is vouched for when it is read. -/
def Trusted (m : Phys) (pgdir : Ppn) : List (Word × Word) → List Event → Prop
  | _, [] => True
  | known, .checked va len :: es => Trusted m pgdir ((va, len) :: known) es
  | known, .read a :: es => Vouched m pgdir known a ∧ Trusted m pgdir known es

theorem trusted_reads (bytes : List Word) : Trusted m pgdir known (bytes.map .read ++ es) ↔
    (∀ a ∈ bytes, Vouched m pgdir known a) ∧ Trusted m pgdir known es := by
  induction bytes with
  | nil => simp
  | cons a bytes ih =>
    rw [List.map_cons, List.cons_append, Trusted, ih, List.forall_mem_cons, and_assoc]

namespace Traced

theorem bind_ok {x : Traced α} {f : α → Traced β} {a : α} (h : x.out = .ok a) :
    (x >>= f).events = x.events ++ (f a).events := by
  show (Traced.bind x f).events = _
  rw [Traced.bind, h]

theorem bind_error {x : Traced α} {f : α → Traced β} {e : String} (h : x.out = .error e) :
    (x >>= f).events = x.events := by
  show (Traced.bind x f).events = _
  rw [Traced.bind, h]

/-- A run goes on from the events of its first part. -/
theorem bind_events (x : Traced α) (f : α → Traced β) : ∃ es, (x >>= f).events = x.events ++ es := by
  cases h : x.out with
  | error e => exact ⟨[], by rw [bind_error h, List.append_nil]⟩
  | ok a => exact ⟨_, bind_ok h⟩

end Traced

/-! ## The checks -/

/-- `user_mem_check(curenv, va, len, 0)` returns 0. -/
def Passes (m : Phys) (pgdir : Ppn) (va len : Word) : Prop :=
  ∃ x, userMemCheck m pgdir va len 0 = .ok (0, x)

theorem check_passes {va len : Word} (h : Passes m pgdir va len) :
    check m pgdir va len = ⟨.ok false, [.checked va len]⟩ := by
  obtain ⟨x, hx⟩ := h
  exact congrArg (checkResult va len) hx

theorem checkResult_fails {va len : Word} {c : Except String (Int × Option Word)}
    (h : ∀ x, c ≠ .ok (0, x)) :
    (checkResult va len c).events = [] ∧ ∀ b, (checkResult va len c).out = .ok b → b = true := by
  cases c with
  | error e => exact ⟨rfl, fun b hb => by cases hb⟩
  | ok r =>
    obtain ⟨r, x⟩ := r
    have hr : ¬ r = 0 := by
      rintro rfl
      exact h x rfl
    rw [checkResult, if_neg hr]
    exact ⟨rfl, fun b hb => (Except.ok.inj hb).symm⟩

theorem check_fails {va len : Word} (h : ¬ Passes m pgdir va len) :
    (check m pgdir va len).events = [] ∧ ∀ b, (check m pgdir va len).out = .ok b → b = true :=
  checkResult_fails fun x hx => h ⟨x, hx⟩

/-- The words at `USTABDATA`. -/
def tablesOf (m : Phys) (pgdir : Ppn) : UserStabData where
  stabs := wordAt (byteAt m pgdir) USTABDATA
  stabEnd := wordAt (byteAt m pgdir) (USTABDATA + 4)
  stabstr := wordAt (byteAt m pgdir) (USTABDATA + 8)
  stabstrEnd := wordAt (byteAt m pgdir) (USTABDATA + 12)

def entries (undef : Word → Word → Word) (t : UserStabData) : Int := stabCount undef t.stabEnd t.stabs

/-- The three checks pass. -/
structure AllPass (m : Phys) (pgdir : Ppn) (undef : Word → Word → Word) : Prop where
  usd : Passes m pgdir USTABDATA 16
  stabs : Passes m pgdir (tablesOf m pgdir).stabs (BitVec.ofInt 32 (entries undef (tablesOf m pgdir)))
  stabstr : Passes m pgdir (tablesOf m pgdir).stabstr
    ((tablesOf m pgdir).stabstrEnd - (tablesOf m pgdir).stabstr)

/-- The ranges checked. -/
def ranges (undef : Word → Word → Word) (t : UserStabData) : List (Word × Word) :=
  [(t.stabstr, t.stabstrEnd - t.stabstr), (t.stabs, BitVec.ofInt 32 (entries undef t)), (USTABDATA, 16)]

/-- A check, and what is done when it has passed. -/
theorem check_then {γ : Type} (m : Phys) (pgdir : Ppn) (va len : Word) (k : Traced (Option γ)) :
    (Passes m pgdir va len ∧ (check m pgdir va len >>= fun b => if b = true then pure none else k) =
      ⟨k.out, .checked va len :: k.events⟩) ∨
    (¬ Passes m pgdir va len ∧ ∃ out, (∀ r, out = .ok r → r = none) ∧
      (check m pgdir va len >>= fun b => if b = true then pure none else k) = ⟨out, []⟩) := by
  by_cases h : Passes m pgdir va len
  · refine .inl ⟨h, ?_⟩
    rw [check_passes h]
    rfl
  · refine .inr ⟨h, ?_⟩
    obtain ⟨hevents, hout⟩ := check_fails h
    generalize check m pgdir va len = c at hevents hout
    obtain ⟨out, events⟩ := c
    cases out with
    | error e =>
      exact ⟨.error e, fun r hr => (by cases hr), congrArg _ hevents⟩
    | ok b =>
      obtain rfl : b = true := hout b rfl
      exact ⟨.ok none, fun r hr => (Except.ok.inj hr).symm, congrArg _ ((List.append_nil _).trans hevents)⟩

theorem readUserStabData_eq (m : Phys) (pgdir : Ppn) : readUserStabData m pgdir =
    ⟨.ok (tablesOf m pgdir), (bytesFrom USTABDATA 16).map .read⟩ := rfl

/-- The checks of the two tables. -/
def tableChecks (m : Phys) (pgdir : Ppn) (undef : Word → Word → Word) (t : UserStabData) :
    Traced (Option UserStabData) :=
  check m pgdir t.stabs (BitVec.ofInt 32 (entries undef t)) >>= fun b =>
    if b = true then pure none
    else check m pgdir t.stabstr (t.stabstrEnd - t.stabstr) >>= fun b =>
      if b = true then pure none else pure (some t)

theorem userTables_eq (m : Phys) (pgdir : Ppn) (undef : Word → Word → Word) : userTables m pgdir undef =
    check m pgdir USTABDATA 16 >>= fun b => if b = true then pure none else
      ⟨(tableChecks m pgdir undef (tablesOf m pgdir)).out, (bytesFrom USTABDATA 16).map .read ++
        (tableChecks m pgdir undef (tablesOf m pgdir)).events⟩ := by
  unfold userTables
  rw [readUserStabData_eq]
  rfl

/-- The run up to the tables: all checks pass, or it ends without reading more than `*usd`. -/
theorem userTables_cases (m : Phys) (pgdir : Ppn) (undef : Word → Word → Word) :
    (AllPass m pgdir undef ∧ userTables m pgdir undef = ⟨.ok (some (tablesOf m pgdir)),
      .checked USTABDATA 16 :: ((bytesFrom USTABDATA 16).map .read ++
        [.checked (tablesOf m pgdir).stabs (BitVec.ofInt 32 (entries undef (tablesOf m pgdir))),
          .checked (tablesOf m pgdir).stabstr
            ((tablesOf m pgdir).stabstrEnd - (tablesOf m pgdir).stabstr)])⟩) ∨
    (¬ AllPass m pgdir undef ∧ ∃ out events, (∀ r, out = .ok r → r = none) ∧
      userTables m pgdir undef = ⟨out, events⟩ ∧
      (events = [] ∨ Passes m pgdir USTABDATA 16 ∧ ∃ calls : List (Word × Word), events =
        .checked USTABDATA 16 :: ((bytesFrom USTABDATA 16).map .read ++
          calls.map fun c => .checked c.1 c.2))) := by
  rw [userTables_eq]
  obtain ⟨h1, hrun1⟩ | ⟨h1, out, hout, hrun1⟩ := check_then m pgdir USTABDATA 16
    (⟨(tableChecks m pgdir undef (tablesOf m pgdir)).out, (bytesFrom USTABDATA 16).map .read ++
        (tableChecks m pgdir undef (tablesOf m pgdir)).events⟩ : Traced (Option UserStabData))
  swap
  · exact .inr ⟨fun h => h1 h.usd, out, [], hout, hrun1, .inl rfl⟩
  rw [hrun1]
  generalize ht : tablesOf m pgdir = t
  have hsplit := check_then m pgdir t.stabs (BitVec.ofInt 32 (entries undef t))
    (check m pgdir t.stabstr (t.stabstrEnd - t.stabstr) >>= fun b =>
      if b = true then pure none else pure (some t))
  obtain ⟨h2, hrun2⟩ | ⟨h2, out, hout, hrun2⟩ := hsplit
  swap
  · refine .inr ⟨fun h => h2 (ht ▸ h.stabs), out, _, hout, ?_, .inr ⟨h1, [], rfl⟩⟩
    rw [tableChecks, hrun2]
    rfl
  obtain ⟨h3, hrun3⟩ | ⟨h3, out, hout, hrun3⟩ := check_then m pgdir t.stabstr
    (t.stabstrEnd - t.stabstr) (pure (some t))
  swap
  · refine .inr ⟨fun h => h3 (ht ▸ h.stabstr), out, _, hout, ?_,
      .inr ⟨h1, [(t.stabs, BitVec.ofInt 32 (entries undef t))], rfl⟩⟩
    rw [tableChecks, hrun2, hrun3]
    rfl
  · refine .inl ⟨⟨h1, ht ▸ h2, ht ▸ h3⟩, ?_⟩
    rw [tableChecks, hrun2, hrun3]
    rfl

/-! ## The searches -/

variable {mem : Word → Byte} {n : Int}

theorem turn_seen (stabs : Int → Stab) (type : Byte) (s : Search) : (turn stabs type s).seen =
    s.seen ++ scanned stabs type (mid s.l s.r - s.l + 1).toNat (mid s.l s.r) := by
  unfold turn
  dsimp only
  split_ifs <;> rfl

/-- The loop forgets nothing it has read. -/
theorem searchLoop_seen {stabs : Int → Stab} {type : Byte} {i : Int} : ∀ (f : Nat) {s s' : Search},
    searchLoop stabs type f s = .ok s' → i ∈ s.seen → i ∈ s'.seen := by
  intro f
  induction f with
  | zero => exact fun h => by cases h
  | succ f ih =>
    intro s s' h hi
    rw [searchLoop] at h
    split at h
    · exact ih h (turn_seen stabs type s ▸ List.mem_append_left _ hi)
    · cases h
      exact hi

/-- The first entry read is the one in the middle. -/
theorem mid_mem_seen {stabs : Int → Stab} {type : Byte} {f : Nat} {s s' : Search} (hle : s.l ≤ s.r)
    (h : searchLoop stabs type (f + 1) s = .ok s') : mid s.l s.r ∈ s'.seen := by
  rw [searchLoop_go hle] at h
  refine searchLoop_seen f h ?_
  obtain ⟨k, hk⟩ : ∃ k, (mid s.l s.r - s.l + 1).toNat = k + 1 := by
    have hmid := mid_bounds hle
    exact ⟨(mid s.l s.r - s.l).toNat, by omega⟩
  rw [turn_seen, hk, scanned]
  exact List.mem_append_right _ List.mem_cons_self

/-- Without entries nothing is read, and no file is found. -/
theorem eipSearch_none (h : n ≤ 0) : (eipSearch mem t n addr info).events = [] := by
  have hfuel : (n - 1 - 0 + 1).toNat = 0 := by omega
  have hloop : ∀ a, searchLoop (stabAt mem t.stabs) N_SO (2 * (n - 1 - 0 + 1).toNat + 1)
      ⟨0, n - 1, 0, n - 1, a, false, []⟩ = .ok ⟨0, n - 1, 0, n - 1, a, false, []⟩ := by
    intro a
    rw [hfuel]
    exact searchLoop_done (by show n - 1 < 0; omega)
  have hsearch : binsearch mem t.stabs 0 (n - 1) N_SO addr = ⟨.ok (0, -1), []⟩ := by
    simp only [binsearch, stabBinsearch, hloop, bind, Except.bind]
    rfl
  rw [eipSearch, hsearch]
  rfl

/-- With entries, the one in the middle is read first of all. -/
theorem eipSearch_first (mem : Word → Byte) (t : UserStabData) (addr : Word) (info : Eipdebuginfo)
    (h : 1 ≤ n) : ∃ (bytes : List Word) (es : List Event), stabAddr t.stabs (mid 0 (n - 1)) + 4 ∈ bytes ∧
    (eipSearch mem t n addr info).events = bytes.map .read ++ es := by
  obtain ⟨s, hs⟩ := searchLoop_total (stabAt mem t.stabs) N_SO (n - 1 - 0 + 1).toNat
    (2 * (n - 1 - 0 + 1).toNat + 1) ⟨0, n - 1, 0, n - 1, addr, false, []⟩ (Nat.le_refl _) (Nat.le_refl _)
  have hsearch : (binsearch mem t.stabs 0 (n - 1) N_SO addr).events =
      (searchBytes mem t.stabs N_SO s).map .read := by
    simp only [binsearch, hs]
  have hseen : mid 0 (n - 1) ∈ s.seen := mid_mem_seen (by show 0 ≤ n - 1; omega) hs
  obtain ⟨es, hes⟩ := Traced.bind_events (binsearch mem t.stabs 0 (n - 1) N_SO addr) _
  refine ⟨_, es, ?_, hes.trans (congrArg (· ++ es) hsearch)⟩
  exact List.mem_append_left _ (List.mem_append_left _ (List.mem_map.mpr ⟨_, hseen, rfl⟩))

theorem eipTables_empty (h : t.stabstrEnd ≤ t.stabstr) :
    (eipTables mem undef t addr info).events = [] := by
  rw [eipTables, if_pos h]
  rfl

theorem eipTables_last (h : ¬ t.stabstrEnd ≤ t.stabstr) : (eipTables mem undef t addr info).events =
    .read (t.stabstrEnd - 1) :: if mem (t.stabstrEnd - 1) ≠ 0 then []
      else (eipSearch mem t (entries undef t) addr info).events := by
  rw [eipTables, if_neg h]
  refine congrArg (List.cons _) ?_
  by_cases hlast : mem (t.stabstrEnd - 1) ≠ 0
  · rw [if_pos hlast]
    exact congrArg Traced.events (if_pos hlast)
  · rw [if_neg hlast]
    exact congrArg Traced.events (if_neg hlast)

/-! ## What the checks are worth -/

theorem trusted_calls (calls : List (Word × Word)) :
    Trusted m pgdir known (calls.map fun c => .checked c.1 c.2) := by
  induction calls generalizing known with
  | nil => trivial
  | cons c calls ih => exact ih

/-- A range that passes and does not reach the last page vouches for its bytes. -/
theorem vouched_of_passes {va len a : Word} (h : Passes m pgdir va len)
    (hend : va.toNat + len.toNat + 4095 < 2 ^ 32) (hmem : (va, len) ∈ known)
    (hge : va.toNat ≤ a.toNat) (hlt : a.toNat < va.toNat + len.toNat) : Vouched m pgdir known a := by
  obtain ⟨x, hx⟩ := h
  exact ⟨⟨_, hmem, hge, hlt⟩, checkSound_of_no_wrap hend x hx a.toNat hge hlt⟩

theorem usd_vouched (h : Passes m pgdir USTABDATA 16) :
    ∀ a ∈ bytesFrom USTABDATA 16, Vouched m pgdir [(USTABDATA, 16)] a := by
  intro a ha
  obtain ⟨k, hk, rfl⟩ := List.mem_map.mp ha
  have hk16 := List.mem_range.mp hk
  have hus : USTABDATA.toNat = 2097152 := rfl
  have hval : (USTABDATA + BitVec.ofNat 32 k).toNat = 2097152 + k := by
    rw [BitVec.toNat_add, BitVec.toNat_ofNat, hus]
    omega
  exact vouched_of_passes h (by decide) List.mem_cons_self (by rw [hval, hus]; omega)
    (by rw [hval, hus, show (16 : Word).toNat = 16 from rfl]; omega)

/-- The last byte of the strings is vouched for when it is not in the last page. -/
theorem last_vouched (h : AllPass m pgdir undef) (ht : tablesOf m pgdir = t)
    (hlt : ¬ t.stabstrEnd ≤ t.stabstr) : Vouched m pgdir (ranges undef t) (t.stabstrEnd - 1) ↔
      t.stabstrEnd.toNat + 4095 < 2 ^ 32 := by
  rw [BitVec.le_def, not_le] at hlt
  have hone : (1 : Word).toNat = 1 := rfl
  have hend := t.stabstrEnd.isLt
  have hlast : (t.stabstrEnd - 1).toNat = t.stabstrEnd.toNat - 1 := by
    rw [BitVec.toNat_sub, hone]
    omega
  have hlen : (t.stabstrEnd - t.stabstr).toNat = t.stabstrEnd.toNat - t.stabstr.toNat := by
    rw [BitVec.toNat_sub]
    omega
  constructor
  · rintro ⟨-, hlim, -⟩
    have hulim : ULIM.toNat = 4018143232 := rfl
    omega
  · intro hwrap
    exact vouched_of_passes (ht ▸ h.stabstr) (by omega) List.mem_cons_self (by omega) (by omega)

/-! ## The claim -/

/-- Every byte that `debuginfo_eip` reads is vouched for. -/
def EipTrusted (m : Phys) (pgdir : Ppn) (undef : Word → Word → Word) (kern : UserStabData)
    (addr : Word) : Prop :=
  Trusted m pgdir [] (debuginfoEip m pgdir undef kern addr).events

/-- No entry of the table is read: a check fails, or the string table is empty, or it does not end in
the last page and its last byte is not 0 or there are no entries. -/
def NoEntryRead (m : Phys) (pgdir : Ppn) (undef : Word → Word → Word) : Prop :=
  AllPass m pgdir undef → (tablesOf m pgdir).stabstr < (tablesOf m pgdir).stabstrEnd →
    (tablesOf m pgdir).stabstrEnd.toNat + 4095 < 2 ^ 32 ∧
      (byteAt m pgdir ((tablesOf m pgdir).stabstrEnd - 1) = 0 → entries undef (tablesOf m pgdir) ≤ 0)

/-- The table holds a whole number of entries, outside `*usd` and the strings. -/
def Separate (m : Phys) (pgdir : Ppn) : Prop :=
  ((tablesOf m pgdir).stabEnd - (tablesOf m pgdir).stabs).toInt % 12 = 0 ∧
    ∀ a : Word, 0 ≤ (a - (tablesOf m pgdir).stabs).toInt →
      (a - (tablesOf m pgdir).stabs).toInt <
        ((tablesOf m pgdir).stabEnd - (tablesOf m pgdir).stabs).toInt →
      ¬ (USTABDATA ≤ a ∧ a < USTABDATA + 16) ∧
        ¬ ((tablesOf m pgdir).stabstr ≤ a ∧ a < (tablesOf m pgdir).stabstrEnd)

/-- A run that does not find its tables does nothing more. -/
theorem stop_events {out : Except String (Option UserStabData)} {events : List Event}
    (hout : ∀ r, out = .ok r → r = none) (init : Eipdebuginfo)
    (k : UserStabData → Traced (Int × Eipdebuginfo)) :
    ((⟨out, events⟩ : Traced (Option UserStabData)) >>= fun r =>
      match r with
      | none => pure (-1, init)
      | some t => k t).events = events := by
  cases out with
  | error e => rfl
  | ok r =>
    obtain rfl : r = none := hout r rfl
    exact List.append_nil events

/-- The run of `debuginfo_eip` below `ULIM`. -/
theorem eip_events (undef : Word → Word → Word) (kern : UserStabData) (haddr : addr < ULIM) :
    (AllPass m pgdir undef ∧ (debuginfoEip m pgdir undef kern addr).events = .checked USTABDATA 16 ::
        ((bytesFrom USTABDATA 16).map .read ++
          .checked (tablesOf m pgdir).stabs (BitVec.ofInt 32 (entries undef (tablesOf m pgdir))) ::
          .checked (tablesOf m pgdir).stabstr
            ((tablesOf m pgdir).stabstrEnd - (tablesOf m pgdir).stabstr) ::
          (eipTables (byteAt m pgdir) undef (tablesOf m pgdir) addr ⟨none, 0, none, 9, addr, 0⟩).events)) ∨
    (¬ AllPass m pgdir undef ∧ EipTrusted m pgdir undef kern addr) := by
  have hlim : ¬ ULIM ≤ addr := BitVec.not_le.mpr haddr
  unfold EipTrusted
  rw [debuginfoEip, if_neg hlim]
  obtain ⟨hall, hrun⟩ | ⟨hno, out, events, hout, hrun, hevents⟩ := userTables_cases m pgdir undef
  · refine .inl ⟨hall, ?_⟩
    rw [hrun, Traced.bind_ok rfl]
    exact congrArg (List.cons _) (List.append_assoc _ _ _)
  · refine .inr ⟨hno, ?_⟩
    rw [hrun]
    refine Eq.mpr (congrArg _ (stop_events hout _ _)) ?_
    obtain rfl | ⟨h1, calls, rfl⟩ := hevents
    · trivial
    · exact (trusted_reads _).mpr ⟨usd_vouched h1, trusted_calls calls⟩

/-- The entry in the middle is outside the range that was checked for the table. -/
theorem mid_not_vouched (hsep : Separate m pgdir) (ht : tablesOf m pgdir = t)
    (h : 1 ≤ entries undef t) (hlt : t.stabstr < t.stabstrEnd) :
    ¬ Vouched m pgdir (ranges undef t) (stabAddr t.stabs (mid 0 (entries undef t - 1)) + 4) := by
  obtain ⟨hmod, hsep⟩ := hsep
  rw [ht] at hmod hsep
  have hcount : entries undef t = (t.stabEnd - t.stabs).toInt / 12 := if_pos hmod
  have hbytes : (t.stabEnd - t.stabs).toInt < 2 ^ 31 := BitVec.toInt_lt
  obtain ⟨n, hn⟩ : ∃ n, entries undef t = n := ⟨_, rfl⟩
  rw [hn] at hcount h ⊢
  obtain ⟨q, hq⟩ : ∃ q : Nat, mid 0 (n - 1) = q :=
    ⟨_, (Int.toNat_of_nonneg (mid_bounds (by omega : 0 ≤ n - 1)).1).symm⟩
  have hmid : mid 0 (n - 1) = (0 + (n - 1)) / 2 := Int.tdiv_eq_ediv_of_nonneg (by omega)
  rw [hq] at hmid ⊢
  have hoff : stabAddr t.stabs q + 4 = t.stabs + BitVec.ofNat 32 (12 * q + 4) := by
    rw [stabAddr, show (12 * (q : Int)) = ((12 * q : Nat) : Int) by omega, BitVec.ofInt_natCast, BitVec.add_assoc,
      BitVec.ofNat_add]
    rfl
  rw [hoff]
  have hval : (t.stabs + BitVec.ofNat 32 (12 * q + 4)).toNat =
      (t.stabs.toNat + (12 * q + 4)) % 2 ^ 32 := by
    rw [BitVec.toNat_add, BitVec.toNat_ofNat]
    omega
  have hdist : (t.stabs + BitVec.ofNat 32 (12 * q + 4) - t.stabs).toInt = 12 * q + 4 := by
    have hnat : (BitVec.ofNat 32 (12 * q + 4)).toNat = 12 * q + 4 := by
      rw [BitVec.toNat_ofNat]
      omega
    rw [BitVec.add_comm, BitVec.add_sub_cancel, BitVec.toInt_eq_toNat_of_lt (by omega), hnat]
    omega
  obtain ⟨husd, hstr⟩ := hsep _ (by rw [hdist]; omega) (by rw [hdist]; omega)
  rintro ⟨⟨c, hc, hge, hlt'⟩, -⟩
  have hstabs := t.stabs.isLt
  simp only [ranges, List.mem_cons, List.not_mem_nil, or_false] at hc
  rw [BitVec.lt_def] at hlt
  rcases hc with rfl | rfl | rfl <;> dsimp only at hge hlt'
  · refine hstr ⟨hge, ?_⟩
    rw [BitVec.lt_def]
    rw [BitVec.toNat_sub] at hlt'
    have hend := t.stabstrEnd.isLt
    omega
  · -- the length is the number of entries
    have hlen : (BitVec.ofInt 32 n).toNat = n.toNat := by
      rw [BitVec.toNat_ofInt]
      omega
    rw [hn, hlen] at hlt'
    rw [hval] at hge hlt'
    by_cases hwrap : t.stabs.toNat + (12 * q + 4) < 2 ^ 32
    · rw [Nat.mod_eq_of_lt hwrap] at hlt'
      omega
    · rw [Nat.mod_eq_sub_mod (not_lt.mp hwrap), Nat.mod_eq_of_lt (by omega)] at hge
      omega
  · exact husd ⟨hge, hlt'⟩

/-- Behind the checks only the tables matter. -/
theorem eipTrusted_iff (kern : UserStabData) (haddr : addr < ULIM) (hall : AllPass m pgdir undef) :
    EipTrusted m pgdir undef kern addr ↔ Trusted m pgdir (ranges undef (tablesOf m pgdir))
      (eipTables (byteAt m pgdir) undef (tablesOf m pgdir) addr ⟨none, 0, none, 9, addr, 0⟩).events := by
  obtain ⟨-, hevents⟩ | ⟨hno, -⟩ := eip_events undef kern haddr
  · rw [EipTrusted, hevents]
    exact (trusted_reads _).trans (and_iff_right (usd_vouched hall.usd))
  · exact absurd hall hno

/-- A run that finds entries reads the one in the middle. -/
theorem EipTrusted.mid (h : EipTrusted m pgdir undef kern addr) (haddr : addr < ULIM)
    (hall : AllPass m pgdir undef) (ht : tablesOf m pgdir = t) (hlt : t.stabstr < t.stabstrEnd)
    (hzero : byteAt m pgdir (t.stabstrEnd - 1) = 0) (hpos : 1 ≤ entries undef t) :
    Vouched m pgdir (ranges undef t) (stabAddr t.stabs (mid 0 (entries undef t - 1)) + 4) := by
  rw [eipTrusted_iff kern haddr hall, ht, eipTables_last (BitVec.not_le.mpr hlt), Trusted,
    if_neg (not_not_intro hzero)] at h
  obtain ⟨bytes, es, hmem, hbytes⟩ := eipSearch_first (byteAt m pgdir) t addr
    ⟨none, 0, none, 9, addr, 0⟩ hpos
  rw [hbytes, trusted_reads] at h
  exact h.2.1 _ hmem

/-- Below `ULIM`, a run that reads no entry is trusted, and when the table holds a whole number of
entries outside the other two objects no other run is. -/
theorem eip_trusted (undef : Word → Word → Word) (kern : UserStabData) (haddr : addr < ULIM) :
    (NoEntryRead m pgdir undef → EipTrusted m pgdir undef kern addr) ∧
      (Separate m pgdir → EipTrusted m pgdir undef kern addr → NoEntryRead m pgdir undef) := by
  obtain ⟨t, ht⟩ : ∃ t, tablesOf m pgdir = t := ⟨_, rfl⟩
  constructor
  · intro hno
    obtain ⟨hall, -⟩ | ⟨-, htrusted⟩ := eip_events undef kern haddr
    swap
    · exact htrusted
    rw [eipTrusted_iff kern haddr hall, ht]
    by_cases hempty : t.stabstrEnd ≤ t.stabstr
    · rw [eipTables_empty hempty]
      trivial
    have hsafe := hno hall
    rw [ht] at hsafe
    obtain ⟨hwrap, hnone⟩ := hsafe (BitVec.not_le.mp hempty)
    rw [eipTables_last hempty]
    refine ⟨(last_vouched hall ht hempty).mpr hwrap, ?_⟩
    by_cases hlast : byteAt m pgdir (t.stabstrEnd - 1) = 0
    · rw [if_neg (not_not_intro hlast), eipSearch_none (hnone hlast)]
      trivial
    · rw [if_pos hlast]
      trivial
  · intro hsep htrusted hall
    rw [ht]
    intro hlt
    constructor
    · have hlast := (eipTrusted_iff kern haddr hall).mp htrusted
      rw [ht, eipTables_last (BitVec.not_le.mpr hlt)] at hlast
      exact (last_vouched hall ht (BitVec.not_le.mpr hlt)).mp hlast.1
    · intro hzero
      by_contra hpos
      exact mid_not_vouched hsep ht (by omega) hlt (htrusted.mid haddr hall ht hlt hzero (by omega))

/-- Nothing is mapped. -/
theorem eip_trusted_unmapped : EipTrusted blankPhys 1 (fun _ _ => 0) ⟨0, 0, 0, 0⟩ 0x800020 := by
  refine (eip_trusted (fun _ _ => 0) ⟨0, 0, 0, 0⟩ (by decide)).1 fun hall => ?_
  obtain ⟨x, hx⟩ := hall.usd
  obtain ⟨-, pte, hwalk, -⟩ := (userMemCheck_ok.mp hx).2 0x200000 (by decide) (by decide) (by decide)
  have hnone : pgdirWalk blankPhys 1 0x200000 false = .ok (none, blankPhys) := rfl
  rw [hnone] at hwalk
  cases hwalk

/-! ## A table in two pages -/

/-- A program with one page, at `USTABDATA`: its table of three entries begins in the last 12 bytes. -/
def stabPhys : Phys :=
  { blankPhys with
    mem := fun p i =>
      if p = 1 then (if i = 0 then 0x2007 else 0)
      else if p = 2 then (if i = 0x200 then 0x3007 else 0)
      else if p = 3 then
        (if i = 0 then 0x200FF4 else if i = 1 then 0x201018 else if i = 2 then 0x200010
          else if i = 3 then 0x200011 else 0)
      else 0 }

theorem stabPhys_passes {va len : Word} (hva : ROUNDDOWN va PGSIZE = 0x200000)
    (hend : ROUNDUP (va + len) PGSIZE = 0x201000) : Passes stabPhys 1 va len := by
  refine ⟨none, userMemCheck_ok.mpr ⟨rfl, fun p hp hge hlt => ?_⟩⟩
  rw [hva, BitVec.le_def] at hge
  rw [hend, BitVec.lt_def] at hlt
  have hlo : (0x200000 : Word).toNat = 2097152 := rfl
  have hhi : (0x201000 : Word).toNat = 2101248 := rfl
  obtain rfl : p = 0x200000 := BitVec.eq_of_toNat_eq (by omega)
  exact ⟨by decide, (2, 0x200), rfl, by decide⟩

/-- `stab_binsearch` looks at the second entry, in a page that is not mapped. -/
theorem eip_reads_unchecked : ¬ EipTrusted stabPhys 1 (fun _ _ => 0) ⟨0, 0, 0, 0⟩ 0x800020 := by
  intro h
  have ht : tablesOf stabPhys 1 = ⟨0x200FF4, 0x201018, 0x200010, 0x200011⟩ := by
    have h0 : wordAt (byteAt stabPhys 1) USTABDATA = 0x200FF4 := by decide
    have h1 : wordAt (byteAt stabPhys 1) (USTABDATA + 4) = 0x201018 := by decide
    have h2 : wordAt (byteAt stabPhys 1) (USTABDATA + 8) = 0x200010 := by decide
    have h3 : wordAt (byteAt stabPhys 1) (USTABDATA + 12) = 0x200011 := by decide
    rw [tablesOf, h0, h1, h2, h3]
  have hn : entries (fun _ _ => 0) ⟨0x200FF4, 0x201018, 0x200010, 0x200011⟩ = 3 := by decide
  have hall : AllPass stabPhys 1 fun _ _ => 0 := by
    refine ⟨stabPhys_passes (by decide) (by decide), ?_, ?_⟩
    · rw [ht, hn]
      exact stabPhys_passes (by decide) (by decide)
    · rw [ht]
      exact stabPhys_passes (by decide) (by decide)
  obtain ⟨-, -, pte, hpte, hbits⟩ := h.mid (by decide) hall ht (by decide) (by decide) (by rw [hn]; decide)
  rw [hn] at hpte
  have hunmapped : pteAt stabPhys 1 (BitVec.ofNat 32 (stabAddr 0x200FF4 (mid 0 (3 - 1)) + 4).toNat) =
      some 0 := rfl
  rw [hunmapped] at hpte
  cases hpte
  exact absurd hbits (by decide)

end

end SisOp.Kdebug
