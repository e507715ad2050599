/-
# `SisOp.Server.FileId` — open-file identifiers over a run of the server

Every time an entry of the table is given out its id grows by `MAXOPEN`; the id goes
to the client as an `int`, and `pageref` is a counter of 16 bits.  As long as neither
runs over (`InRange`), an id is never given out twice and an id whose page the clients
have unmapped is refused for good (`fileids`).
-/
import SisOp.Lib.Run
import SisOp.Server.Buffers

namespace SisOp.Fs

open SisOp.Lib SisOp.Jos

/-! ## Runs -/

/-- The server between two steps of a run. -/
structure Session where
  server : Server
  /-- The entry whose page the reply to the last open can still carry. -/
  reply : Option (Fin MAXOPEN)
  /-- What `openfile_alloc` has returned, latest first. -/
  ids : List Int

def Session.init (m : Machine) : Session := ⟨serveInit m, none, []⟩

def Session.clients (s : Session) (i : Fin MAXOPEN) : Nat := (s.server.fds i).clients

/-- The clients have the page of entry `i` mapped `n` times. -/
def Server.setClients (s : Server) (i : Fin MAXOPEN) (n : Nat) : Server :=
  { s with fds := Function.update s.fds i { s.fds i with clients := n } }

/-- What `openfile_alloc` and `pageref` see of the server is the same. -/
structure SameTable (s s' : Server) : Prop where
  oFileid : ∀ i, (s'.opentab i).oFileid = (s.opentab i).oFileid
  mapped : ∀ i, (s'.fds i).mapped = (s.fds i).mapped
  clients : ∀ i, (s'.fds i).clients = (s.fds i).clients

inductive Event
  /-- A call of `openfile_alloc`, where `sys_page_alloc` would return `palloc`. -/
  | alloc (palloc : Int)
  /-- The reply to an open, with the page of its entry. -/
  | send (i : Fin MAXOPEN)
  /-- A client that has the page maps it again, or shares it. -/
  | map (i : Fin MAXOPEN)
  | unmap (i : Fin MAXOPEN)
  /-- The rest of what the server does. -/
  | serve

inductive Session.Step : Session → Event → Session → Prop
  | alloc (s : Session) (palloc : Int) : Session.Step s (.alloc palloc)
      ⟨(openfileAlloc s.server palloc).2.2, (openfileAlloc s.server palloc).2.1,
        (openfileAlloc s.server palloc).1 :: s.ids⟩
  | send (s : Session) (i : Fin MAXOPEN) (h : s.reply = some i) : Session.Step s (.send i)
      { s with server := s.server.setClients i (s.clients i + 1), reply := none }
  | map (s : Session) (i : Fin MAXOPEN) (h : 0 < s.clients i) : Session.Step s (.map i)
      { s with server := s.server.setClients i (s.clients i + 1) }
  | unmap (s : Session) (i : Fin MAXOPEN) (h : 0 < s.clients i) : Session.Step s (.unmap i)
      { s with server := s.server.setClients i (s.clients i - 1) }
  | serve (s : Session) (server : Server) (h : SameTable s.server server) : Session.Step s .serve
      { s with server := server }

/-! ## The handlers -/

namespace SameTable

variable {s s' s'' : Server}

theorem refl (s : Server) : SameTable s s := ⟨fun _ => rfl, fun _ => rfl, fun _ => rfl⟩

theorem trans (h : SameTable s s') (h' : SameTable s' s'') : SameTable s s'' where
  oFileid i := (h'.oFileid i).trans (h.oFileid i)
  mapped i := (h'.mapped i).trans (h.mapped i)
  clients i := (h'.clients i).trans (h.clients i)

theorem run {α : Type} (s : Server) (p : FsM α) : SameTable s (s.run p).2 :=
  ⟨fun _ => rfl, fun _ => rfl, fun _ => rfl⟩

theorem setFd (s : Server) (i : Fin MAXOPEN) (fd : Fd) : SameTable s (s.setFd i fd) where
  oFileid _ := rfl
  mapped j := by
    unfold Server.setFd
    rcases eq_or_ne j i with rfl | hne
    · simp
    · simp [Function.update_of_ne hne]
  clients j := by
    unfold Server.setFd
    rcases eq_or_ne j i with rfl | hne
    · simp
    · simp [Function.update_of_ne hne]

/-- `o_file` and `o_mode` of an entry. -/
theorem setFile (s : Server) (i : Fin MAXOPEN) (file : Option FilePtr) (mode : Word) :
    SameTable s { s with
      opentab := Function.update s.opentab i { s.opentab i with oFile := file, oMode := mode } } where
  oFileid j := by
    rcases eq_or_ne j i with rfl | hne
    · simp
    · simp [Function.update_of_ne hne]
  mapped _ := rfl
  clients _ := rfl

theorem serveSetSize (s : Server) : SameTable s (serveSetSize s).2 := by
  unfold Fs.serveSetSize
  split
  · exact refl s
  · exact run s _

theorem serveStat (s : Server) : SameTable s (serveStat s).2 := by
  unfold Fs.serveStat
  split
  · exact refl s
  · exact run s _

theorem serveFlush (s : Server) : SameTable s (serveFlush s).2 := by
  unfold Fs.serveFlush
  split
  · exact refl s
  · exact run s _

theorem serveSync (s : Server) : SameTable s (serveSync s).2 := run s _

theorem serveRead (s : Server) : SameTable s (serveRead s).2 := by
  unfold Fs.serveRead
  split
  · exact refl s
  · rename_i i hi
    have hrun := run s (do fileRead (← theFile (s.opentab i)) FSREQ s.readCount (s.fds i).fd.fdOffset)
    simp only
    split
    · rename_i heq
      rw [heq] at hrun
      exact hrun
    · rename_i heq
      rw [heq] at hrun
      split
      · exact hrun
      · exact hrun.trans (setFd _ _ _)

theorem serveWrite (s : Server) : SameTable s (serveWrite s).2 := by
  unfold Fs.serveWrite
  split
  · exact refl s
  · rename_i i hi
    have hrun := run s (do fileWrite (← theFile (s.opentab i)) REQ_BUF s.reqN (s.fds i).fd.fdOffset)
    simp only
    split
    · rename_i heq
      rw [heq] at hrun
      exact hrun
    · rename_i r s1 heq
      rw [heq] at hrun
      split
      · exact hrun
      · have hgrow := run s1 (do
          growTo (← theFile (s1.opentab i)) ((s.fds i).fd.fdOffset + BitVec.ofInt 32 r))
        split
        · rename_i heq'
          rw [heq'] at hgrow
          exact hrun.trans hgrow
        · rename_i heq'
          rw [heq'] at hgrow
          exact (hrun.trans hgrow).trans (setFd _ _ _)

/-- `serve_open` changes ids and pages in `openfile_alloc` only. -/
theorem serveOpen (s : Server) (palloc : Int) :
    SameTable (openfileAlloc s palloc).2.2 (serveOpen s palloc).2 := by
  unfold Fs.serveOpen
  split
  · rename_i heq
    rw [heq]
    exact refl _
  · rename_i r i s1 heq
    rw [heq]
    split
    · exact refl _
    · have hrun := run s1 (openPath s1.reqPath s1.reqOmode)
      split
      · rename_i heq'
        rw [heq'] at hrun
        exact hrun
      · rename_i heq'
        rw [heq'] at hrun
        exact hrun
      · rename_i heq'
        rw [heq'] at hrun
        exact (hrun.trans (setFile _ _ _ _)).trans (setFd _ _ _)

end SameTable

/-! ## `openfile_alloc` -/

/-- Entry `i` is given out, its page mapped anew if `pageref` finds it unmapped. -/
def Server.given (s : Server) (i : Fin MAXOPEN) : Server :=
  if s.pageref i = 0 then (s.newPage i).handOut i else s.handOut i

/-- What `openfile_alloc` can do. -/
inductive Allocated (s : Server) (palloc : Int) : Int × Option (Fin MAXOPEN) × Server → Prop
  | full (h : ∀ i, 1 < s.pageref i) : Allocated s palloc (-E_MAX_OPEN, none, s)
  | failed (i : Fin MAXOPEN) (hi : s.available = some i) (h : s.pageref i = 0) (hp : palloc < 0) :
      Allocated s palloc (palloc, none, s)
  | given (i : Fin MAXOPEN) (hi : s.available = some i) (h : s.pageref i = 0 → 0 ≤ palloc) :
      Allocated s palloc
        (((s.opentab i).oFileid + BitVec.ofNat 32 MAXOPEN).toInt, some i, s.given i)

@[simp] theorem Server.given_oFileid_self (s : Server) (i : Fin MAXOPEN) :
    ((s.given i).opentab i).oFileid = (s.opentab i).oFileid + BitVec.ofNat 32 MAXOPEN := by
  unfold Server.given
  split <;> simp [Server.handOut, Server.newPage]

theorem Server.given_oFileid_of_ne (s : Server) {i j : Fin MAXOPEN} (h : j ≠ i) :
    ((s.given i).opentab j).oFileid = (s.opentab j).oFileid := by
  unfold Server.given
  split <;> simp [Server.handOut, Server.newPage, Function.update_of_ne h]

theorem Server.given_clients {s : Server} {i : Fin MAXOPEN} (h : (s.fds i).clients = 0)
    (j : Fin MAXOPEN) : ((s.given i).fds j).clients = (s.fds j).clients := by
  unfold Server.given
  rcases eq_or_ne j i with rfl | hne
  · split <;> simp [Server.handOut, Server.newPage, h]
  · split <;> simp [Server.handOut, Server.newPage, Function.update_of_ne hne]

theorem Server.given_mapped_of_ne (s : Server) {i j : Fin MAXOPEN} (h : j ≠ i) :
    ((s.given i).fds j).mapped = (s.fds j).mapped := by
  unfold Server.given
  split <;> simp [Server.handOut, Server.newPage, Function.update_of_ne h]

theorem Server.given_mapped_self (s : Server) (i : Fin MAXOPEN) :
    ((s.given i).fds i).mapped = true := by
  unfold Server.given
  split
  · simp [Server.handOut, Server.newPage]
  · rename_i hpage
    have hmapped : (s.fds i).mapped = true := by
      by_contra hno
      exact hpage (if_neg hno)
    simpa [Server.handOut] using hmapped

theorem openfileAlloc_cases (s : Server) (palloc : Int) :
    Allocated s palloc (openfileAlloc s palloc) := by
  unfold openfileAlloc
  rcases hi : s.available with _ | i
  · refine .full fun i => ?_
    unfold Server.available at hi
    have hnone := List.find?_eq_none.mp hi i (List.mem_finRange i)
    simpa using hnone
  · by_cases hzero : s.pageref i = 0
    · by_cases hp : palloc < 0
      · simp only [hzero, hp, if_true]
        exact .failed i hi hzero hp
      · have hgiven : s.given i = (s.newPage i).handOut i := if_pos hzero
        have hret := s.given_oFileid_self i
        simp only [hzero, hp, if_true, if_false]
        rw [← hgiven, hret]
        exact .given i hi fun _ => not_lt.mp hp
    · have hgiven : s.given i = s.handOut i := if_neg hzero
      have hret := s.given_oFileid_self i
      simp only [hzero, if_false]
      rw [← hgiven, hret]
      exact .given i hi fun h => (hzero h).elim

theorem Server.available_pageref {s : Server} {i : Fin MAXOPEN} (h : s.available = some i) :
    s.pageref i ≤ 1 := by
  unfold Server.available at h
  simpa using List.find?_some h

theorem openfileAlloc_given {s : Server} (palloc : Int) {i : Fin MAXOPEN}
    (hi : s.available = some i) (hp : 0 ≤ palloc) : openfileAlloc s palloc =
      (((s.opentab i).oFileid + BitVec.ofNat 32 MAXOPEN).toInt, some i, s.given i) := by
  have hcase := openfileAlloc_cases s palloc
  generalize openfileAlloc s palloc = res at hcase
  cases hcase with
  | full hfull => exact absurd (Server.available_pageref hi) (hfull i).not_ge
  | failed j hj hzero hneg => exact absurd hp hneg.not_ge
  | given j hj _ =>
      cases hi.symm.trans hj
      rfl

/-! ## The invariant -/

/-- No counter has run over. -/
structure Ordered (s : Session) : Prop where
  index : ∀ i, (s.server.opentab i).oFileid.toNat % MAXOPEN = i
  small : ∀ i, (s.server.opentab i).oFileid.toNat < 2 ^ 31
  unmapped : ∀ i, (s.server.fds i).mapped = false → s.clients i = 0
  few : ∀ i, s.clients i < 2 ^ 16 - 1
  /-- An id given out is not above the last one of its entry. -/
  old : ∀ id ∈ s.ids, ∀ i : Fin MAXOPEN, id % MAXOPEN = i →
    id ≤ ((s.server.opentab i).oFileid.toNat : Int)
  replied : ∀ i, s.reply = some i → (s.server.fds i).mapped = true

/-- The condition: the next id of the entry given out still is an `int`, and no page is mapped
65535 times by the clients. -/
def InRange (s : Session) : Event → Prop
  | .alloc palloc => ∀ i, s.server.available = some i →
      s.server.pageref i = 0 ∧ palloc < 0 ∨
        (s.server.opentab i).oFileid.toNat + MAXOPEN < 2 ^ 31
  | .send i => s.clients i + 1 < 2 ^ 16 - 1
  | .map i => s.clients i + 1 < 2 ^ 16 - 1
  | .unmap _ => True
  | .serve => True

theorem Session.clients_pageref {s : Session} (h : Ordered s) (i : Fin MAXOPEN) :
    s.server.pageref i ≤ 1 ↔ s.clients i = 0 := by
  have hfew := h.few i
  unfold Server.pageref FdPage.pageref
  unfold Session.clients at *
  split
  · rw [Nat.mod_eq_of_lt (by omega)]
    omega
  · rename_i hmapped
    have hzero := h.unmapped i (Bool.eq_false_iff.mpr hmapped)
    unfold Session.clients at hzero
    omega

theorem toNat_add_MAXOPEN {w : Word} (h : w.toNat + MAXOPEN < 2 ^ 31) :
    (w + BitVec.ofNat 32 MAXOPEN).toNat = w.toNat + MAXOPEN := by
  have hval : MAXOPEN = 1024 := rfl
  rw [BitVec.toNat_add, hval, BitVec.toNat_ofNat]
  omega

theorem ordered_init (m : Machine) : Ordered (.init m) where
  index i := by
    have hlt := i.isLt
    have hval : MAXOPEN = 1024 := rfl
    show (BitVec.ofNat 32 i).toNat % MAXOPEN = i
    rw [BitVec.toNat_ofNat, Nat.mod_eq_of_lt (b := 2 ^ 32) (by omega), Nat.mod_eq_of_lt hlt]
  small i := by
    have hlt := i.isLt
    have hval : MAXOPEN = 1024 := rfl
    show (BitVec.ofNat 32 i).toNat < 2 ^ 31
    rw [BitVec.toNat_ofNat]
    omega
  unmapped _ _ := rfl
  few _ := show 0 < 2 ^ 16 - 1 by decide
  old _ h := by cases h
  replied _ h := by cases h

theorem Server.setClients_clients (s : Server) (i j : Fin MAXOPEN) (n : Nat) :
    ((s.setClients i n).fds j).clients = if j = i then n else (s.fds j).clients := by
  unfold Server.setClients
  split
  · rename_i heq
    subst heq
    simp
  · rename_i hne
    simp [Function.update_of_ne hne]

theorem Server.setClients_mapped (s : Server) (i j : Fin MAXOPEN) (n : Nat) :
    ((s.setClients i n).fds j).mapped = (s.fds j).mapped := by
  unfold Server.setClients
  rcases eq_or_ne j i with rfl | hne
  · simp
  · simp [Function.update_of_ne hne]

/-- A page that is mapped, or that a client has, can be mapped by the clients `n` times. -/
theorem Ordered.setClients {s : Session} (h : Ordered s) {i : Fin MAXOPEN} {n : Nat}
    (hn : n < 2 ^ 16 - 1) (hmapped : (s.server.fds i).mapped = false → n = 0)
    {reply : Option (Fin MAXOPEN)} (hreply : ∀ j, reply = some j → s.reply = some j) :
    Ordered ⟨s.server.setClients i n, reply, s.ids⟩ where
  index := h.index
  small := h.small
  unmapped j hj := by
    rw [Server.setClients_mapped] at hj
    unfold Session.clients
    rw [Server.setClients_clients]
    split
    · rename_i heq
      subst heq
      exact hmapped hj
    · exact h.unmapped j hj
  few j := by
    unfold Session.clients
    rw [Server.setClients_clients]
    split
    · exact hn
    · exact h.few j
  old := h.old
  replied j hj := (Server.setClients_mapped _ _ _ _).trans (h.replied j (hreply j hj))

theorem Ordered.given {s : Session} (h : Ordered s) {i : Fin MAXOPEN}
    (hi : s.server.available = some i)
    (hroom : (s.server.opentab i).oFileid.toNat + MAXOPEN < 2 ^ 31) :
    Ordered ⟨s.server.given i, some i,
      ((s.server.opentab i).oFileid + BitVec.ofNat 32 MAXOPEN).toInt :: s.ids⟩ := by
  have hadd := toNat_add_MAXOPEN hroom
  have hfree := (Session.clients_pageref h i).mp (Server.available_pageref hi)
  have hclients : ∀ j, ((s.server.given i).fds j).clients = s.clients j :=
    Server.given_clients hfree
  refine ⟨fun j => ?_, fun j => ?_, fun j hj => ?_, fun j => ?_, fun id hid j hj => ?_,
    fun j hj => ?_⟩
  · rcases eq_or_ne j i with rfl | hne
    · simp only [Server.given_oFileid_self, hadd, Nat.add_mod_right]
      exact h.index j
    · simp only [Server.given_oFileid_of_ne _ hne]
      exact h.index j
  · rcases eq_or_ne j i with rfl | hne
    · simp only [Server.given_oFileid_self, hadd]
      exact hroom
    · simp only [Server.given_oFileid_of_ne _ hne]
      exact h.small j
  · rcases eq_or_ne j i with rfl | hne
    · exact (hclients j).trans hfree
    · exact (hclients j).trans (h.unmapped j ((Server.given_mapped_of_ne _ hne).symm.trans hj))
  · exact (hclients j).trans_lt (h.few j)
  · have hint : ((s.server.opentab i).oFileid + BitVec.ofNat 32 MAXOPEN).toInt =
        ((s.server.opentab i).oFileid.toNat + MAXOPEN : Nat) := by
      rw [BitVec.toInt_eq_toNat_of_lt (by omega), hadd]
    rcases eq_or_ne j i with rfl | hne
    · simp only [Server.given_oFileid_self, hadd]
      rcases List.mem_cons.mp hid with heq | hid
      · exact (heq.trans hint).le
      · exact (h.old id hid j hj).trans (by omega)
    · simp only [Server.given_oFileid_of_ne _ hne]
      rcases List.mem_cons.mp hid with heq | hid
      · -- the id of entry `i` is not one of entry `j`
        rw [heq, hint, ← Int.natCast_mod, Nat.add_mod_right, h.index i] at hj
        exact (hne (Fin.ext (Int.ofNat_inj.mp hj.symm))).elim
      · exact h.old id hid j hj
  · cases hj
    exact Server.given_mapped_self _ _

/-- What a failed call returns is negative. -/
theorem Ordered.failed {s : Session} (h : Ordered s) {r : Int} (hr : r < 0) :
    Ordered ⟨s.server, none, r :: s.ids⟩ where
  index := h.index
  small := h.small
  unmapped := h.unmapped
  few := h.few
  old id hid i hi := by
    rcases List.mem_cons.mp hid with rfl | hid
    · show id ≤ ((s.server.opentab i).oFileid.toNat : Int)
      omega
    · exact h.old id hid i hi
  replied _ hi := by cases hi

theorem Ordered.sameTable {s : Session} (h : Ordered s) {server : Server}
    (hsame : SameTable s.server server) : Ordered { s with server := server } where
  index i := by
    simp only [hsame.oFileid]
    exact h.index i
  small i := by
    simp only [hsame.oFileid]
    exact h.small i
  unmapped i hi := (hsame.clients i).trans (h.unmapped i ((hsame.mapped i).symm.trans hi))
  few i := (hsame.clients i).trans_lt (h.few i)
  old id hid i hi := by
    simp only [hsame.oFileid]
    exact h.old id hid i hi
  replied i hi := (hsame.mapped i).trans (h.replied i hi)

theorem Ordered.step {s s' : Session} {e : Event} (h : Ordered s)
    (hstep : Guarded InRange Session.Step s e s') : Ordered s' := by
  obtain ⟨hrange, hstep⟩ := hstep
  cases hstep with
  | alloc palloc =>
      have hcase := openfileAlloc_cases s.server palloc
      simp only [InRange] at hrange
      generalize openfileAlloc s.server palloc = res at hcase
      cases hcase with
      | full _ => exact h.failed (r := -E_MAX_OPEN) (by decide)
      | failed i hi hzero hp => exact h.failed hp
      | given i hi hp =>
          rcases hrange i hi with ⟨hzero, hneg⟩ | hroom
          · exact absurd (hp hzero) (not_le.mpr hneg)
          · dsimp only
            exact h.given hi hroom
  | send i hi =>
      simp only [InRange] at hrange
      refine h.setClients (n := s.clients i + 1) hrange (fun hno => ?_) fun j hj => by cases hj
      rw [h.replied i hi] at hno
      cases hno
  | map i hi =>
      simp only [InRange] at hrange
      refine h.setClients (n := s.clients i + 1) hrange (fun hno => ?_) fun j hj => hj
      exact absurd (h.unmapped i hno) hi.ne'
  | unmap i hi =>
      refine h.setClients (by have := h.few i; omega) (fun hno => ?_) fun j hj => hj
      exact absurd (h.unmapped i hno) hi.ne'
  | serve server hsame => exact h.sameTable hsame

/-! ## What the claim on identifiers says -/

/-- `openfile_alloc` gives out a new id, or has a reason not to. -/
def AllocOk (s : Session) (palloc : Int) : Prop :=
  match openfileAlloc s.server palloc with
  | (r, some i, _) => 0 ≤ r ∧ r ∉ s.ids ∧ r % MAXOPEN = i ∧ s.clients i = 0
  | (r, none, _) => r = -E_MAX_OPEN ∧ (∀ i, 0 < s.clients i) ∨ r = palloc ∧ palloc < 0

/-- The id was given out, and no client has the page of its entry any more. -/
structure Closed (s : Session) (id : Int) : Prop where
  mem : id ∈ s.ids
  nonneg : 0 ≤ id
  clients : ∀ i : Fin MAXOPEN, id % MAXOPEN = i → s.clients i = 0
  reply : ∀ i : Fin MAXOPEN, id % MAXOPEN = i → s.reply ≠ some i

/-- What stays true of a closed id: its entry has a later one, or nobody has its page. -/
structure Stale (s : Session) (id : Int) : Prop where
  nonneg : 0 ≤ id
  bound : ∀ i : Fin MAXOPEN, id % MAXOPEN = i → id ≤ ((s.server.opentab i).oFileid.toNat : Int)
  later : ∀ i : Fin MAXOPEN, id % MAXOPEN = i → id < ((s.server.opentab i).oFileid.toNat : Int) ∨
    s.clients i = 0 ∧ s.reply ≠ some i

theorem allocOk_iff {s : Session} (h : Ordered s) (palloc : Int) :
    AllocOk s palloc ↔ InRange s (.alloc palloc) := by
  unfold AllocOk
  simp only [InRange]
  have hcase := openfileAlloc_cases s.server palloc
  generalize openfileAlloc s.server palloc = res at hcase
  cases hcase with
  | full hfull =>
      refine ⟨fun _ i hi => ?_, fun _ => .inl ⟨rfl, fun i => Nat.pos_of_ne_zero fun hzero => ?_⟩⟩
      · exact absurd (Server.available_pageref hi) (hfull i).not_ge
      · exact absurd ((Session.clients_pageref h i).mpr hzero) (hfull i).not_ge
  | failed i hi hzero hp =>
      refine ⟨fun _ j hj => ?_, fun _ => .inr ⟨rfl, hp⟩⟩
      cases hi.symm.trans hj
      exact .inl ⟨hzero, hp⟩
  | given i hi hp =>
      have hfree := (Session.clients_pageref h i).mp (Server.available_pageref hi)
      refine ⟨fun hok j hj => ?_, fun hrange => ?_⟩
      · cases hi.symm.trans hj
        refine .inr (not_le.mp fun hbig => ?_)
        have hsmall := h.small i
        have hneg : ((s.server.opentab i).oFileid + BitVec.ofNat 32 MAXOPEN).toInt < 0 := by
          have hval : MAXOPEN = 1024 := rfl
          rw [BitVec.toInt_neg_iff, BitVec.toNat_add, BitVec.toNat_ofNat]
          omega
        exact absurd hok.1 hneg.not_ge
      · rcases hrange i hi with ⟨hzero, hneg⟩ | hroom
        · exact absurd (hp hzero) (not_le.mpr hneg)
        · have hadd := toNat_add_MAXOPEN hroom
          have hint : ((s.server.opentab i).oFileid + BitVec.ofNat 32 MAXOPEN).toInt =
              ((s.server.opentab i).oFileid.toNat + MAXOPEN : Nat) := by
            rw [BitVec.toInt_eq_toNat_of_lt (by omega), hadd]
          have hmod : ((s.server.opentab i).oFileid + BitVec.ofNat 32 MAXOPEN).toInt % MAXOPEN =
              i := by
            rw [hint, ← Int.natCast_mod, Nat.add_mod_right, h.index i]
          refine ⟨by omega, fun hmem => ?_, hmod, hfree⟩
          have hold := h.old _ hmem i hmod
          have hval : MAXOPEN = 1024 := rfl
          omega

theorem Closed.stale {s : Session} {id : Int} (hs : Ordered s) (h : Closed s id) : Stale s id :=
  ⟨h.nonneg, hs.old id h.mem, fun i hi => .inr ⟨h.clients i hi, h.reply i hi⟩⟩

/-- The id of the entry never comes back: it only grows. -/
theorem given_later {s : Session} {i j : Fin MAXOPEN}
    (hroom : (s.server.opentab i).oFileid.toNat + MAXOPEN < 2 ^ 31) :
    (s.server.opentab j).oFileid.toNat ≤ ((s.server.given i).opentab j).oFileid.toNat ∧
      (j = i → (s.server.opentab j).oFileid.toNat < ((s.server.given i).opentab j).oFileid.toNat) := by
  rcases eq_or_ne j i with rfl | hne
  · have hval : MAXOPEN = 1024 := rfl
    rw [Server.given_oFileid_self, toNat_add_MAXOPEN hroom]
    omega
  · rw [Server.given_oFileid_of_ne _ hne]
    exact ⟨le_rfl, fun heq => (hne heq).elim⟩

/-- The ids of the table only grow. -/
theorem oFileid_mono {s s' : Session} {e : Event} (hstep : Guarded InRange Session.Step s e s')
    (j : Fin MAXOPEN) :
    (s.server.opentab j).oFileid.toNat ≤ (s'.server.opentab j).oFileid.toNat := by
  obtain ⟨hrange, hstep⟩ := hstep
  cases hstep with
  | alloc palloc =>
      have hcase := openfileAlloc_cases s.server palloc
      simp only [InRange] at hrange
      generalize openfileAlloc s.server palloc = res at hcase
      cases hcase with
      | full _ => exact le_rfl
      | failed i hi hzero hp => exact le_rfl
      | given i hi hp =>
          rcases hrange i hi with ⟨hzero, hneg⟩ | hroom
          · exact absurd (hp hzero) (not_le.mpr hneg)
          · exact (given_later hroom).1
  | send i hi => exact le_rfl
  | map i hi => exact le_rfl
  | unmap i hi => exact le_rfl
  | serve server hsame => exact (congrArg BitVec.toNat (hsame.oFileid j)).ge

theorem Stale.step {s s' : Session} {e : Event} {id : Int} (h : Ordered s) (hid : Stale s id)
    (hstep : Guarded InRange Session.Step s e s') : Stale s' id := by
  obtain ⟨hrange, hstep⟩ := hstep
  refine ⟨hid.nonneg, fun j hj => (hid.bound j hj).trans ?_, fun j hj => ?_⟩
  · exact Int.ofNat_le.mpr (oFileid_mono ⟨hrange, hstep⟩ j)
  have hbound := hid.bound j hj
  have hj' := hid.later j hj
  cases hstep with
  | alloc palloc =>
      have hcase := openfileAlloc_cases s.server palloc
      simp only [InRange] at hrange
      generalize openfileAlloc s.server palloc = res at hcase
      cases hcase with
      | full _ => exact hj'.imp_right fun hno => ⟨hno.1, by simp⟩
      | failed i hi hzero hp => exact hj'.imp_right fun hno => ⟨hno.1, by simp⟩
      | given i hi hp =>
          rcases hrange i hi with ⟨hzero, hneg⟩ | hroom
          · exact absurd (hp hzero) (not_le.mpr hneg)
          · have hlater := given_later (j := j) hroom
            rcases hj' with hlt | hno
            · exact .inl (hlt.trans_le (Int.ofNat_le.mpr hlater.1))
            · rcases eq_or_ne j i with rfl | hne
              · exact .inl (hbound.trans_lt (Int.ofNat_lt.mpr (hlater.2 rfl)))
              · have hfree := (Session.clients_pageref h i).mp (Server.available_pageref hi)
                refine .inr ⟨(Server.given_clients hfree j).trans hno.1, ?_⟩
                simpa using hne.symm
  | send i hi =>
      refine hj'.imp_right fun hno => ⟨?_, by simp⟩
      have hne : j ≠ i := fun heq => hno.2 (heq ▸ hi)
      exact (Server.setClients_clients _ _ _ _).trans ((if_neg hne).trans hno.1)
  | map i hi =>
      refine hj'.imp_right fun hno => ⟨?_, hno.2⟩
      have hne : j ≠ i := fun heq => hi.ne' (heq ▸ hno.1)
      exact (Server.setClients_clients _ _ _ _).trans ((if_neg hne).trans hno.1)
  | unmap i hi =>
      refine hj'.imp_right fun hno => ⟨?_, hno.2⟩
      have hne : j ≠ i := fun heq => hi.ne' (heq ▸ hno.1)
      exact (Server.setClients_clients _ _ _ _).trans ((if_neg hne).trans hno.1)
  | serve server hsame =>
      rcases hj' with hlt | hno
      · left
        simp only [hsame.oFileid]
        exact hlt
      · exact .inr ⟨(hsame.clients j).trans hno.1, hno.2⟩

/-- `openfile_lookup` refuses a stale id. -/
theorem Stale.lookup {s : Session} {id : Int} (h : Ordered s) (hid : Stale s id) :
    openfileLookup s.server (BitVec.ofInt 32 id) = none := by
  let i : Fin MAXOPEN := Fin.ofNat MAXOPEN id.toNat
  have hnonneg := hid.nonneg
  have hi : id % MAXOPEN = i := by
    show id % MAXOPEN = ((id.toNat % MAXOPEN : Nat) : Int)
    rw [Int.natCast_mod, Int.toNat_of_nonneg hnonneg]
  have hbound := hid.bound i hi
  have hsmall := h.small i
  have hword : (BitVec.ofInt 32 id).toNat = id.toNat := by
    rw [BitVec.toNat_ofInt]
    omega
  have hslot : slotIndex (BitVec.ofInt 32 id) = i := by
    unfold slotIndex
    rw [hword]
  unfold openfileLookup
  rw [hslot]
  refine if_pos ?_
  rcases hid.later i hi with hlt | hno
  · right
    intro heq
    rw [heq, hword] at hlt
    omega
  · exact .inl ((Session.clients_pageref h i).mpr hno.1)

theorem ordered_run {m : Machine} {s : Session} {tr : List Event}
    (hrun : Run (Guarded InRange Session.Step) (.init m) tr s) : Ordered s :=
  hrun.preserves (fun _ _ _ h => h.step) (ordered_init m)

theorem stale_run {s s' : Session} {tr : List Event} {id : Int} (h : Ordered s) (hid : Stale s id)
    (hrun : Run (Guarded InRange Session.Step) s tr s') : Ordered s' ∧ Stale s' id :=
  hrun.preserves (I := fun s => Ordered s ∧ Stale s id)
    (fun _ _ _ h hstep => ⟨h.1.step hstep, h.2.step h.1 hstep⟩) ⟨h, hid⟩

theorem available_first {s : Server} (h : s.pageref 0 ≤ 1) : s.available = some 0 := by
  unfold Server.available
  rw [show List.finRange MAXOPEN = 0 :: (List.finRange 1023).map Fin.succ from List.finRange_succ]
  exact List.find?_cons_of_pos (decide_eq_true h)

theorem available_of_clients {s : Session} (h : s.clients 0 = 0) : s.server.available = some 0 := by
  refine available_first ?_
  unfold Session.clients at h
  unfold Server.pageref FdPage.pageref
  split <;> omega

/-- Opens that fail after `openfile_alloc`, one after the other. -/
def opens (m : Machine) : Nat → Session
  | 0 => .init m
  | k + 1 =>
      ⟨(openfileAlloc (opens m k).server 0).2.2, (openfileAlloc (opens m k).server 0).2.1,
        (openfileAlloc (opens m k).server 0).1 :: (opens m k).ids⟩

theorem opens_first (m : Machine) (k : Nat) : (opens m k).clients 0 = 0 ∧
    ((opens m k).server.opentab 0).oFileid = BitVec.ofNat 32 (MAXOPEN * k) := by
  induction k with
  | zero =>
      rw [Nat.mul_zero]
      exact ⟨rfl, rfl⟩
  | succ k ih =>
      obtain ⟨hclients, hid⟩ := ih
      unfold Session.clients opens
      rw [openfileAlloc_given 0 (available_of_clients hclients) le_rfl]
      refine ⟨(Server.given_clients hclients 0).trans hclients, ?_⟩
      rw [Server.given_oFileid_self, hid, ← BitVec.ofNat_add, Nat.mul_succ]

theorem opens_run (m : Machine) {k : Nat} (hk : k < 2 ^ 21) :
    Run (Guarded InRange Session.Step) (.init m) (List.replicate k (.alloc 0)) (opens m k) := by
  induction k with
  | zero => exact .nil _
  | succ k ih =>
      rw [List.replicate_succ']
      refine (ih (by omega)).snoc ⟨fun i hi => .inr ?_, .alloc _ 0⟩
      cases (available_of_clients (opens_first m k).1).symm.trans hi
      have hval : MAXOPEN = 1024 := rfl
      rw [(opens_first m k).2, BitVec.toNat_ofNat, hval]
      omega

/-- The first id is given out, its page sent and unmapped. -/
theorem closed_once (m : Machine) : ∃ s, Run (Guarded InRange Session.Step) (.init m)
    [.alloc 0, .send 0, .unmap 0] s ∧ Closed s 1024 := by
  have hopen := openfileAlloc_given 0
    (available_of_clients (s := .init m) rfl) le_rfl
  have hclients := (opens_first m 1).1
  have hreply : (opens m 1).reply = some 0 := congrArg (fun r => r.2.1) hopen
  have hids : (opens m 1).ids = [1024] := by
    have hfirst : ((Session.init m).server.opentab 0).oFileid = 0 := rfl
    unfold opens
    rw [show (opens m 0).server = (Session.init m).server from rfl, hopen, hfirst]
    show [((0 : Word) + BitVec.ofNat 32 MAXOPEN).toInt] = [1024]
    decide
  let sent : Session :=
    { opens m 1 with server := (opens m 1).server.setClients 0 ((opens m 1).clients 0 + 1), reply := none }
  have hsent : sent.clients 0 = 1 := by
    have hset := Server.setClients_clients (opens m 1).server 0 0 ((opens m 1).clients 0 + 1)
    exact hset.trans (by rw [if_pos rfl, hclients])
  have hsend : Guarded InRange Session.Step (opens m 1) (.send 0) sent :=
    ⟨by rw [InRange, hclients]; decide, .send _ 0 hreply⟩
  have hunmap : Guarded InRange Session.Step sent (.unmap 0)
      { sent with server := sent.server.setClients 0 (sent.clients 0 - 1) } :=
    ⟨trivial, .unmap _ 0 (by omega)⟩
  refine ⟨_, ((opens_run m (k := 1) (by decide)).snoc hsend).snoc hunmap, ?_⟩
  refine ⟨hids ▸ List.mem_singleton_self _, by decide, fun i hi => ?_, fun i _ hno => by cases hno⟩
  have hzero : i = 0 := Fin.ext (Int.ofNat_inj.mp hi.symm)
  subst hzero
  exact (Server.setClients_clients _ _ _ _).trans (congrArg (· - 1) hsent)

end SisOp.Fs
