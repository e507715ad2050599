/-
# `SisOp.User.Fsipc` — a client and the file server

`fsipc` of `lib/file.c`, with `ipc_send` and `ipc_recv` of `lib/ipc.c`, against the
loop of `fs/serv.c` and any number of third parties.  `ipc_recv` takes a message from
anyone, so `fsipc` returns what the server computed as long as no third party gets a
message through to the client (`fsipc_paired`).
-/
import SisOp.Lib.Run
import SisOp.Server.Serve
import SisOp.User.Mailbox

namespace SisOp.User

open SisOp.Lib SisOp.Jos SisOp.Fs

/-- A page that is sent: the `fsipcbuf` of a client, or the `Fd` page of an entry. -/
inductive Parcel
  | fsipcbuf (words : Block)
  | fd (i : Fin MAXOPEN)

/-- `PTE_P | PTE_W | PTE_U`. -/
def reqPerm : Word := 0x7

/-- `PTE_P | PTE_U | PTE_W | PTE_SHARE`. -/
def fdPerm : Word := 0x407

def fsreqVa : Word := 0x0FFFF000

inductive ClientPc
  /-- Between two calls of `fsipc`. -/
  | idle
  /-- In `ipc_send(fsenv, type, &fsipcbuf, ..)`. -/
  | sending (type : Word) (buf : Block) (dstva : Option Word)
  /-- About to call `sys_ipc_recv`. -/
  | sent (dstva : Option Word)
  /-- In `sys_ipc_recv`, or woken from it. -/
  | waiting
  /-- `ipc_send` panicked. -/
  | dead

inductive ServerPc
  /-- About to call `sys_ipc_recv`. -/
  | ready
  | waiting
  /-- In `ipc_send(whom, r, pg, perm)`. -/
  | replying (whom r : Word) (pg : Option Parcel) (perm : Word)
  | dead

/-- The client, the server and what the kernel keeps for them. -/
structure Parties where
  client : ClientPc
  server : ServerPc
  cbox : Mailbox Parcel
  sbox : Mailbox Parcel
  fs : Server
  /-- The replies computed for requests of the client, latest first. -/
  computed : List (Word × Option Parcel)
  /-- What its calls of `fsipc` returned, and the page each of them mapped, latest first. -/
  returned : List (Word × Option Parcel)

def Mailbox.empty : Mailbox Parcel := ⟨false, 0, 0, 0, 0, none⟩

def Parties.init (fs : Server) : Parties := ⟨.idle, .ready, .empty, .empty, fs, [], []⟩

/-- The words at `fsreq`. -/
def Parcel.words (fs : Server) : Parcel → Block
  | .fsipcbuf words => words
  | .fd i => fun k =>
      let fd := (fs.fds i).fd
      if k = 0 then fd.fdDevId else if k = 1 then fd.fdOffset else if k = 2 then fd.fdOmode
      else if k = 3 then fd.fdFileId else 0

/-- Where `ipc_send` stands after a try that returned `ret`. -/
def afterTry {pc : Type} (ret : Int) (sent same dead : pc) : pc :=
  if ret = 0 then sent else if ret = -E_IPC_NOT_RECV then same else dead

/-- The body of the loop of `serve`, from the message to the reply. -/
def Parties.handle (s : Parties) (cid : Word) (palloc : Int) : Parties :=
  match s.sbox.mapped with
  | none => { s with server := .ready }
  | some page =>
      if s.sbox.perm &&& PTE_P = 0 then { s with server := .ready }
      else
        let fs := { s.fs with mach := { s.fs.mach with req := page.words s.fs } }
        match serveRequest fs s.sbox.value palloc with
        | (.error _, fs) => { s with server := .dead, fs := fs }
        | (.ok (r, pg), fs) =>
            let r := BitVec.ofInt 32 r
            let page := pg.map Parcel.fd
            { s with
              server := .replying s.sbox.sender r page (if pg.isSome then fdPerm else s.sbox.perm)
              fs := fs
              computed := if s.sbox.sender = cid then (r, page) :: s.computed else s.computed }

inductive IpcEvent
  | call (type : Word) (buf : Block) (dstva : Option Word)
  | clientSend (ret : Int)
  | clientRecv
  | clientReturn
  | serverRecv
  | serverHandle (palloc : Int)
  | serverReply (ret : Int)
  /-- A third party sends to the client. -/
  | foreignClient (m : Msg Parcel) (ret : Int)
  /-- Another client sends to the server. -/
  | foreignServer (m : Msg Parcel) (ret : Int)

/-- The steps; the client's id is `cid`, the server's `sid`. -/
inductive Parties.Step (cid sid : Word) : Parties → IpcEvent → Parties → Prop
  /-- `dstva` is null or the page of an `Fd`. -/
  | call (s : Parties) (type : Word) (buf : Block) (dstva : Option Word)
      (hpc : s.client = .idle) (hva : ∀ va ∈ dstva, VaOk va) :
      Parties.Step cid sid s (.call type buf dstva) { s with client := .sending type buf dstva }
  | clientSend (s : Parties) (type : Word) (buf : Block) (dstva : Option Word) (ret : Int)
      (sbox : Mailbox Parcel) (hpc : s.client = .sending type buf dstva)
      (hsend : s.sbox.Send ⟨cid, type, some (.fsipcbuf buf), reqPerm⟩ ret sbox) :
      Parties.Step cid sid s (.clientSend ret)
        { s with sbox := sbox, client := afterTry ret (.sent dstva) s.client .dead }
  | clientRecv (s : Parties) (dstva : Option Word) (hpc : s.client = .sent dstva) :
      Parties.Step cid sid s .clientRecv
        { s with client := .waiting, cbox := s.cbox.recv (dstva.getD UTOP) }
  | clientReturn (s : Parties) (hpc : s.client = .waiting) (hwoken : s.cbox.recving = false) :
      Parties.Step cid sid s .clientReturn
        { s with client := .idle, returned := (s.cbox.value, s.cbox.mapped) :: s.returned }
  | serverRecv (s : Parties) (hpc : s.server = .ready) : Parties.Step cid sid s .serverRecv
      { s with server := .waiting, sbox := s.sbox.recv fsreqVa }
  | serverHandle (s : Parties) (palloc : Int) (hpc : s.server = .waiting)
      (hwoken : s.sbox.recving = false) :
      Parties.Step cid sid s (.serverHandle palloc) (s.handle cid palloc)
  | reply (s : Parties) (r perm : Word) (pg : Option Parcel) (ret : Int) (cbox : Mailbox Parcel)
      (hpc : s.server = .replying cid r pg perm) (hsend : s.cbox.Send ⟨sid, r, pg, perm⟩ ret cbox) :
      Parties.Step cid sid s (.serverReply ret)
        { s with cbox := cbox, server := afterTry ret .ready s.server .dead }
  /-- What becomes of a reply to another client is its own business. -/
  | replyOther (s : Parties) (whom r perm : Word) (pg : Option Parcel) (ret : Int)
      (hpc : s.server = .replying whom r pg perm) (hne : whom ≠ cid) :
      Parties.Step cid sid s (.serverReply ret)
        { s with server := afterTry ret .ready s.server .dead }
  | foreignClient (s : Parties) (m : Msg Parcel) (ret : Int) (cbox : Mailbox Parcel)
      (hm : m.sender ≠ cid ∧ m.sender ≠ sid) (hsend : s.cbox.Send m ret cbox) :
      Parties.Step cid sid s (.foreignClient m ret) { s with cbox := cbox }
  | foreignServer (s : Parties) (m : Msg Parcel) (ret : Int) (sbox : Mailbox Parcel)
      (hm : m.sender ≠ cid ∧ m.sender ≠ sid) (hsend : s.sbox.Send m ret sbox) :
      Parties.Step cid sid s (.foreignServer m ret) { s with sbox := sbox }

/-! ## What the claim says -/

/-- A call returned the reply, and mapped no other page than the one sent with it. -/
def Answers (ret reply : Word × Option Parcel) : Prop :=
  ret.1 = reply.1 ∧ (ret.2 = none ∨ ret.2 = reply.2)

/-- The `k`-th call of `fsipc` returned the reply to the `k`-th request, for every `k`. -/
def Paired (s : Parties) : Prop :=
  ∃ replies, replies <:+ s.computed ∧ List.Forall₂ Answers s.returned replies

/-- A third party that sends while the client is in `sys_ipc_recv` has no page that can be mapped,
so that its message does not get through. -/
def NoForeign (s : Parties) : IpcEvent → Prop
  | .foreignClient _ ret => s.cbox.recving = true → ret ≠ 0
  | _ => True

/-! ## The invariant -/

namespace Parties

/-- A request of the client is with the server, which has not handled it. -/
structure Pending (cid : Word) (s : Parties) : Prop where
  server : s.server = .waiting
  woken : s.sbox.recving = false
  sender : s.sbox.sender = cid

/-- The server is sending the client its reply `e`. -/
def Answering (cid : Word) (s : Parties) (e : Word × Option Parcel) : Prop :=
  ∃ perm, s.server = .replying cid e.1 e.2 perm

/-- The server has nothing of the client. -/
structure NoRequest (cid : Word) (s : Parties) : Prop where
  pending : ¬ s.Pending cid
  answering : ∀ e, ¬ s.Answering cid e

/-- The client is not waiting for a reply. -/
def Free (s : Parties) : Prop :=
  match s.client with
  | .sent _ => False
  | .waiting => False
  | _ => True

/-- The client has sent a request and not got a message. -/
def Asked (s : Parties) : Prop :=
  match s.client with
  | .sent _ => True
  | .waiting => s.cbox.recving = true
  | _ => False

/-- How far the current call of `fsipc` is, `replies` being those to the calls before it. -/
inductive Phase (cid : Word) (s : Parties) (replies : List (Word × Option Parcel)) : Prop
  | free (hpc : s.Free) (hnone : s.NoRequest cid) (hcomp : s.computed = replies)
  | asked (hpc : s.Asked) (hpend : s.Pending cid) (hcomp : s.computed = replies)
  | answering (hpc : s.Asked) (e : Word × Option Parcel) (hans : s.Answering cid e)
      (hcomp : s.computed = e :: replies)
  /-- The server panicked. -/
  | lost (hpc : s.Asked) (hdead : s.server = .dead) (hcomp : replies <:+ s.computed)
  | answered (hpc : s.client = .waiting) (hwoken : s.cbox.recving = false)
      (hnone : s.NoRequest cid) (e : Word × Option Parcel) (hcomp : s.computed = e :: replies)
      (hans : Answers (s.cbox.value, s.cbox.mapped) e)

/-- The client and the server agree on whose turn it is. -/
structure Synced (cid : Word) (s : Parties) : Prop where
  crecv : s.cbox.recving = true → s.client = .waiting
  srecv : s.sbox.recving = true → s.server = .waiting ∧ s.sbox.dstva = fsreqVa
  request : s.Pending cid → s.sbox.mapped.isSome ∧ s.sbox.perm = reqPerm
  phase : ∃ replies, List.Forall₂ Answers s.returned replies ∧ s.Phase cid replies

theorem Synced.paired {cid : Word} {s : Parties} (h : s.Synced cid) : Paired s := by
  obtain ⟨replies, hret, hphase⟩ := h.phase
  refine ⟨replies, ?_, hret⟩
  cases hphase with
  | free _ _ hcomp => exact hcomp ▸ List.suffix_rfl
  | asked _ _ hcomp => exact hcomp ▸ List.suffix_rfl
  | answering _ e _ hcomp => exact hcomp ▸ List.suffix_cons e replies
  | lost _ _ hcomp => exact hcomp
  | answered _ _ _ e hcomp _ => exact hcomp ▸ List.suffix_cons e replies

section

variable {cid sid : Word} {s : Parties}

/-- A server that is ready has nothing of the client. -/
theorem noRequest_of_ready (h : s.server = .ready) : s.NoRequest cid where
  pending hp := by
    have hserver := hp.server
    rw [h] at hserver
    cases hserver
  answering e ha := by
    obtain ⟨perm, ha⟩ := ha
    rw [h] at ha
    cases ha

theorem noRequest_of_dead (h : s.server = .dead) : s.NoRequest cid where
  pending hp := by
    have hserver := hp.server
    rw [h] at hserver
    cases hserver
  answering e ha := by
    obtain ⟨perm, ha⟩ := ha
    rw [h] at ha
    cases ha

theorem noRequest_of_other {whom r perm : Word} {pg : Option Parcel}
    (h : s.server = .replying whom r pg perm) (hne : whom ≠ cid) : s.NoRequest cid where
  pending hp := by
    have hserver := hp.server
    rw [h] at hserver
    cases hserver
  answering e ha := by
    obtain ⟨perm, ha⟩ := ha
    rw [h] at ha
    cases ha
    exact hne rfl

/-- While it waits, the only thing it can have of the client is a message. -/
theorem noRequest_of_waiting (h : s.server = .waiting)
    (hno : s.sbox.recving = true ∨ s.sbox.sender ≠ cid) : s.NoRequest cid where
  pending hp := by
    rcases hno with hno | hno
    · rw [hp.woken] at hno
      cases hno
    · exact hno hp.sender
  answering e ha := by
    obtain ⟨perm, ha⟩ := ha
    rw [h] at ha
    cases ha

theorem synced_init (fs : Server) : (init fs).Synced cid where
  crecv h := by cases h
  srecv h := by cases h
  request h := by cases h.server
  phase := ⟨[], .nil, .free trivial (noRequest_of_ready rfl) rfl⟩

/-- If the server has nothing of the client and is alive, the client has not asked. -/
theorem Phase.of_noRequest {replies : List (Word × Option Parcel)} (h : s.Phase cid replies)
    (hnone : s.NoRequest cid) (halive : s.server ≠ .dead) :
    s.Free ∧ s.computed = replies ∨ s.client = .waiting ∧ s.cbox.recving = false ∧
      ∃ e, s.computed = e :: replies ∧ Answers (s.cbox.value, s.cbox.mapped) e := by
  cases h with
  | free hpc _ hcomp => exact .inl ⟨hpc, hcomp⟩
  | asked _ hpend _ => exact (hnone.pending hpend).elim
  | answering _ e hans _ => exact (hnone.answering e hans).elim
  | lost _ hdead _ => exact (halive hdead).elim
  | answered hpc hwoken _ e hcomp hans => exact .inr ⟨hpc, hwoken, e, hcomp, hans⟩

/-- Only the server changed, and it has nothing of the client before and after. -/
theorem Phase.server_step {replies : List (Word × Option Parcel)} {s' : Parties}
    (h : s.Phase cid replies) (hnone : s.NoRequest cid) (halive : s.server ≠ .dead)
    (hnone' : s'.NoRequest cid) (hclient : s'.client = s.client) (hcbox : s'.cbox = s.cbox)
    (hcomp : s'.computed = s.computed) : s'.Phase cid replies := by
  rcases h.of_noRequest hnone halive with ⟨hpc, hc⟩ | ⟨hpc, hwoken, e, hc, hans⟩
  · refine .free ?_ hnone' (hcomp.trans hc)
    unfold Free at *
    rwa [hclient]
  · refine .answered (hclient.trans hpc) ?_ hnone' e (hcomp.trans hc) ?_
    · rw [hcbox, hwoken]
    · rw [hcbox]
      exact hans

/-! ## Every step keeps it -/

/-- Before a request the server has nothing of the client. -/
theorem Phase.of_free {replies : List (Word × Option Parcel)} (h : s.Phase cid replies)
    (hfree : s.Free) : s.NoRequest cid ∧ s.computed = replies := by
  have hnot : ¬ s.Asked := by
    unfold Free at hfree
    unfold Asked
    split at hfree <;> simp_all
  cases h with
  | free _ hnone hcomp => exact ⟨hnone, hcomp⟩
  | asked hpc _ _ => exact (hnot hpc).elim
  | answering hpc _ _ _ => exact (hnot hpc).elim
  | lost hpc _ _ => exact (hnot hpc).elim
  | answered hpc _ _ _ _ _ =>
      unfold Free at hfree
      rw [hpc] at hfree
      exact hfree.elim

/-- Only the client and its mailbox changed. -/
theorem Phase.asked_step {replies : List (Word × Option Parcel)} {s' : Parties}
    (h : s.Phase cid replies) (hasked : s.Asked) (hasked' : s'.Asked)
    (hserver : s'.server = s.server) (hsbox : s'.sbox = s.sbox)
    (hcomp : s'.computed = s.computed) : s'.Phase cid replies := by
  cases h with
  | free hpc _ _ =>
      unfold Free at hpc
      unfold Asked at hasked
      split at hpc <;> simp_all
  | asked _ hpend hc =>
      exact .asked hasked' ⟨hserver.trans hpend.server, hsbox ▸ hpend.woken, hsbox ▸ hpend.sender⟩
        (hcomp.trans hc)
  | answering _ e hans hc =>
      obtain ⟨perm, hans⟩ := hans
      exact .answering hasked' e ⟨perm, hserver.trans hans⟩ (hcomp.trans hc)
  | lost _ hdead hc => exact .lost hasked' (hserver.trans hdead) (hcomp ▸ hc)
  | answered hpc hwoken _ _ _ _ =>
      unfold Asked at hasked
      rw [hpc] at hasked
      rw [hwoken] at hasked
      cases hasked

theorem Synced.call (h : s.Synced cid) (hpc : s.client = .idle) (type : Word) (buf : Block)
    (dstva : Option Word) : Synced cid { s with client := .sending type buf dstva } where
  crecv hr := by
    have hwait := h.crecv hr
    rw [hpc] at hwait
    cases hwait
  srecv := h.srecv
  request hp := h.request ⟨hp.server, hp.woken, hp.sender⟩
  phase := by
    obtain ⟨replies, hret, hphase⟩ := h.phase
    have hfree : s.Free := by simp [Free, hpc]
    obtain ⟨hnone, hcomp⟩ := hphase.of_free hfree
    exact ⟨replies, hret, .free trivial
      ⟨fun hp => hnone.pending ⟨hp.server, hp.woken, hp.sender⟩, fun e ⟨perm, he⟩ =>
        hnone.answering e ⟨perm, he⟩⟩ hcomp⟩

theorem Synced.clientSend {type : Word} {buf : Block} {dstva : Option Word} {ret : Int}
    {sbox : Mailbox Parcel} (h : s.Synced cid) (hpc : s.client = .sending type buf dstva)
    (hsend : s.sbox.Send ⟨cid, type, some (.fsipcbuf buf), reqPerm⟩ ret sbox) :
    Synced cid { s with sbox := sbox, client := afterTry ret (.sent dstva) s.client .dead } := by
  obtain ⟨replies, hret, hphase⟩ := h.phase
  have hfree : s.Free := by simp [Free, hpc]
  obtain ⟨hnone, hcomp⟩ := hphase.of_free hfree
  cases hsend with
  | refused _ => exact h
  | failed r hr _ hne =>
      have hserver := (h.srecv hr).1
      have hnone' : ∀ pc, NoRequest cid { s with sbox := { s.sbox with perm := 0 }, client := pc } :=
        fun pc => noRequest_of_waiting hserver (.inl hr)
      refine ⟨fun hc => ?_, h.srecv, fun hp => ((hnone' _).pending hp).elim, replies, hret,
        .free ?_ (hnone' _) hcomp⟩
      · have hwait := h.crecv hc
        rw [hpc] at hwait
        cases hwait
      · by_cases hsame : ret = -E_IPC_NOT_RECV
        · simp only [Free, afterTry, if_neg hne, if_pos hsame, hpc]
        · simp only [Free, afterTry, if_neg hne, if_neg hsame]
  | plain hr hpage => exact (hpage ⟨rfl, (h.srecv hr).2 ▸ by decide⟩).elim
  | page p hr hp _ =>
      have hpend : Pending cid { s with
          sbox := s.sbox.deliver ⟨cid, type, some (.fsipcbuf buf), reqPerm⟩ (some p),
          client := .sent dstva } := ⟨(h.srecv hr).1, rfl, rfl⟩
      refine ⟨fun hc => ?_, fun hs => (by cases hs), fun _ => ⟨rfl, rfl⟩, replies, hret,
        .asked trivial hpend hcomp⟩
      have hwait := h.crecv hc
      rw [hpc] at hwait
      cases hwait

theorem Synced.clientRecv {dstva : Option Word} (h : s.Synced cid) (hpc : s.client = .sent dstva) :
    Synced cid { s with client := .waiting, cbox := s.cbox.recv (dstva.getD UTOP) } where
  crecv _ := rfl
  srecv := h.srecv
  request hp := h.request ⟨hp.server, hp.woken, hp.sender⟩
  phase := by
    obtain ⟨replies, hret, hphase⟩ := h.phase
    have hasked : s.Asked := by simp [Asked, hpc]
    exact ⟨replies, hret, hphase.asked_step hasked rfl rfl rfl rfl⟩

theorem Synced.clientReturn (h : s.Synced cid) (hpc : s.client = .waiting)
    (hwoken : s.cbox.recving = false) :
    Synced cid { s with
      client := .idle, returned := (s.cbox.value, s.cbox.mapped) :: s.returned } where
  crecv hr := by
    rw [hwoken] at hr
    cases hr
  srecv := h.srecv
  request hp := h.request ⟨hp.server, hp.woken, hp.sender⟩
  phase := by
    obtain ⟨replies, hret, hphase⟩ := h.phase
    have hnot : ¬ s.Asked := by simp [Asked, hpc, hwoken]
    cases hphase with
    | free hfree _ _ =>
        unfold Free at hfree
        rw [hpc] at hfree
        exact hfree.elim
    | asked hasked _ _ => exact (hnot hasked).elim
    | answering hasked _ _ _ => exact (hnot hasked).elim
    | lost hasked _ _ => exact (hnot hasked).elim
    | answered _ _ hnone e hcomp hans =>
        exact ⟨e :: replies, .cons hans hret, .free trivial
          ⟨fun hp => hnone.pending ⟨hp.server, hp.woken, hp.sender⟩, fun e ⟨perm, he⟩ =>
            hnone.answering e ⟨perm, he⟩⟩ hcomp⟩

theorem Synced.serverRecv (h : s.Synced cid) (hpc : s.server = .ready) :
    Synced cid { s with server := .waiting, sbox := s.sbox.recv fsreqVa } where
  crecv := h.crecv
  srecv _ := ⟨rfl, rfl⟩
  request hp := by cases hp.woken
  phase := by
    obtain ⟨replies, hret, hphase⟩ := h.phase
    exact ⟨replies, hret, hphase.server_step (noRequest_of_ready hpc) (by simp [hpc])
      (noRequest_of_waiting rfl (.inl rfl)) rfl rfl rfl⟩

/-- A message is left hanging, ends the server or is answered. -/
theorem handle_cases (s : Parties) (cid : Word) (palloc : Int) :
    ((s.sbox.mapped = none ∨ s.sbox.perm &&& PTE_P = 0) ∧
      s.handle cid palloc = { s with server := .ready }) ∨
    (∃ fs, s.handle cid palloc = { s with server := .dead, fs := fs }) ∨
    ∃ fs r pg perm, s.handle cid palloc =
      { s with server := .replying s.sbox.sender r pg perm, fs := fs
               computed := if s.sbox.sender = cid then (r, pg) :: s.computed else s.computed } := by
  unfold handle
  rcases s.sbox.mapped with _ | page
  · exact .inl ⟨.inl rfl, rfl⟩
  · by_cases hperm : s.sbox.perm &&& PTE_P = 0
    · exact .inl ⟨.inr hperm, if_pos hperm⟩
    · simp only [if_neg hperm]
      rcases serveRequest { s.fs with mach := { s.fs.mach with req := page.words s.fs } }
        s.sbox.value palloc with ⟨_ | ⟨r, pg⟩, fs⟩
      · exact .inr (.inl ⟨fs, rfl⟩)
      · exact .inr (.inr ⟨fs, _, _, _, rfl⟩)

theorem Synced.serverHandle {palloc : Int} (h : s.Synced cid) (hpc : s.server = .waiting)
    (hwoken : s.sbox.recving = false) : Synced cid (s.handle cid palloc) := by
  obtain ⟨replies, hret, hphase⟩ := h.phase
  have hs : s.sbox.recving ≠ true := by simp [hwoken]
  by_cases hsender : s.sbox.sender = cid
  · -- the request of the client: it is answered, or the server panics over it
    have hpend : s.Pending cid := ⟨hpc, hwoken, hsender⟩
    obtain ⟨hmapped, hperm⟩ := h.request hpend
    have hasked : s.Asked ∧ s.computed = replies := by
      cases hphase with
      | free _ hnone _ => exact (hnone.pending hpend).elim
      | asked hasked _ hcomp => exact ⟨hasked, hcomp⟩
      | answering _ e hans _ =>
          obtain ⟨perm, hans⟩ := hans
          rw [hpc] at hans
          cases hans
      | lost _ hdead _ =>
          rw [hpc] at hdead
          cases hdead
      | answered _ _ hnone _ _ _ => exact (hnone.pending hpend).elim
    obtain ⟨hasked, hcomp⟩ := hasked
    rcases s.handle_cases cid palloc with ⟨hhang, -⟩ | ⟨fs, heq⟩ | ⟨fs, r, pg, perm, heq⟩
    · rcases hhang with hnone | hzero
      · rw [hnone] at hmapped
        cases hmapped
      · rw [hperm] at hzero
        exact absurd hzero (by decide)
    · rw [heq]
      exact ⟨h.crecv, fun hr => (hs hr).elim, fun hp => (by cases hp.server), replies, hret,
        .lost hasked rfl (hcomp ▸ List.suffix_rfl)⟩
    · rw [heq, if_pos hsender, hsender]
      exact ⟨h.crecv, fun hr => (hs hr).elim, fun hp => (by cases hp.server), replies, hret,
        .answering hasked (r, pg) ⟨perm, rfl⟩ (congrArg _ hcomp)⟩
  · -- the request of another client
    have hnone : s.NoRequest cid := noRequest_of_waiting hpc (.inr hsender)
    have halive : s.server ≠ .dead := by simp [hpc]
    rcases s.handle_cases cid palloc with ⟨-, heq⟩ | ⟨fs, heq⟩ | ⟨fs, r, pg, perm, heq⟩
    · rw [heq]
      exact ⟨h.crecv, fun hr => (hs hr).elim, fun hp => (by cases hp.server), replies, hret,
        hphase.server_step hnone halive (noRequest_of_ready rfl) rfl rfl rfl⟩
    · rw [heq]
      exact ⟨h.crecv, fun hr => (hs hr).elim, fun hp => (by cases hp.server), replies, hret,
        hphase.server_step hnone halive (noRequest_of_dead rfl) rfl rfl rfl⟩
    · rw [heq, if_neg hsender]
      exact ⟨h.crecv, fun hr => (hs hr).elim, fun hp => (by cases hp.server), replies, hret,
        hphase.server_step hnone halive (noRequest_of_other rfl hsender) rfl rfl rfl⟩

/-- While the server replies to the client, the client waits for the latest reply. -/
theorem Phase.of_replying {replies : List (Word × Option Parcel)} {r perm : Word}
    {pg : Option Parcel} (h : s.Phase cid replies) (hpc : s.server = .replying cid r pg perm) :
    s.Asked ∧ s.computed = (r, pg) :: replies := by
  have hans : s.Answering cid (r, pg) := ⟨perm, hpc⟩
  cases h with
  | free _ hnone _ => exact (hnone.answering _ hans).elim
  | asked _ hpend _ =>
      have hserver := hpend.server
      rw [hpc] at hserver
      cases hserver
  | answering hasked e he hcomp =>
      obtain ⟨perm', he⟩ := he
      rw [hpc] at he
      cases he
      exact ⟨hasked, hcomp⟩
  | lost _ hdead _ =>
      rw [hpc] at hdead
      cases hdead
  | answered _ _ hnone _ _ _ => exact (hnone.answering _ hans).elim

/-- The reply gets through. -/
theorem Synced.reply_delivered {r perm : Word} {pg mapped : Option Parcel} (h : s.Synced cid)
    (hpc : s.server = .replying cid r pg perm) (hr : s.cbox.recving = true)
    (hmapped : mapped = none ∨ mapped = pg) :
    Synced cid { s with cbox := s.cbox.deliver ⟨sid, r, pg, perm⟩ mapped, server := .ready } := by
  obtain ⟨replies, hret, hphase⟩ := h.phase
  obtain ⟨-, hcomp⟩ := hphase.of_replying hpc
  refine ⟨fun hc => (by cases hc), fun hs => ?_, fun hp => (by cases hp.server), replies, hret,
    .answered (h.crecv hr) rfl (noRequest_of_ready rfl) (r, pg) hcomp ⟨rfl, hmapped⟩⟩
  have hwait := (h.srecv hs).1
  rw [hpc] at hwait
  cases hwait

theorem Synced.reply {r perm : Word} {pg : Option Parcel} {ret : Int} {cbox : Mailbox Parcel}
    (h : s.Synced cid) (hpc : s.server = .replying cid r pg perm)
    (hsend : s.cbox.Send ⟨sid, r, pg, perm⟩ ret cbox) :
    Synced cid { s with cbox := cbox, server := afterTry ret .ready s.server .dead } := by
  cases hsend with
  | refused _ => exact h
  | failed _ hr _ hne =>
      obtain ⟨replies, hret, hphase⟩ := h.phase
      obtain ⟨hasked, hcomp⟩ := hphase.of_replying hpc
      have hnot : s.sbox.recving ≠ true := fun hs => by
        have hwait := (h.srecv hs).1
        rw [hpc] at hwait
        cases hwait
      by_cases hsame : ret = -E_IPC_NOT_RECV
      · simp only [afterTry, if_neg hne, if_pos hsame]
        refine ⟨h.crecv, h.srecv, fun hp => ?_, replies, hret,
          .answering hasked (r, pg) ⟨perm, hpc⟩ hcomp⟩
        have hserver := hp.server
        rw [hpc] at hserver
        cases hserver
      · simp only [afterTry, if_neg hne, if_neg hsame]
        exact ⟨h.crecv, fun hs => (hnot hs).elim, fun hp => (by cases hp.server), replies, hret,
          .lost hasked rfl (hcomp ▸ List.suffix_cons ..)⟩
  | plain hr _ => exact h.reply_delivered hpc hr (.inl rfl)
  | page p hr hp _ => exact h.reply_delivered hpc hr (.inr hp.symm)

theorem Synced.replyOther {whom r perm : Word} {pg : Option Parcel} {ret : Int} (h : s.Synced cid)
    (hpc : s.server = .replying whom r pg perm) (hne : whom ≠ cid) :
    Synced cid { s with server := afterTry ret .ready s.server .dead } := by
  obtain ⟨replies, hret, hphase⟩ := h.phase
  have hnot : s.sbox.recving ≠ true := fun hs => by
    have hwait := (h.srecv hs).1
    rw [hpc] at hwait
    cases hwait
  have hnone' : NoRequest cid { s with server := afterTry ret .ready s.server .dead } := by
    unfold afterTry
    split
    · exact noRequest_of_ready rfl
    · split
      · exact noRequest_of_other hpc hne
      · exact noRequest_of_dead rfl
  exact ⟨h.crecv, fun hs => (hnot hs).elim, fun hp => (hnone'.pending hp).elim, replies, hret,
    hphase.server_step (noRequest_of_other hpc hne) (by simp [hpc]) hnone' rfl rfl rfl⟩

/-- A third party that does not get through changes at most `env_ipc_perm`. -/
theorem Synced.foreignClient {m : Msg Parcel} {ret : Int} {cbox : Mailbox Parcel}
    (h : s.Synced cid) (hsend : s.cbox.Send m ret cbox)
    (hguard : s.cbox.recving = true → ret ≠ 0) : Synced cid { s with cbox := cbox } := by
  cases hsend with
  | refused _ => exact h
  | failed _ hr _ _ =>
      obtain ⟨replies, hret, hphase⟩ := h.phase
      have hasked : s.Asked := by simp [Asked, h.crecv hr, hr]
      exact ⟨h.crecv, h.srecv, fun hp => h.request ⟨hp.server, hp.woken, hp.sender⟩, replies, hret,
        hphase.asked_step hasked hasked rfl rfl rfl⟩
  | plain hr _ => exact (hguard hr rfl).elim
  | page p hr _ _ => exact (hguard hr rfl).elim

theorem Synced.foreignServer {m : Msg Parcel} {ret : Int} {sbox : Mailbox Parcel}
    (h : s.Synced cid) (hm : m.sender ≠ cid) (hsend : s.sbox.Send m ret sbox) :
    Synced cid { s with sbox := sbox } := by
  obtain ⟨replies, hret, hphase⟩ := h.phase
  have hkeep : s.sbox.recving = true → (sbox.recving = true ∧ sbox.dstva = s.sbox.dstva) ∨
      sbox.recving = false ∧ sbox.sender ≠ cid → Synced cid { s with sbox := sbox } := by
    intro hr hsbox
    obtain ⟨hserver, hdstva⟩ := h.srecv hr
    have hnone' : NoRequest cid { s with sbox := sbox } :=
      noRequest_of_waiting hserver (hsbox.imp And.left And.right)
    refine ⟨h.crecv, fun hs => ?_, fun hp => (hnone'.pending hp).elim, replies, hret,
      hphase.server_step (noRequest_of_waiting hserver (.inl hr)) (by simp [hserver]) hnone'
        rfl rfl rfl⟩
    rcases hsbox with ⟨-, hva⟩ | ⟨hwoken, -⟩
    · exact ⟨hserver, hva.trans hdstva⟩
    · rw [hwoken] at hs
      cases hs
  cases hsend with
  | refused _ => exact h
  | failed _ hr _ _ => exact hkeep hr (.inl ⟨hr, rfl⟩)
  | plain hr _ => exact hkeep hr (.inr ⟨rfl, hm⟩)
  | page p hr _ _ => exact hkeep hr (.inr ⟨rfl, hm⟩)

theorem Synced.step {s s' : Parties} {e : IpcEvent} (h : s.Synced cid)
    (hstep : Guarded NoForeign (Step cid sid) s e s') : s'.Synced cid := by
  obtain ⟨hguard, hstep⟩ := hstep
  cases hstep with
  | call type buf dstva hpc _ => exact h.call hpc type buf dstva
  | clientSend _ _ _ _ _ hpc hsend => exact h.clientSend hpc hsend
  | clientRecv _ hpc => exact h.clientRecv hpc
  | clientReturn hpc hwoken => exact h.clientReturn hpc hwoken
  | serverRecv hpc => exact h.serverRecv hpc
  | serverHandle _ hpc hwoken => exact h.serverHandle hpc hwoken
  | reply _ _ _ _ _ hpc hsend => exact h.reply hpc hsend
  | replyOther _ _ _ _ _ hpc hne => exact h.replyOther hpc hne
  | foreignClient _ _ _ _ hsend => exact h.foreignClient hsend hguard
  | foreignServer _ _ _ hm hsend => exact h.foreignServer hm.1 hsend

end

end Parties

/-! ## Runs -/

/-- In every run in which no message of a third party gets through to the client, its calls return
the replies to its requests, in order. -/
theorem fsipc_paired {cid sid : Word} {fs : Server} {s : Parties} {tr : List IpcEvent}
    (hrun : Run (Guarded NoForeign (Parties.Step cid sid)) (.init fs) tr s) : Paired s :=
  Parties.Synced.paired (hrun.preserves (fun _ _ _ h hstep => h.step hstep)
    (Parties.synced_init fs))

section

/-- A server with nothing open, on a disk of zeros. -/
private def noFiles : Server :=
  serveInit ⟨fun _ _ => 0, fun _ => none, fun _ => 0, fun _ => 0, [], []⟩

/-- A call with a request code that has no handler; a third party tries too early. -/
theorem fsipc_paired_once : ∃ tr s,
    Run (Guarded NoForeign (Parties.Step 0x1001 0x1000)) (.init noFiles) tr s ∧
      s.returned = [(-3, none)] ∧ Paired s := by
  have hrun : ∃ tr s, Run (Guarded NoForeign (Parties.Step 0x1001 0x1000)) (.init noFiles) tr s ∧
      s.returned = [(-3, none)] :=
    ⟨[.foreignClient ⟨0x1002, 7, none, 0⟩ (-E_IPC_NOT_RECV), .call 9 (fun _ => 0) none, .serverRecv,
        .clientSend 0, .clientRecv, .serverHandle 0, .serverReply 0, .clientReturn], _,
      .cons ⟨fun h => (by cases h), .foreignClient _ _ _ _ (by decide) (.refused rfl)⟩
      (.cons ⟨trivial, .call _ 9 (fun _ => 0) none rfl (fun _ h => (by cases h))⟩
      (.cons ⟨trivial, .serverRecv _ rfl⟩
      (.cons ⟨trivial, .clientSend _ 9 _ none 0 _ rfl (.page _ rfl rfl (by decide))⟩
      (.cons ⟨trivial, .clientRecv _ none rfl⟩
      (.cons ⟨trivial, .serverHandle _ 0 rfl rfl⟩
      (.cons ⟨trivial, .reply _ (-3) reqPerm none 0 _ rfl (.plain rfl (by simp))⟩
      (.single ⟨trivial, .clientReturn _ rfl rfl⟩))))))), rfl⟩
  obtain ⟨tr, s, hrun, hret⟩ := hrun
  exact ⟨tr, s, hrun, hret, fsipc_paired hrun⟩

/-- A third party sends 7 while the client waits: the call returns 7, and the server has not even
seen the request. -/
theorem fsipc_foreign : ∃ tr s, Run (Parties.Step 0x1001 0x1000) (.init noFiles) tr s ∧
    s.returned = [(7, none)] ∧ s.computed = [] ∧ ¬ Paired s := by
  have hrun : ∃ tr s, Run (Parties.Step 0x1001 0x1000) (.init noFiles) tr s ∧
      s.returned = [(7, none)] ∧ s.computed = [] :=
    ⟨_, _, .cons (.call _ 9 (fun _ => 0) none rfl (fun _ h => (by cases h)))
      (.cons (.serverRecv _ rfl)
      (.cons (.clientSend _ 9 _ none 0 _ rfl (.page _ rfl rfl (by decide)))
      (.cons (.clientRecv _ none rfl)
      (.cons (.foreignClient _ ⟨0x1002, 7, none, 0⟩ 0 _ (by decide) (.plain rfl (by simp)))
      (.single (.clientReturn _ rfl rfl)))))), rfl, rfl⟩
  obtain ⟨tr, s, hrun, hret, hcomp⟩ := hrun
  refine ⟨tr, s, hrun, hret, hcomp, fun ⟨replies, hsuf, hpair⟩ => ?_⟩
  have hnil : replies = [] := List.suffix_nil.mp (hcomp ▸ hsuf)
  rw [hret, hnil] at hpair
  cases hpair

end

end SisOp.User
