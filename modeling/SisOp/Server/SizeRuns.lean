/-
# `SisOp.Server.SizeRuns` — sizes over a run of the server

No handler checks a size: `set_size` stores what it is given, and a write makes the
file as long as it asks for.  In a run whose requests ask for sizes in range, on regular
files (`InRange`), and that finds the blocks it makes into index and directory blocks
blank, every file keeps a size in range.
-/
import SisOp.Lib.Run
import SisOp.Server.Creating

namespace SisOp.Fs

open SisOp.Lib SisOp.Jos

/-! ## Opening -/

/-- The first part of `openPath`: the file is created, or found. -/
def openFirst (path : List Byte) (omode : Word) : FsM (Except Int FilePtr) :=
  if omode &&& O_CREAT ≠ 0 then do
    match ← fileCreate path with
    | .ok f => return .ok f
    | .error r => if omode &&& O_EXCL = 0 ∧ r = -E_FILE_EXISTS then fileOpen path else return .error r
  else fileOpen path

/-- The rest: it is truncated, and found again. -/
def openRest (path : List Byte) (omode : Word) : Except Int FilePtr → FsM (Except Int FilePtr)
  | .error r => return .error r
  | .ok f => do
      if omode &&& O_TRUNC ≠ 0 then
        let _ ← fileSetSize f 0
        fileOpen path
      else fileOpen path

theorem openPath_eq (path : List Byte) (omode : Word) :
    openPath path omode = openFirst path omode >>= openRest path omode := by
  unfold openPath openFirst
  by_cases hmode : omode &&& O_CREAT ≠ 0
  · simp only [if_pos hmode, Prog.bind_assoc]
    refine congrArg _ (funext fun created => ?_)
    cases created with
    | ok f => rfl
    | error r =>
        simp only
        split <;> rfl
  · simp only [if_neg hmode]
    rfl

section

variable {v v' : View} {F : FilePtr → Prop} {path : List Byte} {omode : Word}

/-- Only regular files are truncated. -/
def TruncFits (v : View) (path : List Byte) : Prop :=
  ∀ pdir f, (walkPath path).run onView v = (.ok (.found pdir f), v) → ¬ IsDir v.mem f

theorem openPath_ok (h : Sound F v.mem) (hs : Filled F v.mem)
    (hcreate : omode &&& O_CREAT ≠ 0 → CreateFits v path)
    (htrunc : omode &&& O_TRUNC ≠ 0 → TruncFits v path) {r : Except Int FilePtr}
    (hrun : (openPath path omode).run onView v = (.ok r, v')) :
    ∃ F', Opens F F' v.mem v'.mem ∧ ∀ f, r = .ok f → F' f := by
  rw [openPath_eq] at hrun
  obtain ⟨opened, v1, hfirst, hrest⟩ := Prog.bind_ok hrun
  have hopen : ∀ {w w' : View} {r' : Except Int FilePtr}, w = v →
      (fileOpen path).run onView w = (.ok r', w') →
      Opens F F v.mem w'.mem ∧ ∀ f, r' = .ok f → F f ∧ (omode &&& O_TRUNC ≠ 0 → ¬ IsDir w'.mem f) := by
    rintro w w' r' rfl hrun'
    obtain ⟨rfl, hfound⟩ := fileOpen_ok h hs hrun'
    refine ⟨(Advances.refl h hs).opens, fun f hf => ?_⟩
    obtain ⟨hF, pdir, hwalk⟩ := hfound f hf
    exact ⟨hF, fun hmode => htrunc hmode pdir f hwalk⟩
  -- the first phase: creating, or finding
  have hphase : ∃ F', Opens F F' v.mem v1.mem ∧
      ∀ f, opened = .ok f → F' f ∧ (omode &&& O_TRUNC ≠ 0 → ¬ IsDir v1.mem f) := by
    unfold openFirst at hfirst
    rw [run_ite] at hfirst
    split at hfirst
    · rename_i hmode
      obtain ⟨created, v2, hcr, hafter⟩ := Prog.bind_ok hfirst
      obtain ⟨F', hopens, herr, hnew⟩ := fileCreate_ok h hs (hcreate hmode) hcr
      cases created with
      | ok f =>
          cases hafter
          refine ⟨F', hopens, fun f' hf' => ?_⟩
          cases hf'
          exact ⟨(hnew f rfl).1, fun _ => (hnew f rfl).2⟩
      | error e =>
          obtain rfl := herr e rfl
          simp only at hafter
          rw [run_ite] at hafter
          split at hafter
          · exact ⟨F, hopen rfl hafter⟩
          · cases hafter
            exact ⟨F', hopens, fun f hf => by cases hf⟩
    · exact ⟨F, hopen rfl hfirst⟩
  obtain ⟨F', hopens, hfile⟩ := hphase
  cases opened with
  | error e =>
      cases hrest
      exact ⟨F', hopens, fun f hf => by cases hf⟩
  | ok f =>
      rw [openRest, run_ite] at hrest
      obtain ⟨hf, hreg⟩ := hfile f rfl
      split at hrest
      · rename_i hmode
        obtain ⟨w, hset, hadv⟩ := hopens.sound.run_fileSetSize (n := 0) hopens.filled hf (hreg hmode)
          (Nat.zero_le _)
        rw [Prog.run_bind_ok hset] at hrest
        obtain ⟨rfl, hfound⟩ := fileOpen_ok hadv.sound hadv.filled hrest
        exact ⟨F', hopens.trans hadv.opens, fun g hg => (hfound g hg).1⟩
      · obtain ⟨rfl, hfound⟩ := fileOpen_ok hopens.sound hopens.filled hrest
        exact ⟨F', hopens, fun g hg => (hfound g hg).1⟩

end

/-! ## The server -/

/-- A sound disk, whose files the table of open files refers to. -/
def Intact (s : Server) : Prop :=
  ∃ F, Sound F s.mach.mem ∧ Filled F s.mach.mem ∧ ∀ i f, (s.opentab i).oFile = some f → F f

/-- The file of the request, as `openfile_lookup` finds it. -/
def Asks (s : Server) (i : Fin MAXOPEN) (f : FilePtr) : Prop :=
  openfileLookup s s.reqFileid = some i ∧ (s.opentab i).oFile = some f

/-- The size is in range, and the file is a regular one. -/
def SetSizeFits (s : Server) : Prop :=
  ∀ i f, Asks s i f → ¬ IsDir s.mach.mem f ∧ 0 ≤ s.reqN.toInt ∧ s.reqN.toInt ≤ MAXFILESIZE

/-- The end of the write is in range, the file is a regular one, and the indirect block it gets is
blank. -/
def WriteKeeps (s : Server) : Prop :=
  ∀ i f, Asks s i f → ¬ IsDir s.mach.mem f ∧ ((s.fds i).fd.fdOffset + s.reqN).toNat ≤ MAXFILESIZE ∧
    IndexBlank s.mach.mem f (s.fds i).fd.fdOffset.toNat ((s.fds i).fd.fdOffset + s.reqN).toNat

/-- A read of a hole gets a block too; an empty directory is not read at a negative offset. -/
def ReadKeeps (s : Server) : Prop :=
  ∀ i f, Asks s i f →
    (¬ IsDir s.mach.mem f → IndexBlank s.mach.mem f (s.fds i).fd.fdOffset.toNat
      (min ((s.fds i).fd.fdOffset.toNat + s.readCount.toNat) (fileSize s.mach.mem f).toNat)) ∧
    (IsDir s.mach.mem f → 0 ≤ (s.fds i).fd.fdOffset.toInt ∨ fileSize s.mach.mem f ≠ 0)

/-- A new file has an entry or room for one, and no directory is truncated. -/
def OpenKeeps (s : Server) : Prop :=
  (s.reqOmode &&& O_CREAT ≠ 0 → CreateFits s.mach.view s.reqPath) ∧
    (s.reqOmode &&& O_TRUNC ≠ 0 → TruncFits s.mach.view s.reqPath)

/-- One iteration of the server, or something the clients do in between: they write the request page
and the `Fd` pages that they have. -/
inductive Request
  | serve (req : Word) (palloc : Int)
  | clients (page : Block) (fds : Fin MAXOPEN → FdPage)

inductive Server.Step : Server → Request → Server → Prop
  | serve {s s' : Server} {req : Word} {palloc : Int} {r : Int × Option (Fin MAXOPEN)}
      (h : serveRequest s req palloc = (.ok r, s')) : Server.Step s (.serve req palloc) s'
  | clients (s : Server) (page : Block) (fds : Fin MAXOPEN → FdPage) :
      Server.Step s (.clients page fds) { s with mach := { s.mach with req := page }, fds := fds }

/-- The request keeps sizes in range. -/
def Keeping (s : Server) : Request → Prop
  | .serve req _ =>
      (req = FSREQ_OPEN → OpenKeeps s) ∧ (req = FSREQ_SET_SIZE → SetSizeFits s) ∧
        (req = FSREQ_READ → ReadKeeps s) ∧ (req = FSREQ_WRITE → WriteKeeps s)
  | .clients _ _ => True

section

variable {s s' : Server} {F : FilePtr → Prop} {i : Fin MAXOPEN} {f : FilePtr} {α : Type} {a : α}

/-- A function of the file system, on the memory that the server sees. -/
theorem Server.run_view {p : FsM α} (h : s.run p = (.ok a, s')) :
    p.run onView s.mach.view = (.ok a, s'.mach.view) ∧ s'.opentab = s.opentab ∧ s'.fds = s.fds := by
  unfold Server.run at h
  rcases hp : p.run onMachine s.mach with ⟨r, m⟩
  rw [hp] at h
  cases h
  exact ⟨abstracts.run_ok hp, rfl, rfl⟩

theorem Intact.of_advances (h : ∀ i f, (s.opentab i).oFile = some f → F f)
    (hadv : Advances F s.mach.mem s'.mach.mem) (htab : s'.opentab = s.opentab) : Intact s' :=
  ⟨F, hadv.sound, hadv.filled, fun i f hf => h i f (htab ▸ hf)⟩

/-- A handler that calls `p` on the file of the request. -/
theorem run_theFile {p : FilePtr → FsM α} (hlook : openfileLookup s s.reqFileid = some i)
    (h : (s.run do p (← theFile (s.opentab i))) = (.ok a, s')) :
    ∃ f, Asks s i f ∧ (p f).run onView s.mach.view = (.ok a, s'.mach.view) ∧ s'.opentab = s.opentab ∧
      s'.fds = s.fds := by
  obtain ⟨hview, htab, hfds⟩ := Server.run_view h
  cases hfile : (s.opentab i).oFile with
  | none =>
      rw [theFile_none hfile] at hview
      cases hview
  | some f =>
      rw [theFile_some hfile] at hview
      exact ⟨f, ⟨hlook, hfile⟩, hview, htab, hfds⟩

theorem Intact.setFd (h : Intact s) (i : Fin MAXOPEN) (fd : Fd) : Intact (s.setFd i fd) := h

variable {r : Int}

theorem serveSetSize_intact (h : Intact s) (hfits : SetSizeFits s) (hrun : serveSetSize s = (.ok r, s')) :
    Intact s' := by
  unfold serveSetSize at hrun
  split at hrun
  · cases hrun
    exact h
  · rename_i i hlook
    obtain ⟨f, hasks, hview, htab, -⟩ := run_theFile hlook hrun
    obtain ⟨F, hsound, hfill, hfiles⟩ := h
    obtain ⟨hreg, hlo, hhi⟩ := hfits i f hasks
    have hn : s.reqN.toNat ≤ MAXFILESIZE := by
      have hint := BitVec.toInt_eq_toNat_cond s.reqN
      have hlt := s.reqN.isLt
      omega
    obtain ⟨v', hset, hadv⟩ : ∃ v', (fileSetSize f s.reqN).run onView s.mach.view = (.ok 0, v') ∧
        Advances F s.mach.view.mem v'.mem := Sound.run_fileSetSize hsound hfill (hfiles i f hasks.2) hreg hn
    rw [hset] at hview
    cases hview
    exact .of_advances hfiles hadv htab

theorem serveRead_intact (h : Intact s) (hkeeps : ReadKeeps s) (hrun : serveRead s = (.ok r, s')) :
    Intact s' := by
  unfold serveRead at hrun
  split at hrun
  · cases hrun
    exact h
  · rename_i i hlook
    simp only at hrun
    split at hrun
    · cases hrun
    · rename_i r' s1 hread
      obtain ⟨f, hasks, hview, htab, -⟩ := run_theFile hlook hread
      obtain ⟨F, hsound, hfill, hfiles⟩ := h
      obtain ⟨hreg, hdir⟩ := hkeeps i f hasks
      have hcount : s.readCount.toNat ≤ 4096 := minWord_le_right _ _
      have hadv : Advances F s.mach.view.mem s1.mach.view.mem :=
        Sound.fileRead_advances hsound hfill (hfiles i f hasks.2) hcount hreg hdir hview
      have hintact : Intact s1 := .of_advances hfiles hadv htab
      split at hrun
      · cases hrun
        exact hintact
      · cases hrun
        exact hintact.setFd _ _

theorem serveWrite_intact (h : Intact s) (hkeeps : WriteKeeps s) (hrun : serveWrite s = (.ok r, s')) :
    Intact s' := by
  unfold serveWrite at hrun
  split at hrun
  · cases hrun
    exact h
  · rename_i i hlook
    simp only at hrun
    split at hrun
    · cases hrun
    · rename_i r' s1 hwrite
      obtain ⟨f, hasks, hview, htab, -⟩ := run_theFile hlook hwrite
      obtain ⟨F, hsound, hfill, hfiles⟩ := h
      obtain ⟨hreg, hend, hidx⟩ := hkeeps i f hasks
      have hf := hfiles i f hasks.2
      have hadv : Advances F s.mach.view.mem s1.mach.view.mem :=
        Sound.fileWrite_advances hsound hfill hf hreg hend hidx hview
      have hintact : Intact s1 := .of_advances hfiles hadv htab
      split at hrun
      · cases hrun
        exact hintact
      · rename_i hnonneg
        split at hrun
        · cases hrun
        · rename_i s2 hgrow
          cases hrun
          have hfile : (s1.opentab i).oFile = some f := htab ▸ hasks.2
          have hstop : (s.fds i).fd.fdOffset + BitVec.ofInt 32 r = (s.fds i).fd.fdOffset + s.reqN := by
            rw [(fileWrite_result hend hview).resolve_right hnonneg, BitVec.ofInt_toInt]
          obtain ⟨hview2, htab2, -⟩ := Server.run_view hgrow
          rw [theFile_some hfile, hstop] at hview2
          have hadv2 : Advances F s1.mach.view.mem s2.mach.view.mem :=
            Sound.growTo_advances hadv.sound hadv.filled hf (mt (hadv.isDir_iff f hf).mp hreg) hend hview2
          have hintact2 : Intact s2 :=
            .of_advances (fun i f hf => hfiles i f (htab ▸ hf)) hadv2 htab2
          exact hintact2.setFd _ _

theorem serveStat_intact (h : Intact s) (hrun : serveStat s = (.ok r, s')) : Intact s' := by
  unfold serveStat at hrun
  split at hrun
  · cases hrun
    exact h
  · rename_i i hlook
    obtain ⟨f, hasks, hview, htab, -⟩ := run_theFile hlook hrun
    obtain ⟨F, hsound, hfill, hfiles⟩ := h
    obtain ⟨u, v1, hstat, hret⟩ := Prog.bind_ok hview
    cases hret
    have hmem : s'.mach.view.mem = s.mach.view.mem := Sound.mem_statFile hsound (hfiles i f hasks.2) hstat
    have hadv : Advances F s.mach.mem s'.mach.mem := by
      change Advances F s.mach.view.mem s'.mach.view.mem
      rw [hmem]
      exact .refl hsound hfill
    exact .of_advances hfiles hadv htab

/-- A handler that leaves the server's memory alone. -/
theorem Intact.of_same (h : Intact s) (hmem : s'.mach.view = s.mach.view) (htab : s'.opentab = s.opentab) :
    Intact s' := by
  obtain ⟨F, hsound, hfill, hfiles⟩ := h
  have hadv : Advances F s.mach.mem s'.mach.mem := by
    change Advances F s.mach.view.mem s'.mach.view.mem
    rw [hmem]
    exact .refl hsound hfill
  exact .of_advances hfiles hadv htab

theorem serveFlush_intact (h : Intact s) (hrun : serveFlush s = (.ok r, s')) : Intact s' := by
  unfold serveFlush at hrun
  split at hrun
  · cases hrun
    exact h
  · rename_i i hlook
    obtain ⟨f, hasks, hview, htab, -⟩ := run_theFile hlook hrun
    obtain ⟨u, v1, hflush, hret⟩ := Prog.bind_ok hview
    cases hret
    exact h.of_same (fileFlush_same hflush) htab

theorem serveSync_intact (h : Intact s) (hrun : serveSync s = (.ok r, s')) : Intact s' := by
  unfold serveSync at hrun
  obtain ⟨hview, htab, -⟩ := Server.run_view hrun
  obtain ⟨u, v1, hsync, hret⟩ := Prog.bind_ok hview
  cases hret
  exact h.of_same (fsSync_same hsync) htab

/-- `openfile_alloc` leaves the disk and the files of the table. -/
theorem openfileAlloc_keeps (s : Server) (palloc : Int) : (openfileAlloc s palloc).2.2.mach = s.mach ∧
    ∀ i, ((openfileAlloc s palloc).2.2.opentab i).oFile = (s.opentab i).oFile := by
  have hhand : ∀ (t : Server) (j i : Fin MAXOPEN), ((t.handOut j).opentab i).oFile = (t.opentab i).oFile := by
    intro t j i
    unfold Server.handOut
    rcases eq_or_ne i j with rfl | hne
    · simp
    · simp [Function.update_of_ne hne]
  unfold openfileAlloc
  split
  · exact ⟨rfl, fun _ => rfl⟩
  · split
    · split
      · exact ⟨rfl, fun _ => rfl⟩
      · exact ⟨rfl, fun i => hhand _ _ i⟩
    · exact ⟨rfl, fun i => hhand _ _ i⟩

theorem serveOpen_intact {palloc : Int} {r : Int × Option (Fin MAXOPEN)} (h : Intact s) (hkeeps : OpenKeeps s)
    (hrun : serveOpen s palloc = (.ok r, s')) : Intact s' := by
  obtain ⟨F, hsound, hfill, hfiles⟩ := h
  obtain ⟨hmach, htab⟩ := openfileAlloc_keeps s palloc
  unfold serveOpen at hrun
  rcases halloc : openfileAlloc s palloc with ⟨r0, _ | i, s1⟩
  · rw [halloc] at hrun hmach htab
    cases hrun
    have hmach' : s'.mach = s.mach := hmach
    exact ⟨F, hmach'.symm ▸ hsound, hmach'.symm ▸ hfill, fun i f hf => hfiles i f (htab i ▸ hf)⟩
  · rw [halloc] at hrun hmach htab
    have hmach' : s1.mach = s.mach := hmach
    have hfiles1 : ∀ i f, (s1.opentab i).oFile = some f → F f := fun i f hf => hfiles i f (htab i ▸ hf)
    have hkeeps1 : OpenKeeps s1 := by
      unfold OpenKeeps Server.reqOmode Server.reqPath at hkeeps ⊢
      rwa [hmach']
    rw [← hmach'] at hsound hfill
    simp only at hrun
    split at hrun
    · cases hrun
      exact ⟨F, hsound, hfill, hfiles1⟩
    · -- the files that the path may have added
      have hopened : ∀ {res : Except Int FilePtr} {s2 : Server},
          s1.run (openPath s1.reqPath s1.reqOmode) = (.ok res, s2) →
          Intact s2 ∧ ∀ f, res = .ok f → ∃ F', Sound F' s2.mach.mem ∧ Filled F' s2.mach.mem ∧ F' f ∧
            ∀ i f, (s2.opentab i).oFile = some f → F' f := by
        intro res s2 hpath
        obtain ⟨hview, htab2, -⟩ := Server.run_view hpath
        obtain ⟨F', hopens, hfound⟩ : ∃ F', Opens F F' s1.mach.view.mem s2.mach.view.mem ∧
            ∀ f, res = .ok f → F' f := openPath_ok hsound hfill hkeeps1.1 hkeeps1.2 hview
        have hfiles2 : ∀ i f, (s2.opentab i).oFile = some f → F' f := fun i f hf =>
          hopens.sub f (hfiles1 i f (htab2 ▸ hf))
        exact ⟨⟨F', hopens.sound, hopens.filled, hfiles2⟩, fun f hf =>
          ⟨F', hopens.sound, hopens.filled, hfound f hf, hfiles2⟩⟩
      split at hrun
      · cases hrun
      · rename_i hpath
        cases hrun
        exact (hopened hpath).1
      · rename_i f s2 hpath
        obtain ⟨F', hsound2, hfill2, hf, hfiles2⟩ := (hopened hpath).2 f rfl
        cases hrun
        have hnew : Intact { s2 with
            opentab := Function.update s2.opentab i
              { s2.opentab i with oFile := some f, oMode := s2.reqOmode } } := by
          refine ⟨F', hsound2, hfill2, fun j g hg => ?_⟩
          rcases eq_or_ne j i with rfl | hne
          · simp only [Function.update_self] at hg
            cases hg
            exact hf
          · simp only [Function.update_of_ne hne] at hg
            exact hfiles2 j g hg
        exact hnew.setFd i _

/-- A request that keeps sizes in range leaves a sound disk. -/
theorem Intact.step {q : Request} (h : Intact s) (hkeep : Keeping s q) (hstep : Server.Step s q s') :
    Intact s' := by
  cases hstep with
  | clients page fds => exact h
  | @serve _ req palloc r hrun =>
      obtain ⟨hopen, hset, hread, hwrite⟩ := hkeep
      unfold serveRequest at hrun
      split at hrun
      · exact serveOpen_intact h (hopen ‹_›) hrun
      · rcases hreq : handlers req with _ | handler
        · rw [hreq] at hrun
          cases hrun
          exact h
        · rw [hreq] at hrun
          simp only at hrun
          rcases hres : handler s with ⟨e | r', s1⟩
          · rw [hres] at hrun
            cases hrun
          · rw [hres] at hrun
            cases hrun
            unfold handlers at hreq
            split at hreq
            · cases hreq
              exact serveRead_intact h (hread ‹_›) hres
            split at hreq
            · cases hreq
              exact serveStat_intact h hres
            split at hreq
            · cases hreq
              exact serveFlush_intact h hres
            split at hreq
            · cases hreq
              exact serveWrite_intact h (hwrite ‹_›) hres
            split at hreq
            · cases hreq
              exact serveSetSize_intact h (hset ‹_›) hres
            split at hreq
            · cases hreq
              exact serveSync_intact h hres
            · cases hreq

end

/-! ## The run -/

/-- In a run whose requests keep sizes in range, every file that can be reached or is open has a size
in range after every step. -/
theorem sizes_in_range {s s' : Server} {tr : List Request} (h : Intact s)
    (hrun : Run (Guarded Keeping Server.Step) s tr s') :
    (∀ g, Reach s'.mach.mem g → 0 ≤ (fileSize s'.mach.mem g).toInt ∧
      (fileSize s'.mach.mem g).toInt ≤ MAXFILESIZE) ∧
    ∀ i g, (s'.opentab i).oFile = some g → 0 ≤ (fileSize s'.mach.mem g).toInt ∧
      (fileSize s'.mach.mem g).toInt ≤ MAXFILESIZE := by
  have hmax : MAXFILESIZE = 4235264 := rfl
  obtain ⟨F, hsound, hfill, hfiles⟩ := hrun.preserves (fun _ _ _ h hstep => h.step hstep.1 hstep.2) h
  have hsize : ∀ g, F g → 0 ≤ (fileSize s'.mach.mem g).toInt ∧ (fileSize s'.mach.mem g).toInt ≤ MAXFILESIZE := by
    intro g hg
    have hle := hsound.size g hg
    rw [toInt_of_lt (by omega)]
    omega
  refine ⟨fun g hg => hsize g ?_, fun i g hg => hsize g (hfiles i g hg)⟩
  induction hg with
  | root => exact hsound.root
  | @entry d k j _ hdir _ hblk hj _ ih => exact hsound.entries d k j ih hdir hblk hj

/-! ## A request for a negative size -/

/-- The files of the sample disk, the entries that are not in use too. -/
def SampleEntries (g : FilePtr) : Prop := g = sRoot ∨ ∃ j < BLKFILES, g = ⟨3, 64 * j⟩

section

variable {g : FilePtr}

theorem sample_entry {j i : Nat} (hj : 0 < j) : sampleDisk (fun _ => 0) 3 (64 * j + i) = 0 := by
  have h3 : ∀ y, 36 ≤ y → sampleDisk (fun _ => 0) 3 y = 0 := by
    intro y hy
    show (if y = 0 then _ else if y = 32 then _ else if y = 34 then _ else if y = 35 then _ else _) = (0 : Word)
    rw [if_neg (by omega), if_neg (by omega), if_neg (by omega), if_neg (by omega)]
  exact h3 _ (by omega)

theorem sampleEntries_cases (hg : SampleEntries g) : SampleFiles g ∨
    ∀ i < 64, sampleDisk (fun _ => 0) g.blk (g.idx + i) = 0 := by
  rcases hg with rfl | ⟨j, -, rfl⟩
  · exact .inl (.inl rfl)
  · rcases Nat.eq_zero_or_pos j with rfl | hj
    · exact .inl (.inr rfl)
    · exact .inr fun i _ => sample_entry hj

theorem sampleEntries_of_dir (hg : SampleEntries g) (hdir : IsDir (sampleDisk fun _ => 0) g) : g = sRoot := by
  rcases sampleEntries_cases hg with (rfl | rfl) | hzero
  · rfl
  · exact absurd hdir (sample_not_dir _)
  · exact absurd hdir (zero_file hzero).2.2.2.2

theorem sample_sound : Sound SampleEntries (sampleDisk fun _ => 0) where
  owned := by
    have hroot := sample_root_block fun _ => 0
    refine (sample_owned _).extend ?_ ?_
    · rintro g (rfl | ⟨j, hj, rfl⟩)
      · exact .inl rfl
      · exact .inr ⟨sRoot, 0, j, .inl rfl, rfl, by rw [hroot]; decide, hj, by rw [hroot]⟩
    · intro r hr h0
      rcases sampleEntries_cases hr with hfile | hzero
      · exact hfile
      · obtain ⟨hdata, hind, -⟩ := zero_file hzero
        cases r with
        | data g k => exact absurd (hdata k) h0
        | indirect g => exact absurd hind h0
  root := .inl rfl
  entries := fun d k j hd hdir h0 hj => by
    obtain rfl := sampleEntries_of_dir hd hdir
    rcases sample_fileBlock _ (.inl rfl) h0 with ⟨-, -, hb⟩ | ⟨hfile, -⟩
    · rw [hb]
      exact .inr ⟨j, hj, rfl⟩
    · exact absurd hfile (by decide)
  size := fun g hg => by
    rcases sampleEntries_cases hg with (rfl | rfl) | hzero
    · decide
    · rw [sample_fileSize]
      decide
    · rw [(zero_file hzero).2.2.1]
      exact Nat.zero_le _
  named := fun g hg => by
    rcases sampleEntries_cases hg with (rfl | rfl) | hzero
    · exact ⟨1, by decide, by decide⟩
    · exact sample_named _
    · exact ⟨0, by decide, (zero_file hzero).2.2.2.1⟩
  plain := fun g hg h0 hdir => by
    obtain rfl := sampleEntries_of_dir hg hdir
    exact absurd h0 (by decide)

theorem sample_filled : Filled SampleEntries (sampleDisk fun _ => 0) := by
  intro d hd hdir
  obtain rfl := sampleEntries_of_dir hd hdir
  have hsize : (fileSize (sampleDisk fun _ => 0) sRoot).toNat = 4096 := rfl
  rw [hsize]
  refine ⟨rfl, fun k => ⟨fun h0 => ?_, fun hk => ?_⟩⟩
  · rcases sample_fileBlock _ (.inl rfl) h0 with ⟨-, rfl, -⟩ | ⟨hfile, -⟩
    · decide
    · exact absurd hfile (by decide)
  · have hk0 : k = 0 := by
      unfold BLKSIZE at hk
      omega
    rw [hk0, sample_root_block]
    decide

theorem sample_intact (n : Word) : Intact (sampleServer n 0) := by
  have hmem : (sampleServer n 0).mach.mem = sampleDisk fun _ => 0 := sample_mem _
  refine ⟨SampleEntries, hmem.symm ▸ sample_sound, hmem.symm ▸ sample_filled, fun i f hf => ?_⟩
  unfold sampleServer at hf
  simp only at hf
  split at hf
  · cases hf
    exact .inr ⟨0, by decide, rfl⟩
  · cases hf

end

/-- The file `a` is cut to a block. -/
theorem sizes_in_range_sample : ∃ s', Run (Guarded Keeping Server.Step) (sampleServer 4096 0)
    [.serve FSREQ_SET_SIZE 0] s' ∧ 0 ≤ (fileSize s'.mach.mem sRoot).toInt := by
  have hstep : Server.Step (sampleServer 4096 0) (.serve FSREQ_SET_SIZE 0)
      (serveRequest (sampleServer 4096 0) FSREQ_SET_SIZE 0).2 :=
    .serve (r := (0, none)) (Prod.ext rfl rfl)
  have hkeep : Keeping (sampleServer 4096 0) (.serve FSREQ_SET_SIZE 0) := by
    refine ⟨fun h => absurd h (by decide), fun _ i f hasks => ?_, fun h => absurd h (by decide),
      fun h => absurd h (by decide)⟩
    have hlook : openfileLookup (sampleServer 4096 0) (sampleServer 4096 0).reqFileid = some 0 := by decide
    obtain rfl : 0 = i := Option.some.inj (hlook.symm.trans hasks.1)
    obtain rfl : sampleFile = f := Option.some.inj hasks.2
    have hmem : (sampleServer 4096 0).mach.mem = sampleDisk fun _ => 0 := sample_mem _
    rw [hmem]
    exact ⟨sample_not_dir _, by decide, by decide⟩
  have hrun : Run (Guarded Keeping Server.Step) (sampleServer 4096 0) [.serve FSREQ_SET_SIZE 0] _ :=
    Run.single ⟨hkeep, hstep⟩
  exact ⟨_, hrun, ((sizes_in_range (sample_intact 4096) hrun).1 sRoot .root).1⟩

/-- `set_size` of the file `a` to -1. -/
theorem set_size_negative : ¬ ∀ (s s' : Server) (tr : List Request), Intact s → Run Server.Step s tr s' →
    ∀ i g, (s'.opentab i).oFile = some g → 0 ≤ (fileSize s'.mach.mem g).toInt ∧
      (fileSize s'.mach.mem g).toInt ≤ MAXFILESIZE := by
  intro hall
  have hstep : Server.Step (sampleServer (-1) 0) (.serve FSREQ_SET_SIZE 0)
      (serveRequest (sampleServer (-1) 0) FSREQ_SET_SIZE 0).2 :=
    .serve (r := (0, none)) (Prod.ext rfl rfl)
  have hneg := (hall _ _ _ (sample_intact (-1)) (Run.single hstep) 0 sampleFile rfl).1
  have hsize : fileSize (serveRequest (sampleServer (-1) 0) FSREQ_SET_SIZE 0).2.mach.mem sampleFile = -1 := rfl
  rw [hsize] at hneg
  exact absurd hneg (by decide)

end SisOp.Fs
