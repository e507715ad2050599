/-
# `SisOp.Loader.Image` — the two loaders build the same image

`load_icode` copies byte ranges into a region, `map_segment` moves pages; unless memory
runs out both return, and every segment that stays clear of the page of the initial
stack is in both environments what the program header says (`loaders_agree`).
`load_icode` allocates the stack last, so it replaces what a segment has there.
-/
import SisOp.Loader.MapSegment
import SisOp.Runs.Fork

namespace SisOp.Loader

open SisOp.Lib SisOp.Jos

section

variable {K K' : Ppn → Prop} {k : Kernel} {s : Loading} {e cur c : Slot} {d dcur dc : Ppn} {child : Word}
  {file : Program} {phs : List Proghdr}

theorem Proghdr.InUser.userSized {ph : Proghdr} (h : ph.InUser) (hfits : ph.Fits file) (htype : ph.pType = ELF_PROG_LOAD) :
    UserSized ph := by
  refine ⟨hfits.size, ?_⟩
  rcases Nat.eq_zero_or_pos ph.pMemsz.toNat with h0 | hpos
  · exact .inl h0
  · right
    have haddr := hfits.addresses
    -- the last byte of the segment
    obtain ⟨x, hx⟩ : ∃ x : Word, x.toNat = ph.pVa.toNat + ph.pMemsz.toNat - 1 := by
      refine ⟨BitVec.ofNat 32 (ph.pVa.toNat + ph.pMemsz.toNat - 1), ?_⟩
      rw [BitVec.toNat_ofNat]
      exact Nat.mod_eq_of_lt (by omega)
    have hlast := h x ⟨htype, by unfold vpn; omega, by unfold vpn; omega⟩
    omega

/-- Both loaders return, and agree with the program headers. -/
theorem loaders_agree (hmagic : bytesWord (file.bytes 0 4) = ELF_MAGIC)
    (hfits : ∀ ph ∈ phs, ph.pType = ELF_PROG_LOAD → ph.Fits file ∧ ph.InUser) (hapart : Apart phs)
    (hstack : ClearOfStack phs)
    (hk : MemInv K k) (hopen : TablesOpen k.dirs k.phys) (hd : k.dirs e = some d)
    (hpages : ¬ OutOfPages (loadIcode file k.phys d phs))
    (hs : MemInv K' s.kernel) (hopen' : TablesOpen s.kernel.dirs s.kernel.phys) (hne : c ≠ cur)
    (hc : envid2env s.kernel cur child false = .ok c) (hdcur : s.kernel.dirs cur = some dcur)
    (hdc : s.kernel.dirs c = some dc) (hmemory : ¬ NoMemory (mapSegments file cur child phs s)) :
    ∃ m s', loadIcode file k.phys d phs = .ok m ∧ mapSegments file cur child phs s = .ok (0, s') ∧
      ∀ ph ∈ phs, ph.pType = ELF_PROG_LOAD → ∀ a, Among ph.pVa ph.pMemsz.toNat a →
        byteAt k.dirs m e a = some (imageByte file ph (a.toNat - ph.pVa.toNat)) ∧
        byteAt s'.kernel.dirs s'.kernel.phys c a = some (imageByte file ph (a.toNat - ph.pVa.toNat)) := by
  have hsized : ∀ ph ∈ phs, ph.pType = ELF_PROG_LOAD → UserSized ph := fun ph hph htype =>
    (hfits ph hph htype).2.userSized (hfits ph hph htype).1 htype
  obtain ⟨m, hload⟩ := (loadIcode_cases hk.sound hopen hd hmagic hsized).resolve_left hpages
  obtain ⟨s', hmap⟩ := (mapSegments_total hne hs.sound hopen' hc hdcur hdc hfits).resolve_left hmemory
  have hplaced := loadIcode_placed hk.sound hd hapart hstack hsized hload
  obtain ⟨m', hs', -, hplaced'⟩ := mapSegments_placed hne hs.sound hc hapart
    (fun ph hph htype => (hfits ph hph htype).1) hmap (lt_irrefl (0 : Int))
  refine ⟨m, s', hload, hmap, fun ph hph htype a ha => ⟨hplaced ph hph htype a ha, ?_⟩⟩
  rw [hs']
  exact (hplaced' ph hph htype).2 a ha

end

/-! ## A segment of one zero byte -/

/-- The magic number and nothing else. -/
def sampleFile : Program := ⟨fun k => [0x7F, 0x45, 0x4C, 0x46].getD k 0, 4, by decide⟩

def blank (va : Word) : Proghdr := ⟨ELF_PROG_LOAD, 0, va, 0, 1, ELF_PROG_FLAG_WRITE⟩

section

variable {K : Ppn → Prop} {dirs : Slot → Option Ppn} {m m' : Phys} {e : Slot} {d p : Ppn} {l : List Ppn} {va : Word}

/-- The free pages that a new mapping leaves are as they were. -/
theorem map_new_free {m0 : Phys} {l' : List Ppn} {perm : Word} {zero : Bool} (h : Ledger K dirs [] (p :: l) m)
    (h' : Ledger K dirs [] l' m') (hd : dirs e = some d) (hi : UserPdx (PDX va)) (hflags : FlagsOnly perm)
    (hnone : entry dirs m e (PDX va) (PTX va) = none) (halloc : pageAlloc m zero = .ok (some p, m0))
    (hins : pageInsert m0 d p va perm = .ok (0, m')) : ∀ q ∈ l', m'.mem q = m.mem q ∧ q ∈ l := by
  obtain ⟨l0, heq, h0, hfresh, hhanded, -⟩ := h.pageAlloc halloc
  obtain ⟨-, rfl⟩ := List.cons.inj heq
  have hnone0 : entry dirs m0 e (PDX va) (PTX va) = none := by rw [hhanded.entries, hnone]
  rcases h0.pageInsert hd hi hflags hfresh.notMem hfresh.notKernel hfresh.not_isTab hfresh.bound
    (fun w hw => by
      rw [hnone0] at hw
      cases hw) hins with ⟨h0, -⟩ | ⟨l2, hs, -, -, htaken, hr, -⟩
  · exact absurd h0 (by decide)
  · obtain rfl : l' = l2 := h'.pool.chain.unique hr.ledger.pool.chain
    have hsplit := (htaken hnone0).split
    intro q hq
    have hql : q ∈ l := by
      rw [hsplit]
      exact List.mem_append_right _ hq
    have hqs : q ∉ hs := by
      have hnodup := h0.pool.nodup
      rw [hsplit] at hnodup
      exact fun hmem => (List.nodup_append.mp hnodup).2.2 q hmem q hq rfl
    have htab : ¬ IsTab dirs m0 q := fun ⟨r, _, hr⟩ => h0.free_unused hql r hr
    refine ⟨(hr.touches.data q hqs htab).trans (hhanded.mem q fun heq => hfresh.notMem (heq ▸ hql)), hql⟩

/-- A store leaves the free pages as they are. -/
theorem storeByte_free {flags : Word} {b : Byte} {q : Ppn} (h : Ledger K dirs [] l m) (hd : dirs e = some d)
    (hi : UserPdx (PDX va)) (hf : flags &&& PTE_P = PTE_P) (hstore : storeByte m d va flags b = some m') (hq : q ∈ l) :
    m'.mem q = m.mem q := by
  rw [storeByte, Option.map_eq_some_iff] at hstore
  obtain ⟨x, htrans, rfl⟩ := hstore
  obtain ⟨w, hw, -, hx⟩ := translate_entry hd hi hf htrans
  refine store_mem_of_ne' fun heq => h.free_unused hq (.user e (PDX va) (PTX va)) ?_
  exact (target_user hw).trans (congrArg some (hx.symm.trans heq.symm))

/-- Loading it takes a page, and one for a page table if need be. -/
theorem blank_load (va : Word) (h : Sound K dirs m) (hl : Ledger K dirs [] (p :: l) m) (hopen : TablesOpen dirs m)
    (hd : dirs e = some d) (hi : UserPdx (PDX va)) (hnone : entry dirs m e (PDX va) (PTX va) = none) (hroom : l ≠ [])
    (hregion : regionAlloc m d va 1 = regionAllocLoop d 1 m va) (hva : va.toNat + 1 ≤ UTOP.toNat) :
    ∃ m' l', loadPh sampleFile d m (blank va) = .ok m' ∧ Ledger K dirs [] l' m' ∧ Sound K dirs m' ∧
      TablesOpen dirs m' ∧ l.length ≤ l'.length + 1 ∧ (∀ q ∈ l', m'.mem q = m.mem q ∧ q ∈ l) ∧
      entry dirs m' = setEntry (entry dirs m) e (PDX va) (PTX va) (some (mkPte p (PTE_W ||| PTE_U))) := by
  have hflags : FlagsOnly (PTE_W ||| PTE_U) := by decide
  obtain ⟨m0, m1, l', halloc, hins, hmapped⟩ := hl.map_total false hd hi hnone (fun _ => hroom) hflags
  obtain ⟨l0, heq, h0, hfresh, -, -⟩ := hl.pageAlloc halloc
  obtain ⟨-, rfl⟩ := List.cons.inj heq
  have hopen1 : TablesOpen dirs m1 := by
    rcases pageInsert_cases h0 (pageAlloc_open hl hopen halloc) hd hi hfresh.notMem hfresh.notKernel hfresh.not_isTab
      hfresh.bound (PTE_W ||| PTE_U) with ⟨-, hl0⟩ | ⟨m2, hins2, hopen2⟩
    · exact absurd hl0 hroom
    · obtain rfl : m1 = m2 := (Prod.mk.inj (Except.ok.inj (hins.symm.trans hins2))).2
      exact hopen2
  obtain ⟨h1, -, hsolo, -⟩ := h.map_new hd hi hflags halloc hins
  replace hsolo := hsolo (by decide)
  have hloop : regionAlloc m d va 1 = .ok m1 := by
    rw [hregion]
    exact bind_eq_ok.mpr ⟨_, halloc, bind_eq_ok.mpr ⟨_, hins, rfl⟩⟩
  -- the one byte
  obtain ⟨m2, hclear, hopen2⟩ := storeBytes_total hd (by decide) kernelWrite_of_userWrite [0] hmapped.ledger hopen1 hva
    fun a ha => solo_congr (by
      unfold Among at ha
      unfold vpn
      simp only [List.length_cons, List.length_nil] at ha
      omega) hsolo
  have hpoked := Ledger.storeBytes hd (by decide) [0] hmapped.ledger hva hclear
  refine ⟨m2, l', ?_, hpoked.ledger, (hpoked.changed h1.narrow e).sound, hopen2, ?_, fun q hq => ?_, ?_⟩
  · have htype : ¬ (blank va).pType ≠ ELF_PROG_LOAD := not_not.mpr rfl
    rw [loadPh, if_neg htype]
    refine bind_eq_ok.mpr ⟨m1, hloop, ?_⟩
    have hva0 : (blank va).pVa + (blank va).pFilesz = va := BitVec.add_zero va
    have hcopy : storeBytes m1 d (PTE_P ||| PTE_W) (blank va).pVa
      (sampleFile.bytes (blank va).pOffset.toNat (blank va).pFilesz.toNat) = some m1 := rfl
    have hclear' : storeBytes m1 d (PTE_P ||| PTE_W) ((blank va).pVa + (blank va).pFilesz)
        (List.replicate ((blank va).pMemsz - (blank va).pFilesz).toNat 0) = some m2 := by
      have hone : ((blank va).pMemsz - (blank va).pFilesz).toNat = 1 := by
        show ((1 : Word) - 0).toNat = 1
        decide
      rw [hva0, hone]
      exact hclear
    simp only [hcopy, hclear']
    rfl
  · obtain ⟨hs, htaken⟩ := hmapped.taken
    have hsplit := congrArg List.length htaken.split
    rw [List.length_append] at hsplit
    have hone := htaken.one
    omega
  · obtain ⟨hmem, hql⟩ := map_new_free hl hmapped.ledger hd hi hflags hnone halloc hins q hq
    obtain ⟨m3, hstore, hend⟩ := Option.bind_eq_some_iff.mp hclear
    cases hend
    exact ⟨(storeByte_free hmapped.ledger hd hi (by decide) hstore hq).trans hmem, hql⟩
  · rw [hpoked.entries, hmapped.entries]

/-- Two environments that have nothing mapped, and room for more. -/
structure Bare (K : Ppn → Prop) (k : Kernel) (l : List Ppn) : Prop where
  inv : MemInv K k
  ledger : Ledger K k.dirs [] l k.phys
  room : 900 ≤ l.length
  dirs : ∀ e : Slot, e = 0 ∨ e = 1 → ∃ d, k.dirs e = some d
  child : envid2env k 0 0x1001 false = .ok 1
  tables : ∀ e i, tableOf k.dirs k.phys e i = none

theorem Bare.open {k : Kernel} (h : Bare K k l) : TablesOpen k.dirs k.phys := fun e d i hd hi hv => by
  have hnone := h.tables e i
  rw [tableOf, if_pos hi, hd, Option.bind_some, if_pos hv] at hnone
  cases hnone

theorem bare_exists : ∃ K k l, Bare K k l := by
  obtain ⟨r, hr⟩ := machine8M_completes
  obtain ⟨S, l, hl, hlen, -⟩ := machine8M_room hr
  obtain ⟨a, l, rfl⟩ : ∃ a t, l = a :: t := List.exists_cons_of_ne_nil (by
    rintro rfl
    simp at hlen)
  rw [List.length_cons] at hlen
  obtain ⟨b, l, rfl⟩ : ∃ b t, l = b :: t := List.exists_cons_of_ne_nil (by
    rintro rfl
    simp at hlen)
  rw [List.length_cons] at hlen
  have hledger := hl.ledger
  have hlist : (kernelOf r.phys).envFreeList = some 0 := by
    show (envInit fun _ => .zero).2 = some 0
    rw [envInit_zero]
  -- the first environment
  obtain ⟨m1, hsetup1⟩ := hledger.setupVm_total
  obtain ⟨l1, heq1, h1, -, -, -⟩ := hledger.setupVm rfl hsetup1
  obtain ⟨-, rfl⟩ := List.cons.inj heq1
  set k1 := (kernelOf r.phys).allocated 0 0 a m1 with hk1
  have hinv1 : MemInv (· ∉ a :: b :: l) k1 := (hl.memInv.refl.allocated hlist 0 hsetup1).inv
  have hdirs1 : k1.dirs = Function.update (fun _ => none) 0 (some a) := by
    rw [hk1, dirs_allocated, kernelOf_dirs]
  have hlist1 : k1.envFreeList = some 1 := by
    rw [hk1, allocated_envFreeList, kernelOf_envs]
    exact nextSlot_zero
  rw [← hdirs1] at h1
  -- the second one
  obtain ⟨m2, hsetup2⟩ := h1.setupVm_total
  have hnone1 : k1.dirs 1 = none := by
    rw [hdirs1]
    exact Function.update_of_ne (by decide) ..
  obtain ⟨l2, heq2, h2, -, -, -⟩ := h1.setupVm hnone1 hsetup2
  obtain ⟨-, rfl⟩ := List.cons.inj heq2
  have hinv2 : MemInv (· ∉ a :: b :: l) (k1.allocated 1 0 b m2) := (hinv1.refl.allocated hlist1 0 hsetup2).inv
  have hdirs2 : (k1.allocated 1 0 b m2).dirs = Function.update k1.dirs 1 (some b) := dirs_allocated ..
  have hab : a ≠ b := fun heq => h1.free_unused (p := b) List.mem_cons_self (.dir 0) (by
    show k1.dirs 0 = some b
    rw [hdirs1, Function.update_self, heq])
  have hmem : m2.mem a = m1.mem a := by
    obtain ⟨m0, halloc, -, rfl⟩ := hsetup2
    obtain ⟨-, -, -, -, hhanded, -⟩ := h1.pageAlloc halloc
    rw [store_mem_of_ne' hab, fill_mem, Function.update_of_ne hab, incref_mem, hhanded.mem a hab]
  refine ⟨_, k1.allocated 1 0 b m2, l, hinv2, ?_, by omega, ?_, ?_, ?_⟩
  · rw [hdirs2]
    exact h2
  · rintro e (rfl | rfl)
    · exact ⟨a, by rw [hdirs2, Function.update_of_ne (by decide), hdirs1, Function.update_self]⟩
    · exact ⟨b, by rw [hdirs2, Function.update_self]⟩
  · have hfresh : ∃ E : Env, E.envId = 0 ∧ (k1.allocated 1 0 b m2).envs 1 = E.fresh 1 0 b := by
      refine ⟨k1.envs 1, ?_, ?_⟩
      · rw [hk1]
        simp only [Kernel.allocated, Kernel.setEnv, Kernel.log]
        rw [Function.update_of_ne (by decide), kernelOf_envs]
        rfl
      · simp [Kernel.allocated, Kernel.setEnv, Kernel.log]
    obtain ⟨E, hid, hself⟩ := hfresh
    refine envid2env_of (by decide) (by decide) ?_ ?_ fun hf => by cases hf
    · rw [Kernel.status, hself]
      simp [Env.fresh]
    · rw [hself]
      show nextEnvId E.envId 1 = 0x1001
      rw [hid]
      decide
  · intro e i
    rw [hdirs2]
    change tableOf _ m2 e i = none
    rcases eq_or_ne e 1 with rfl | he1
    · exact setupVm_bare h1 hsetup2 i
    · rcases eq_or_ne e 0 with rfl | he0
      · have h0 := setupVm_bare (e := 0) hledger hsetup1 i
        have hdir0 : Function.update k1.dirs 1 (some b) 0 = some a := by
          rw [Function.update_of_ne (by decide), hdirs1, Function.update_self]
        rw [tableOf, Function.update_self] at h0
        rw [tableOf, hdir0]
        simp only [Option.bind_some] at h0 ⊢
        rw [hmem]
        exact h0
      · have hnone : Function.update k1.dirs 1 (some b) e = none := by
          rw [Function.update_of_ne he1, hdirs1, Function.update_of_ne he0]
        rw [tableOf, hnone]
        simp

/-- What lies in the free pages. -/
def litter (m : Phys) (l : List Ppn) (w : Word) : Phys :=
  { m with mem := fun q => if q ∈ l then fun _ => w else m.mem q }

/-- The free pages may hold anything. -/
theorem Bare.litter {k : Kernel} (h : Bare K k l) (w : Word) : Bare K { k with phys := Loader.litter k.phys l w } l := by
  have hmem : ∀ q, q ∉ l → (Loader.litter k.phys l w).mem q = k.phys.mem q := fun q hq => if_neg hq
  have htab : ∀ q, IsTab k.dirs k.phys q → q ∉ l := fun q ⟨r, _, hr⟩ hq => h.ledger.free_unused hq r hr
  have hsame := entry_write_data k.dirs k.phys (Loader.litter k.phys l w) fun q hq => hmem q (htab q hq)
  have htgt := target_congr hsame.1 hsame.2
  have hkern : KernPart K k.dirs (Loader.litter k.phys l w) :=
    h.ledger.toKernPart.congr rfl (fun q hq => hmem q fun hql => (h.ledger.pool.fixed q hq).1 hql)
      fun e d i hd _ => by rw [hmem d (htab d ⟨.dir e, trivial, hd⟩)]
  have hledger : Ledger K k.dirs [] l (Loader.litter k.phys l w) :=
    { hkern with
      pool := by
        rw [htgt]
        exact h.ledger.pool
      bound := fun q hq => by
        rw [uses, htgt] at hq
        exact h.ledger.bound q hq }
  exact
    { inv :=
        { sound := ⟨⟨l, hledger⟩, fun q => by
            change uses k.dirs (Loader.litter k.phys l w) [] q < 2 ^ 16
            rw [uses, htgt]
            exact h.inv.sound.narrow q⟩
          slots := h.inv.slots }
      ledger := hledger
      room := h.room
      dirs := h.dirs
      child := h.child
      tables := fun e i => (congrFun (congrFun hsame.1 e) i).trans (h.tables e i) }

theorem Bare.unmapped {k : Kernel} (h : Bare K k l) (e : Slot) (i j : Idx) : entry k.dirs k.phys e i j = none :=
  entry_none_of_table (h.tables e i)

/-- The child gets a blank page. -/
theorem blank_map {k : Kernel} (h : Bare K k l) (hva : VaOk va) (hoff : PGOFF va = 0) :
    ∃ s', mapSegments sampleFile 0 0x1001 [blank va] ⟨k, 0⟩ = .ok (0, s') := by
  obtain ⟨d, hd⟩ := h.dirs 1 (.inr rfl)
  have hroom := h.room
  obtain ⟨p, l, rfl⟩ : ∃ p t, l = p :: t := List.exists_cons_of_ne_nil (by
    rintro rfl
    simp at hroom)
  obtain ⟨m1, m2, l', halloc, hins, -⟩ := h.ledger.map_total true hd hva.user (h.unmapped ..) (fun _ hl => by
    rw [hl] at hroom
    simp at hroom) (show FlagsOnly (PTE_P ||| PTE_U ||| PTE_W) by decide)
  have hd' : (k.envs 1).envPgdir = some d := hd
  have hcall : sysPageAlloc k 0 0x1001 va (PTE_P ||| PTE_U ||| PTE_W) = .ok (0, { k with phys := m2 }) := by
    simp only [sysPageAlloc, show PermOk (PTE_P ||| PTE_U ||| PTE_W) by decide, hva, not_true_eq_false, if_false, h.child,
      halloc, hd', hins, bind, Except.bind]
    rfl
  have hseg : mapSegment sampleFile 0 0x1001 va 1 0 0 (PTE_P ||| PTE_U ||| PTE_W) ⟨k, 0⟩ =
      .ok (0, ⟨{ k with phys := m2 }, 0⟩) := by
    have hstart : va - 0 + 0 = va := (BitVec.add_zero _).trans (BitVec.sub_zero va)
    rw [mapSegment, hoff, show ((1 + 0 : Word).toNat + 4095) / 4096 = 1 by decide, mapSegmentLoop, mapSegmentPage,
      if_pos (show (0 + 0 : Word) ≤ 0 by decide), hstart, hcall]
    rfl
  refine ⟨⟨{ k with phys := m2 }, 0⟩, ?_⟩
  have htype : ¬ (blank va).pType ≠ ELF_PROG_LOAD := not_not.mpr rfl
  rw [mapSegments, if_neg htype]
  have hflag : (if (blank va).pFlags &&& ELF_PROG_FLAG_WRITE ≠ 0 then PTE_P ||| PTE_U ||| PTE_W else PTE_P ||| PTE_U) =
      PTE_P ||| PTE_U ||| PTE_W := if_pos (show ELF_PROG_FLAG_WRITE &&& ELF_PROG_FLAG_WRITE ≠ 0 by decide)
  refine bind_eq_ok.mpr ⟨(0, ⟨{ k with phys := m2 }, 0⟩), ?_, rfl⟩
  rw [hflag]
  exact hseg

theorem blank_fits (va : Word) (halign : va.toNat % 4096 = 0) (hva : va.toNat + 4096 ≤ UTOP.toNat) :
    (blank va).Fits sampleFile ∧ (blank va).InUser := by
  rw [UTOP_toNat] at hva
  refine ⟨⟨show (0 : Word) ≤ 1 by decide, ?_, show 0 + 0 ≤ 4 by decide, ?_⟩, fun a ha => ?_⟩
  · exact halign.symm
  · show va.toNat + 1 < 2 ^ 32
    omega
  · obtain ⟨-, hlow, hhigh⟩ := ha
    change vpn va ≤ vpn a at hlow
    change vpn a * 4096 < va.toNat + 1 at hhigh
    rw [UTOP_toNat]
    unfold vpn at *
    omega

/-- The program with this segment is loaded. -/
theorem blank_loadIcode {k : Kernel} (h : Bare K k l) (hd : k.dirs 0 = some d) :
    ∃ m, loadIcode sampleFile k.phys d [blank 0x800000] = .ok m := by
  have hroom := h.room
  obtain ⟨p, l, rfl⟩ : ∃ p t, l = p :: t := List.exists_cons_of_ne_nil (by
    rintro rfl
    simp at hroom)
  rw [List.length_cons] at hroom
  obtain ⟨m1, l1, hload, hl1, -, -, hlen, -, hent⟩ := blank_load 0x800000 h.inv.sound h.ledger h.open hd
    (by decide) (h.unmapped ..) (fun hl => by simp [hl] at hroom) rfl (by decide)
  obtain ⟨-, -, m2, hstack, -⟩ := stack_total hl1 hd (by omega) (by
    rw [hent, setEntry_of_ne (by decide), h.unmapped])
  refine ⟨m2, ?_⟩
  rw [loadIcode, if_neg (show ¬ bytesWord (sampleFile.bytes 0 4) ≠ ELF_MAGIC by decide), List.foldlM_cons, hload]
  exact hstack

end

/-- On a machine with two environments both loaders put the byte at `0x800000`. -/
theorem loaders_agree_blank : ∃ K k l, Bare K k l ∧ ∃ d m s', k.dirs 0 = some d ∧
    loadIcode sampleFile k.phys d [blank 0x800000] = .ok m ∧
    mapSegments sampleFile 0 0x1001 [blank 0x800000] ⟨k, 0⟩ = .ok (0, s') ∧
    byteAt k.dirs m 0 0x800000 = some 0 ∧ byteAt s'.kernel.dirs s'.kernel.phys 1 0x800000 = some 0 := by
  obtain ⟨K, k, l, h⟩ := bare_exists
  obtain ⟨d, hd⟩ := h.dirs 0 (.inl rfl)
  obtain ⟨d', hd'⟩ := h.dirs 1 (.inr rfl)
  obtain ⟨m0, hload⟩ := blank_loadIcode h hd
  obtain ⟨s0, hmap⟩ := blank_map h (show VaOk 0x800000 by decide) (by decide)
  have hfits := blank_fits 0x800000 (by decide) (by decide)
  have hmagic : bytesWord (sampleFile.bytes 0 4) = ELF_MAGIC := by decide
  obtain ⟨m, s', hload', hmap', hsame⟩ := loaders_agree (s := ⟨k, 0⟩) hmagic (fun ph hph _ => by
      rw [List.mem_singleton.mp hph]
      exact hfits) (List.pairwise_singleton ..) (fun ph hph hon => by
      rw [List.mem_singleton.mp hph] at hon
      exact absurd hon.2.2 (by decide)) h.inv h.open hd (fun hno => by
      rw [hload] at hno
      rcases hno with hno | hno <;> cases hno) h.inv h.open (by decide) h.child hd hd' (fun hno => by
      rw [hmap] at hno
      rcases hno with ⟨t, hno⟩ | hno
      · exact absurd (Prod.mk.inj (Except.ok.inj hno)).1 (by decide)
      · cases hno)
  have hbyte := hsame (blank 0x800000) (List.mem_singleton_self _) rfl 0x800000
    (show Among 0x800000 1 0x800000 from ⟨le_rfl, by decide⟩)
  exact ⟨K, k, l, h, d, m, s', hd, hload', hmap', hbyte.1, hbyte.2⟩

/-- A segment on the page of the initial stack: `map_segment` gives the child a zero byte, after
`load_icode` its place holds what a free page held. -/
theorem loaders_disagree : ∃ K k l, Bare K k l ∧ TablesOpen k.dirs k.phys ∧ (blank stackVa).Fits sampleFile ∧
    (blank stackVa).InUser ∧ Apart [blank stackVa] ∧ ∃ d m s', k.dirs 0 = some d ∧
      loadIcode sampleFile k.phys d [blank stackVa] = .ok m ∧
      mapSegments sampleFile 0 0x1001 [blank stackVa] ⟨k, 0⟩ = .ok (0, s') ∧
      imageByte sampleFile (blank stackVa) 0 = 0 ∧ byteAt k.dirs m 0 stackVa = some 1 := by
  obtain ⟨K, k0, l, hbare⟩ := bare_exists
  have h := hbare.litter 0x01010101
  set k : Kernel := { k0 with phys := litter k0.phys l 0x01010101 } with hk
  obtain ⟨d, hd⟩ := h.dirs 0 (.inl rfl)
  obtain ⟨s', hmap⟩ := blank_map h (show VaOk stackVa by decide) (by decide)
  obtain ⟨hfits, huser⟩ := blank_fits stackVa (by decide) (by decide)
  have hroom := h.room
  obtain ⟨p, l1, rfl⟩ : ∃ p t, l = p :: t := List.exists_cons_of_ne_nil (by
    rintro rfl
    simp at hroom)
  rw [List.length_cons] at hroom
  obtain ⟨m1, l2, hload, hl2, h2, hopen2, hlen, hfree, -⟩ := blank_load stackVa h.inv.sound h.ledger h.open hd
    (by decide) (h.unmapped ..) (fun hl => by simp [hl] at hroom) rfl (by decide)
  obtain ⟨q, l3, rfl⟩ : ∃ q t, l2 = q :: t := List.exists_cons_of_ne_nil (by
    rintro rfl
    simp at hlen
    omega)
  rw [List.length_cons] at hlen
  -- the page that the stack gets
  obtain ⟨m2, halloc⟩ := hl2.alloc_total false
  obtain ⟨l4, heq, h4, hfresh, -, -⟩ := hl2.pageAlloc halloc
  obtain ⟨-, rfl⟩ := List.cons.inj heq
  have hcases := pageInsert_cases h4 (pageAlloc_open hl2 hopen2 halloc) hd (show UserPdx (PDX stackVa) by decide)
    hfresh.notMem hfresh.notKernel hfresh.not_isTab hfresh.bound (PTE_W ||| PTE_U)
  obtain ⟨m3, hins, -⟩ := hcases.resolve_left fun hand => by
    rw [hand.2] at hlen
    simp at hlen
    omega
  obtain ⟨-, -, -, hbytes, -⟩ := h2.map_new hd (show UserPdx (PDX stackVa) by decide) (by decide) halloc hins
  have hmem2 : m2.mem q = m1.mem q := by
    obtain ⟨-, m', hm', hm2⟩ := pageAlloc_some halloc
    rw [hm2, hm']
    rfl
  obtain ⟨hmem1, hq⟩ := hfree q List.mem_cons_self
  have hlitter : k.phys.mem q = fun _ => 0x01010101 := if_pos (List.mem_cons_of_mem _ hq)
  have hstack : regionAlloc m1 d (USTACKTOP - PGSIZE) PGSIZE = .ok m3 := by
    have hloop : regionAllocLoop d 1 m1 stackVa = .ok m3 :=
      bind_eq_ok.mpr ⟨_, halloc, bind_eq_ok.mpr ⟨_, hins, rfl⟩⟩
    exact hloop
  refine ⟨K, k, _, h, h.open, hfits, huser, List.pairwise_singleton .., d, m3, s', hd, ?_, hmap, by decide, ?_⟩
  · rw [loadIcode, if_neg (show ¬ bytesWord (sampleFile.bytes 0 4) ≠ ELF_MAGIC by decide), List.foldlM_cons, hload]
    exact hstack
  · rw [hbytes stackVa rfl, hmem2, hmem1, hlitter]
    decide

end SisOp.Loader
