/-
# `SisOp.Loader.LoadIcode` — the image that `load_icode` builds (`kern/env.c`)

A program header asks for an image: at `p_va + k` byte `k` of the segment's file part, and
zeros after it (`Placed`).  `load_icode` allocates the pages of a segment and writes bytes
and zeros through the new directory; what it writes for one segment stays, because no
later segment lies on the same pages.
-/
import SisOp.Memory.Faults
import SisOp.Jos.Boot

namespace SisOp.Loader

open SisOp.Lib SisOp.Jos

/-! ## Programs -/

def ELF_MAGIC : Word := 0x464C457F
def ELF_PROG_LOAD : Word := 1
def ELF_PROG_FLAG_WRITE : Word := 2

/-- A file, and what lies behind it where it is in memory. -/
structure Program where
  byte : Nat → Byte
  /-- `f_size`. -/
  size : Nat
  /-- ... is an `off_t`. -/
  small : size < 2 ^ 31

/-- `n` bytes from `offset` on. -/
def Program.bytes (file : Program) (offset n : Nat) : List Byte :=
  (List.range n).map fun k => file.byte (offset + k)

/-- `struct Proghdr`, as far as it is read. -/
structure Proghdr where
  pType : Word
  pOffset : Word
  pVa : Word
  pFilesz : Word
  pMemsz : Word
  pFlags : Word

/-- The segment has a part of the page of `a`.  The page of an unaligned `p_va` counts. -/
def Proghdr.OnPage (ph : Proghdr) (a : Word) : Prop :=
  ph.pType = ELF_PROG_LOAD ∧ vpn ph.pVa ≤ vpn a ∧ vpn a * 4096 < ph.pVa.toNat + ph.pMemsz.toNat

/-- Byte `k` of the segment's image. -/
def imageByte (file : Program) (ph : Proghdr) (k : Nat) : Byte :=
  if k < ph.pFilesz.toNat then file.byte (ph.pOffset.toNat + k) else 0

/-- `e` has the image of the segment. -/
def Placed (dirs : Slot → Option Ppn) (m : Phys) (e : Slot) (file : Program) (ph : Proghdr) : Prop :=
  ∀ a, Among ph.pVa ph.pMemsz.toNat a → byteAt dirs m e a = some (imageByte file ph (a.toNat - ph.pVa.toNat))

/-! ## `load_icode` -/

/-- The turn of the loop for one program header.  The difference of the two sizes is unsigned,
so the test that it is negative never holds. -/
def loadPh (file : Program) (pgdir : Ppn) (m : Phys) (ph : Proghdr) : Except String Phys := do
  if ph.pType ≠ ELF_PROG_LOAD then return m
  let m ← regionAlloc m pgdir ph.pVa ph.pMemsz
  match storeBytes m pgdir (PTE_P ||| PTE_W) ph.pVa (file.bytes ph.pOffset.toNat ph.pFilesz.toNat) with
  | none => .error "Kernel Page Fault"
  | some m =>
      match storeBytes m pgdir (PTE_P ||| PTE_W) (ph.pVa + ph.pFilesz)
          (List.replicate (ph.pMemsz - ph.pFilesz).toNat 0) with
      | none => .error "Kernel Page Fault"
      | some m => return m

/-- The memory part of `load_icode(e, binary)`. -/
def loadIcode (file : Program) (m : Phys) (pgdir : Ppn) (phs : List Proghdr) : Except String Phys := do
  if bytesWord (file.bytes 0 4) ≠ ELF_MAGIC then .error "elf magic do not match\n"
  else
    let m ← phs.foldlM (loadPh file pgdir) m
    regionAlloc m pgdir (USTACKTOP - PGSIZE) PGSIZE

/-- `region_alloc` panicked because memory ran out. -/
def OutOfPages {α : Type} (x : Except String α) : Prop :=
  x = .error "Could not alloc page!" ∨ x = .error "Could not insert page!"

section

variable {K : Ppn → Prop} {dirs : Slot → Option Ppn} {m m' m'' : Phys} {e : Slot} {a b va len : Word} {d : Ppn}
  {file : Program} {ph : Proghdr} {phs : List Proghdr}

/-! ## Allocating a region -/

theorem solo_congr (h : vpn a = vpn b) (hs : Solo dirs m e a) : Solo dirs m e b := by
  obtain ⟨hd, ht⟩ := pdx_ptx_iff.mpr h
  unfold Solo at hs ⊢
  rwa [← hd, ← ht]

/-- Every page of the region is new. -/
theorem regionAllocLoop_new (hd : dirs e = some d) (n : Nat) : ∀ {m m' : Phys} {va : Word}, Sound K dirs m →
    va.toNat % 4096 = 0 → va.toNat + n * 4096 ≤ UTOP.toNat → regionAllocLoop d n m va = .ok m' →
    Sound K dirs m' ∧ Frame dirs m m' e (Among va (n * 4096)) ∧ ∀ a, Among va (n * 4096) a → Solo dirs m' e a := by
  induction n with
  | zero =>
      intro m m' va h _ _ hloop
      cases hloop
      exact ⟨h, .refl dirs m e _, fun a ha => absurd ha.2 (by have := ha.1; omega)⟩
  | succ n ih =>
      intro m m' va h halign hle hloop
      rw [UTOP_toNat] at hle
      simp only [SisOp.Jos.regionAllocLoop, bind_eq_ok] at hloop
      obtain ⟨⟨p, m1⟩, halloc, hloop⟩ := hloop
      cases p with
      | none => cases hloop
      | some p =>
          simp only [bind_eq_ok] at hloop
          obtain ⟨⟨r, m2⟩, hins, hloop⟩ := hloop
          simp only at hloop
          split at hloop
          · cases hloop
          · rename_i hr
            have hi : UserPdx (PDX va) := by
              rw [userPdx_iff, BitVec.lt_def, UTOP_toNat]
              omega
            have hr0 : r = 0 := by
              rcases pageInsert_result hins with h0 | h0
              · exact h0
              · exact absurd (h0 ▸ by decide) hr
            subst hr0
            obtain ⟨h2, hframe, hsolo, -⟩ := h.map_new hd hi (by decide) halloc hins
            replace hsolo := hsolo (by decide)
            have hpage : ∀ a, vpn a = vpn va → Among va ((n + 1) * 4096) a := fun a ha => by
              unfold vpn Among at *
              omega
            cases n with
            | zero =>
                cases hloop
                refine ⟨h2, hframe.mono hpage, fun a ha => solo_congr ?_ hsolo⟩
                unfold vpn Among at *
                omega
            | succ n =>
                have hnext : (va + PGSIZE).toNat = va.toNat + 4096 := by
                  rw [BitVec.toNat_add, PGSIZE_toNat]
                  omega
                obtain ⟨h3, hframe3, hsolo3⟩ := ih h2 (by omega) (by rw [hnext, UTOP_toNat]; omega) hloop
                refine ⟨h3, (hframe.mono hpage).trans (hframe3.mono fun a ha => ?_), fun a ha => ?_⟩
                · unfold Among at *
                  omega
                · by_cases hrest : Among (va + PGSIZE) ((n + 1) * 4096) a
                  · exact hsolo3 a hrest
                  · refine hframe3.solo e a (fun h => hrest h.2) (solo_congr ?_ hsolo)
                    unfold vpn Among at *
                    omega

/-- The pages are those that the region, rounded to pages, lies on. -/
theorem regionAlloc_new (h : Sound K dirs m) (hd : dirs e = some d)
    (hle : len.toNat = 0 ∨ va.toNat + len.toNat ≤ UTOP.toNat) (hregion : regionAlloc m d va len = .ok m') :
    Sound K dirs m' ∧ Frame dirs m m' e (fun a => vpn va ≤ vpn a ∧ vpn a * 4096 < va.toNat + len.toNat) ∧
      ∀ a, Among va len.toNat a → Solo dirs m' e a := by
  unfold regionAlloc at hregion
  split at hregion
  · rename_i h0
    cases hregion
    exact ⟨h, .refl dirs m e _, fun a ha => absurd ha.2 (by have := ha.1; simp [h0]; omega)⟩
  · rename_i h0
    have hpos : len.toNat ≠ 0 := fun hz => h0 (BitVec.eq_of_toNat_eq hz)
    replace hle := hle.resolve_left hpos
    rw [UTOP_toNat] at hle
    have hfirst := ROUNDDOWN_PGSIZE va
    have hlast := ROUNDUP_PGSIZE (va + len)
    rw [BitVec.toNat_add] at hlast
    obtain ⟨h1, hframe, hsolo⟩ := regionAllocLoop_new hd _ h (by omega) (by rw [UTOP_toNat]; omega) hregion
    refine ⟨h1, hframe.mono fun a ha => ?_, fun a ha => hsolo a ?_⟩
    · unfold vpn Among at *
      omega
    · unfold Among at *
      omega

/-! ## One segment -/

theorem Program.length_bytes (file : Program) (offset n : Nat) : (file.bytes offset n).length = n := by
  rw [bytes, List.length_map, List.length_range]

theorem Program.bytes_getElem? {offset n k : Nat} (hk : k < n) :
    (file.bytes offset n)[k]? = some (file.byte (offset + k)) := by
  rw [bytes, List.getElem?_map, List.getElem?_range hk]
  rfl

/-- What is placed stays when the pages of other segments change. -/
theorem Placed.keeps {P : Word → Prop} (h : Placed dirs m e file ph) (hk : Keeps dirs m m' e P)
    (hP : ∀ a, ph.OnPage a → ¬ P a) (hload : ph.pType = ELF_PROG_LOAD) : Placed dirs m' e file ph := by
  intro a ha
  rw [hk e a fun hand => hP a ⟨hload, ?_, ?_⟩ hand.2]
  · exact h a ha
  · unfold vpn Among at *
    omega
  · unfold vpn Among at *
    omega

theorem loadPh_placed (h : Sound K dirs m) (hd : dirs e = some d) (hsize : ph.pFilesz ≤ ph.pMemsz)
    (hle : ph.pMemsz.toNat = 0 ∨ ph.pVa.toNat + ph.pMemsz.toNat ≤ UTOP.toNat)
    (hload : loadPh file d m ph = .ok m') :
    Sound K dirs m' ∧ Keeps dirs m m' e ph.OnPage ∧ (ph.pType = ELF_PROG_LOAD → Placed dirs m' e file ph) := by
  unfold loadPh at hload
  split at hload
  · rename_i htype
    cases hload
    exact ⟨h, fun _ _ _ => rfl, fun htype' => absurd htype' htype⟩
  · rename_i htype
    rw [ne_eq, not_not] at htype
    obtain ⟨m1, hregion, hload⟩ := bind_eq_ok.mp hload
    obtain ⟨h1, hframe1, hsolo1⟩ := regionAlloc_new h hd hle hregion
    split at hload
    · cases hload
    · rename_i m2 hcopy
      split at hload
      · cases hload
      · rename_i m3 hclear
        cases hload
        rw [BitVec.le_def] at hsize
        have hdiff : (ph.pMemsz - ph.pFilesz).toNat = ph.pMemsz.toNat - ph.pFilesz.toNat :=
          BitVec.toNat_sub_of_le (BitVec.le_def.mpr hsize)
        rcases hle with h0 | hle
        · -- nothing to write
          have hf0 : ph.pFilesz.toNat = 0 := by omega
          rw [hf0] at hcopy
          cases hcopy
          rw [hdiff, h0, Nat.zero_sub] at hclear
          cases hclear
          refine ⟨h1, hframe1.bytes.mono fun a ha => ⟨htype, ha⟩, fun _ a ha => ?_⟩
          unfold Among at ha
          omega
        · rw [UTOP_toNat] at hle
          have hva2 : (ph.pVa + ph.pFilesz).toNat = ph.pVa.toNat + ph.pFilesz.toNat := by
            rw [BitVec.toNat_add]
            omega
          have hlen1 := Program.length_bytes file ph.pOffset.toNat ph.pFilesz.toNat
          have hlen2 : (List.replicate (ph.pMemsz - ph.pFilesz).toNat (0 : Byte)).length =
              ph.pMemsz.toNat - ph.pFilesz.toNat := by rw [List.length_replicate, hdiff]
          have hin1 : ∀ a, Among ph.pVa ph.pFilesz.toNat a → Among ph.pVa ph.pMemsz.toNat a := fun a ha => by
            unfold Among at *
            omega
          have hin2 : ∀ a, Among (ph.pVa + ph.pFilesz) (ph.pMemsz.toNat - ph.pFilesz.toNat) a ↔
              Among ph.pVa ph.pMemsz.toNat a ∧ ¬ Among ph.pVa ph.pFilesz.toNat a := fun a => by
            unfold Among
            omega
          obtain ⟨h2, hkeeps2, hkept2, hbytes2⟩ := h1.storeBytes_keeps hd (by decide) _ (by rw [hlen1, UTOP_toNat]; omega)
            (fun a ha => hsolo1 a (hin1 a (hlen1 ▸ ha))) hcopy
          rw [hlen1] at hkeeps2 hbytes2
          obtain ⟨h3, hkeeps3, -, hbytes3⟩ := h2.storeBytes_keeps hd (by decide) _
            (by rw [hlen2, hva2, UTOP_toNat]; omega) (fun a ha => by
              rw [hlen2, hin2] at ha
              exact hkept2 e a (hsolo1 a ha.1)) hclear
          rw [hlen2] at hkeeps3 hbytes3
          have hpage : ∀ a, Among ph.pVa ph.pMemsz.toNat a → ph.OnPage a := fun a ha => by
            unfold Among at ha
            refine ⟨htype, ?_, ?_⟩ <;> unfold vpn <;> omega
          refine ⟨h3, ?_, fun _ a ha => ?_⟩
          · refine ((hframe1.bytes.mono fun a ha => ⟨htype, ha⟩).trans
              (hkeeps2.mono fun a ha => hpage a (hin1 a ha))).trans
              (hkeeps3.mono fun a ha => hpage a ((hin2 a).mp ha).1)
          · unfold imageByte
            by_cases hfile : Among ph.pVa ph.pFilesz.toNat a
            · rw [hkeeps3 e a fun hand => ((hin2 a).mp hand.2).2 hfile, hbytes2 a hfile]
              have hlt : a.toNat - ph.pVa.toNat < ph.pFilesz.toNat := by
                unfold Among at hfile
                omega
              rw [if_pos hlt, Program.bytes_getElem? hlt]
            · have hrest := (hin2 a).mpr ⟨ha, hfile⟩
              have hlt : ¬ a.toNat - ph.pVa.toNat < ph.pFilesz.toNat := by
                unfold Among at hfile ha
                omega
              have hidx : a.toNat - (ph.pVa + ph.pFilesz).toNat < (ph.pMemsz - ph.pFilesz).toNat := by
                unfold Among at hrest
                omega
              rw [hbytes3 a hrest, if_neg hlt, List.getElem?_replicate, if_pos hidx]

/-! ## All segments -/

/-- No two segments have a part of the same page. -/
def Apart (phs : List Proghdr) : Prop := phs.Pairwise fun ph ph' => ∀ a, ¬ (ph.OnPage a ∧ ph'.OnPage a)

/-- The file part fits, and the segment lies in the user's part of the address space. -/
def UserSized (ph : Proghdr) : Prop :=
  ph.pFilesz ≤ ph.pMemsz ∧ (ph.pMemsz.toNat = 0 ∨ ph.pVa.toNat + ph.pMemsz.toNat ≤ UTOP.toNat)

theorem loadPhs_placed (hd : dirs e = some d) : ∀ {phs : List Proghdr} {m : Phys}, Sound K dirs m → Apart phs →
    (∀ ph ∈ phs, ph.pType = ELF_PROG_LOAD → UserSized ph) → phs.foldlM (loadPh file d) m = .ok m' →
    Sound K dirs m' ∧ Keeps dirs m m' e (fun a => ∃ ph ∈ phs, ph.OnPage a) ∧
      ∀ ph ∈ phs, ph.pType = ELF_PROG_LOAD → Placed dirs m' e file ph := by
  intro phs
  induction phs with
  | nil =>
      intro m h _ _ hload
      cases hload
      exact ⟨h, fun _ _ _ => rfl, fun ph hph => absurd hph List.not_mem_nil⟩
  | cons ph phs ih =>
      intro m h hapart hfits hload
      rw [List.foldlM_cons] at hload
      obtain ⟨m1, hload1, hload⟩ := bind_eq_ok.mp hload
      obtain ⟨hne, hapart⟩ := List.pairwise_cons.mp hapart
      have h1 : Sound K dirs m1 ∧ Keeps dirs m m1 e ph.OnPage ∧
          (ph.pType = ELF_PROG_LOAD → Placed dirs m1 e file ph) := by
        by_cases htype : ph.pType = ELF_PROG_LOAD
        · obtain ⟨hsize, hle⟩ := hfits ph List.mem_cons_self htype
          exact loadPh_placed h hd hsize hle hload1
        · rw [loadPh, if_pos htype] at hload1
          cases hload1
          exact ⟨h, fun _ _ _ => rfl, fun htype' => absurd htype' htype⟩
      obtain ⟨h2, hkeeps2, hplaced2⟩ := ih h1.1 hapart (fun q hq => hfits q (List.mem_cons_of_mem _ hq)) hload
      refine ⟨h2, (h1.2.1.mono fun a ha => ⟨ph, List.mem_cons_self, ha⟩).trans
        (hkeeps2.mono fun a ⟨q, hq, ha⟩ => ⟨q, List.mem_cons_of_mem _ hq, ha⟩), fun q hq htype => ?_⟩
      rcases List.mem_cons.mp hq with rfl | hq
      · exact (h1.2.2 htype).keeps hkeeps2 (fun a ha ⟨q', hq', ha'⟩ => hne q' hq' a ⟨ha, ha'⟩) htype
      · exact hplaced2 q hq htype

/-- No segment has a part of the page of the initial stack. -/
def ClearOfStack (phs : List Proghdr) : Prop := ∀ ph ∈ phs, ¬ ph.OnPage (USTACKTOP - PGSIZE)

/-- The environment that `load_icode` has filled. -/
theorem loadIcode_placed (h : Sound K dirs m) (hd : dirs e = some d) (hapart : Apart phs) (hstack : ClearOfStack phs)
    (hfits : ∀ ph ∈ phs, ph.pType = ELF_PROG_LOAD → UserSized ph)
    (hload : loadIcode file m d phs = .ok m') : ∀ ph ∈ phs, ph.pType = ELF_PROG_LOAD → Placed dirs m' e file ph := by
  unfold loadIcode at hload
  split at hload
  · cases hload
  · obtain ⟨m1, hphs, hregion⟩ := bind_eq_ok.mp hload
    obtain ⟨h1, -, hplaced⟩ := loadPhs_placed hd h hapart hfits hphs
    obtain ⟨-, hframe, -⟩ := regionAlloc_new h1 hd (.inr (by decide)) hregion
    intro ph hph htype
    refine (hplaced ph hph htype).keeps hframe.bytes (fun a ha hon => hstack ph hph ?_) htype
    have hvpn : vpn a = vpn (USTACKTOP - PGSIZE) := by
      rw [show (USTACKTOP - PGSIZE).toNat + PGSIZE.toNat = 4005552128 from rfl,
        show vpn (USTACKTOP - PGSIZE) = 977917 from rfl] at hon
      rw [show vpn (USTACKTOP - PGSIZE) = 977917 from rfl]
      omega
    exact ⟨htype, hvpn ▸ ha.2.1, hvpn ▸ ha.2.2⟩

/-! ## Nothing else goes wrong -/

theorem OutOfPages.bind {α β : Type} {x : Except String α} (h : OutOfPages x) (f : α → Except String β) :
    OutOfPages (x >>= f) := by
  rcases h with rfl | rfl
  · exact .inl rfl
  · exact .inr rfl

theorem regionAllocLoop_cases (hd : dirs e = some d) (n : Nat) : ∀ {m : Phys} {va : Word}, Sound K dirs m →
    TablesOpen dirs m → va.toNat % 4096 = 0 → va.toNat + n * 4096 ≤ UTOP.toNat →
    OutOfPages (regionAllocLoop d n m va) ∨ ∃ m', regionAllocLoop d n m va = .ok m' ∧ TablesOpen dirs m' := by
  induction n with
  | zero => exact fun _ hopen _ _ => .inr ⟨_, rfl, hopen⟩
  | succ n ih =>
      intro m va h hopen halign hle
      rw [UTOP_toNat] at hle
      obtain ⟨l, hl⟩ := h.ledger
      rcases pageAlloc_cases hl false with halloc | ⟨p, m1, halloc⟩
      · left
        left
        rw [regionAllocLoop, halloc]
        rfl
      · obtain ⟨l1, -, h1, hfresh, -, -⟩ := hl.pageAlloc halloc
        have hi : UserPdx (PDX va) := by
          rw [userPdx_iff, BitVec.lt_def, UTOP_toNat]
          omega
        rcases pageInsert_cases h1 (pageAlloc_open hl hopen halloc) hd hi hfresh.notMem hfresh.notKernel
          hfresh.not_isTab hfresh.bound (PTE_W ||| PTE_U) with ⟨hins, -⟩ | ⟨m2, hins, hopen2⟩
        · left
          right
          simp only [regionAllocLoop, halloc, hins, bind, Except.bind]
          exact if_pos (by decide)
        · have hloop : regionAllocLoop d (n + 1) m va = regionAllocLoop d n m2 (va + PGSIZE) := by
            rw [regionAllocLoop, halloc]
            simp only [hins, bind, Except.bind]
            exact if_neg (by decide)
          rw [hloop]
          cases n with
          | zero => exact .inr ⟨m2, rfl, hopen2⟩
          | succ n =>
              have hnext : (va + PGSIZE).toNat = va.toNat + 4096 := by
                rw [BitVec.toNat_add, PGSIZE_toNat]
                omega
              exact ih (h.map_new hd hi (by decide) halloc hins).1 hopen2 (by omega) (by rw [hnext, UTOP_toNat]; omega)

theorem regionAlloc_cases (h : Sound K dirs m) (hopen : TablesOpen dirs m) (hd : dirs e = some d)
    (hle : len.toNat = 0 ∨ va.toNat + len.toNat ≤ UTOP.toNat) :
    OutOfPages (regionAlloc m d va len) ∨ ∃ m', regionAlloc m d va len = .ok m' ∧ TablesOpen dirs m' := by
  unfold regionAlloc
  split
  · exact .inr ⟨m, rfl, hopen⟩
  · rename_i h0
    replace hle := hle.resolve_left fun hz => h0 (BitVec.eq_of_toNat_eq hz)
    rw [UTOP_toNat] at hle
    have hfirst := ROUNDDOWN_PGSIZE va
    have hlast := ROUNDUP_PGSIZE (va + len)
    rw [BitVec.toNat_add] at hlast
    exact regionAllocLoop_cases hd _ h hopen (by omega) (by rw [UTOP_toNat]; omega)

/-- The flags of a store in the kernel. -/
theorem kernelWrite_of_userWrite (w : Word) (h : w &&& userWrite = userWrite) :
    w &&& (PTE_P ||| PTE_W) = PTE_P ||| PTE_W := by
  rw [show PTE_P ||| PTE_W = userWrite &&& (PTE_P ||| PTE_W) from rfl, ← BitVec.and_assoc, h]

theorem loadPh_cases (h : Sound K dirs m) (hopen : TablesOpen dirs m) (hd : dirs e = some d)
    (hsize : ph.pFilesz ≤ ph.pMemsz) (hle : ph.pMemsz.toNat = 0 ∨ ph.pVa.toNat + ph.pMemsz.toNat ≤ UTOP.toNat) :
    OutOfPages (loadPh file d m ph) ∨ ∃ m', loadPh file d m ph = .ok m' ∧ TablesOpen dirs m' := by
  unfold loadPh
  split
  · exact .inr ⟨m, rfl, hopen⟩
  · rcases regionAlloc_cases h hopen hd hle with hno | ⟨m1, hregion, hopen1⟩
    · exact .inl (hno.bind _)
    · obtain ⟨h1, -, hsolo1⟩ := regionAlloc_new h hd hle hregion
      obtain ⟨l1, hl1⟩ := h1.ledger
      rw [BitVec.le_def] at hsize
      have hdiff : (ph.pMemsz - ph.pFilesz).toNat = ph.pMemsz.toNat - ph.pFilesz.toNat :=
        BitVec.toNat_sub_of_le (BitVec.le_def.mpr hsize)
      have hlen1 := Program.length_bytes file ph.pOffset.toNat ph.pFilesz.toNat
      rcases hle with h0 | hle
      · have hf0 : ph.pFilesz.toNat = 0 := by omega
        have hclear : List.replicate (ph.pMemsz - ph.pFilesz).toNat (0 : Byte) = [] := by
          rw [hdiff, h0, Nat.zero_sub]
          rfl
        refine .inr ⟨m1, bind_eq_ok.mpr ⟨m1, hregion, ?_⟩, hopen1⟩
        rw [hf0, hclear]
        rfl
      · rw [UTOP_toNat] at hle
        have hlen2 : (List.replicate (ph.pMemsz - ph.pFilesz).toNat (0 : Byte)).length =
            ph.pMemsz.toNat - ph.pFilesz.toNat := by rw [List.length_replicate, hdiff]
        have hva2 : (ph.pVa + ph.pFilesz).toNat = ph.pVa.toNat + ph.pFilesz.toNat := by
          rw [BitVec.toNat_add]
          omega
        have hcopyable : ∀ a, Among ph.pVa (file.bytes ph.pOffset.toNat ph.pFilesz.toNat).length a →
            Solo dirs m1 e a := fun a ha => hsolo1 a (by
          rw [hlen1] at ha
          unfold Among at *
          omega)
        have hfit1 : ph.pVa.toNat + (file.bytes ph.pOffset.toNat ph.pFilesz.toNat).length ≤ UTOP.toNat := by
          rw [hlen1, UTOP_toNat]
          omega
        obtain ⟨m2, hcopy, hopen2⟩ := storeBytes_total hd (by decide) kernelWrite_of_userWrite _ hl1 hopen1 hfit1 hcopyable
        obtain ⟨h2, -, hkept2, -⟩ := h1.storeBytes_keeps hd (by decide) _ hfit1 hcopyable hcopy
        obtain ⟨l2, hl2⟩ := h2.ledger
        have hfit2 : (ph.pVa + ph.pFilesz).toNat +
            (List.replicate (ph.pMemsz - ph.pFilesz).toNat (0 : Byte)).length ≤ UTOP.toNat := by
          rw [hlen2, hva2, UTOP_toNat]
          omega
        obtain ⟨m3, hclear, hopen3⟩ := storeBytes_total hd (by decide) kernelWrite_of_userWrite _ hl2 hopen2 hfit2
          fun a ha => hkept2 e a (hsolo1 a (by
            rw [hlen2] at ha
            unfold Among at *
            omega))
        refine .inr ⟨m3, bind_eq_ok.mpr ⟨m1, hregion, ?_⟩, hopen3⟩
        simp only [hcopy, hclear]
        rfl

theorem loadPhs_cases (hd : dirs e = some d) : ∀ {phs : List Proghdr} {m : Phys}, Sound K dirs m →
    TablesOpen dirs m → (∀ ph ∈ phs, ph.pType = ELF_PROG_LOAD → UserSized ph) →
    OutOfPages (phs.foldlM (loadPh file d) m) ∨
      ∃ m', phs.foldlM (loadPh file d) m = .ok m' ∧ Sound K dirs m' ∧ TablesOpen dirs m' := by
  intro phs
  induction phs with
  | nil => exact fun h hopen _ => .inr ⟨_, rfl, h, hopen⟩
  | cons ph phs ih =>
      intro m h hopen hfits
      have hph : OutOfPages (loadPh file d m ph) ∨
          ∃ m', loadPh file d m ph = .ok m' ∧ Sound K dirs m' ∧ TablesOpen dirs m' := by
        by_cases htype : ph.pType = ELF_PROG_LOAD
        · obtain ⟨hsize, hle⟩ := hfits ph List.mem_cons_self htype
          refine (loadPh_cases h hopen hd hsize hle).imp id fun ⟨m', hload, hopen'⟩ => ?_
          exact ⟨m', hload, (loadPh_placed h hd hsize hle hload).1, hopen'⟩
        · exact .inr ⟨m, by rw [loadPh, if_pos htype]; rfl, h, hopen⟩
      rw [List.foldlM_cons]
      rcases hph with hno | ⟨m1, hload, h1, hopen1⟩
      · exact .inl (hno.bind _)
      · rw [hload]
        exact ih h1 hopen1 fun q hq => hfits q (List.mem_cons_of_mem _ hq)

/-- `load_icode` of a program of the right magic number returns, unless memory runs out. -/
theorem loadIcode_cases (h : Sound K dirs m) (hopen : TablesOpen dirs m) (hd : dirs e = some d)
    (hmagic : bytesWord (file.bytes 0 4) = ELF_MAGIC) (hfits : ∀ ph ∈ phs, ph.pType = ELF_PROG_LOAD → UserSized ph) :
    OutOfPages (loadIcode file m d phs) ∨ ∃ m', loadIcode file m d phs = .ok m' := by
  unfold loadIcode
  rw [if_neg (not_not.mpr hmagic)]
  have hphs : OutOfPages (phs.foldlM (loadPh file d) m) ∨ _ := loadPhs_cases hd h hopen hfits
  rcases hphs with hno | ⟨m1, hload, h1, hopen1⟩
  · exact .inl (hno.bind _)
  · have hstack : OutOfPages (regionAlloc m1 d (USTACKTOP - PGSIZE) PGSIZE) ∨ _ :=
      regionAlloc_cases h1 hopen1 hd (.inr (by decide))
    rcases hstack with hno | ⟨m2, hregion, -⟩
    · left
      rw [hload]
      exact hno
    · exact .inr ⟨m2, bind_eq_ok.mpr ⟨m1, hload, hregion⟩⟩

end

end SisOp.Loader
