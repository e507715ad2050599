/-
# `SisOp.Loader.MapSegment` — the image that `spawn` builds (`lib/spawn.c`)

`map_segment` rounds a segment to pages.  A page that begins before the end of the file
part is filled at `UTEMP` and moved to the child, a later one is a blank page of the
child's.  The calls are made one after the other, and nobody else is running meanwhile.
-/
import SisOp.Loader.LoadIcode
import SisOp.Memory.Inv

namespace SisOp.Loader

open SisOp.Lib SisOp.Jos

/-- The kernel, and `fd_offset` of the open file. -/
structure Loading where
  kernel : Kernel
  fdOffset : Word

/-! ## Reading the file -/

/-- `file_read(f, buf, count, offset)`: the result and the bytes for `buf`. -/
def fileRead (file : Program) (count offset : Word) : Int × List Byte :=
  if (file.size : Int) ≤ offset.toInt then (0, [])
  else if offset.toInt < 0 then (-E_INVAL, [])
  else
    let count := min count.toNat (file.size - offset.toNat)
    (count, file.bytes offset.toNat count)

/-- `read(fd, buf, n)`, by way of `serve_read`, which moves `fd_offset`. -/
def read (file : Program) (cur : Slot) (s : Loading) (buf n : Word) : Except String (Int × Loading) :=
  let (r, bytes) := fileRead file (if PGSIZE < n then PGSIZE else n) s.fdOffset
  if r < 0 then .ok (r, s)
  else
    match (s.kernel.envs cur).envPgdir with
    | none => .error "Kernel Page Fault"
    | some pgdir =>
        match storeBytes s.kernel.phys pgdir userWrite buf bytes with
        | none => .error "User Page Fault"
        | some m => .ok (r, ⟨{ s.kernel with phys := m }, s.fdOffset + BitVec.ofInt 32 r⟩)

/-- The loop of `readn`.  A turn that does not end it reads a byte at least. -/
def readnLoop (file : Program) (cur : Slot) (buf n : Word) : Nat → Word → Loading → Except String (Int × Loading)
  | 0, _, _ => .error "readn: out of fuel"
  | fuel + 1, tot, s =>
      if tot < n then do
        let (m, s) ← read file cur s (buf + tot) (n - tot)
        if m < 0 then return (m, s)
        else if m = 0 then return (tot.toInt, s)
        else readnLoop file cur buf n fuel (tot + BitVec.ofInt 32 m) s
      else .ok (tot.toInt, s)

/-- `readn(fd, buf, n)`. -/
def readn (file : Program) (cur : Slot) (s : Loading) (buf n : Word) : Except String (Int × Loading) :=
  readnLoop file cur buf n (n.toNat + 1) 0 s

/-! ## `map_segment` -/

/-- The turn of the loop of `map_segment` for the page at `va + i`. -/
def mapSegmentPage (file : Program) (cur : Slot) (child va filesz fileoffset perm i : Word) (s : Loading) :
    Except String (Int × Loading) := do
  if filesz ≤ i then
    -- allocate a blank page
    let (r, k) ← sysPageAlloc s.kernel cur child (va + i) perm
    return (r, { s with kernel := k })
  else
    -- from file
    let (r, k) ← sysPageAlloc s.kernel cur 0 UTEMP (PTE_P ||| PTE_U ||| PTE_W)
    if r < 0 then return (r, { s with kernel := k })
    -- `seek`
    let s : Loading := ⟨k, fileoffset + i⟩
    let (r, s) ← readn file cur s UTEMP (if PGSIZE ≤ filesz - i then PGSIZE else filesz - i)
    if r < 0 then return (r, s)
    let (r, k) ← sysPageMap s.kernel cur 0 UTEMP child (va + i) perm
    if r < 0 then .error "spawn: sys_page_map data"
    else
      let (_, k) ← sysPageUnmap k cur 0 UTEMP
      return (0, { s with kernel := k })

/-- The loop of `map_segment`, for the `n` pages from `i` on. -/
def mapSegmentLoop (file : Program) (cur : Slot) (child va filesz fileoffset perm : Word) :
    Nat → Word → Loading → Except String (Int × Loading)
  | 0, _, s => .ok (0, s)
  | n + 1, i, s => do
      let (r, s) ← mapSegmentPage file cur child va filesz fileoffset perm i s
      if r < 0 then return (r, s)
      else mapSegmentLoop file cur child va filesz fileoffset perm n (i + PGSIZE) s

/-- `map_segment(child, va, memsz, fd, filesz, fileoffset, perm)`. -/
def mapSegment (file : Program) (cur : Slot) (child va memsz filesz fileoffset perm : Word) (s : Loading) :
    Except String (Int × Loading) :=
  let i := PGOFF va
  mapSegmentLoop file cur child (va - i) (filesz + i) (fileoffset - i) perm (((memsz + i).toNat + 4095) / 4096) 0 s

/-- The loop of `spawn` over the program headers. -/
def mapSegments (file : Program) (cur : Slot) (child : Word) : List Proghdr → Loading →
    Except String (Int × Loading)
  | [], s => .ok (0, s)
  | ph :: phs, s => do
      if ph.pType ≠ ELF_PROG_LOAD then mapSegments file cur child phs s
      else
        let perm := if ph.pFlags &&& ELF_PROG_FLAG_WRITE ≠ 0 then PTE_P ||| PTE_U ||| PTE_W else PTE_P ||| PTE_U
        let (r, s) ← mapSegment file cur child ph.pVa ph.pMemsz ph.pFilesz ph.pOffset perm s
        if r < 0 then return (r, s)
        else mapSegments file cur child phs s

section

variable {K : Ppn → Prop} {k k' : Kernel} {cur c : Slot} {child va perm n : Word} {file : Program} {s s' : Loading}
  {ph : Proghdr} {phs : List Proghdr} {m m' : Phys} {r : Int}

/-! ## The calls -/

theorem byteOf_zero (i : Nat) : byteOf 0 i = 0 := by simp [byteOf]

/-- What `sys_page_alloc` maps. -/
theorem sysPageAlloc_placed {envid : Word} {e : Slot} (h : Sound K k.dirs k.phys)
    (he : envid2env k cur envid false = .ok e) (hcall : sysPageAlloc k cur envid va perm = .ok (r, k')) (hr : ¬ r < 0) :
    VaOk va ∧ ∃ m, k' = { k with phys := m } ∧ Sound K k.dirs m ∧
      Frame k.dirs k.phys m e (fun a => vpn a = vpn va) ∧
      (perm &&& (PTE_W ||| PTE_U) = PTE_W ||| PTE_U → Solo k.dirs m e va) ∧
      ∀ a, vpn a = vpn va → byteAt k.dirs m e a = some 0 := by
  rcases sysPageAlloc_cases hcall with ⟨hneg, -⟩ | ⟨e', pgdir, page, m1, m, hperm, hva, hfind, hdir, halloc, hins, rfl⟩
  · exact absurd hneg hr
  · obtain rfl : e = e' := by
      rw [he] at hfind
      exact Except.ok.inj hfind
    obtain ⟨m2, hins, hfree⟩ := hins
    rw [if_neg hr] at hfree
    subst hfree
    have hr0 : r = 0 := by
      rcases pageInsert_result hins with h0 | h0
      · exact h0
      · exact absurd (h0 ▸ by decide) hr
    subst hr0
    obtain ⟨h1, hframe, hsolo, hbytes, hzero⟩ := h.map_new hdir hva.user hperm.flagsOnly halloc hins
    refine ⟨hva, m, rfl, h1, hframe, hsolo, fun a ha => ?_⟩
    rw [hbytes a ha, hzero rfl, byteOf_zero]

/-- What `sys_page_map` maps of a page that is mapped once. -/
theorem sysPageMap_placed {srcva dstva : Word} (h : Sound K k.dirs k.phys) (hne : c ≠ cur)
    (hself : envid2env k cur 0 false = .ok cur) (hc : envid2env k cur child false = .ok c)
    (hsolo : Solo k.dirs k.phys cur srcva) (hcall : sysPageMap k cur 0 srcva child dstva perm = .ok (r, k'))
    (hr : ¬ r < 0) :
    VaOk dstva ∧ ∃ m, k' = { k with phys := m } ∧ Sound K k.dirs m ∧
      Keeps k.dirs k.phys m c (fun a => vpn a = vpn dstva) ∧
      ∀ x y, vpn x = vpn dstva → vpn y = vpn srcva → x.toNat % 4096 = y.toNat % 4096 →
        byteAt k.dirs m c x = byteAt k.dirs k.phys cur y := by
  rcases sysPageMap_cases hcall with ⟨hneg, -⟩ | ⟨e, srcdir, dstdir, page, pte, m, hck, hins, rfl⟩
  · exact absurd hneg hr
  · obtain ⟨src, hsrc, hsrcdir⟩ := hck.src
    obtain rfl : cur = src := by
      rw [hself] at hsrc
      exact Except.ok.inj hsrc
    obtain rfl : c = e := by
      have hdst := hck.dst
      rw [hc] at hdst
      exact Except.ok.inj hdst
    obtain ⟨m2, hins, hfree⟩ := hins
    rw [if_neg hr] at hfree
    subst hfree
    have hr0 : r = 0 := by
      rcases pageInsert_result hins with h0 | h0
      · exact h0
      · exact absurd (h0 ▸ by decide) hr
    subst hr0
    have hcur : k.dirs cur = some srcdir := hsrcdir
    have hchild : k.dirs c = some dstdir := hck.dstdir
    rcases pageLookup_cases hcur hck.srcvaOk.user hck.look with ⟨hnone, -⟩ | ⟨t, w, hsome, -, hw, -⟩
    · cases hnone
    · cases hsome
      obtain ⟨h1, hkeeps, hsame⟩ := h.map_again hchild hck.dstvaOk.user
        (flagsOnly_or_PU hck.permOk.flagsOnly) hw hsolo hins
      exact ⟨hck.dstvaOk, m, rfl, h1, hkeeps, hsame⟩

/-- What `sys_page_unmap` leaves. -/
theorem sysPageUnmap_keeps (h : Sound K k.dirs k.phys) (hself : envid2env k cur 0 false = .ok cur)
    (hcall : sysPageUnmap k cur 0 va = .ok (r, k')) :
    ∃ m, k' = { k with phys := m } ∧ Sound K k.dirs m ∧ Keeps k.dirs k.phys m cur (fun a => vpn a = vpn va) := by
  rcases sysPageUnmap_cases hcall with ⟨-, rfl⟩ | ⟨e, pgdir, m, -, hva, hfind, hdir, hrem, rfl⟩
  · exact ⟨k'.phys, rfl, h, fun _ _ _ => rfl⟩
  · obtain rfl : cur = e := by
      rw [hself] at hfind
      exact Except.ok.inj hfind
    have hcur : k.dirs cur = some pgdir := hdir
    obtain ⟨h1, hkeeps⟩ := h.unmap hcur hva.user hrem
    exact ⟨m, rfl, h1, hkeeps⟩

/-! ## Reading -/

/-- The bytes that the file has. -/
theorem fileRead_present {offset : Word} (hn : n.toNat ≤ 4096) (hsize : offset.toNat + n.toNat ≤ file.size)
    (hpos : 0 < n.toNat) : fileRead file (if PGSIZE < n then PGSIZE else n) offset =
      ((n.toNat : Int), file.bytes offset.toNat n.toNat) := by
  have hsmall := file.small
  have hint : offset.toInt = offset.toNat := BitVec.toInt_eq_toNat_of_lt (by omega)
  have hcount : ¬ PGSIZE < n := fun hlt => by
    rw [BitVec.lt_def, PGSIZE_toNat] at hlt
    omega
  rw [if_neg hcount, fileRead, if_neg (by omega), if_neg (by omega)]
  simp only
  rw [Nat.min_eq_left (by omega)]

/-- A read of bytes that the file has, onto a page that is mapped once. -/
theorem read_placed {buf : Word} (h : Sound K s.kernel.dirs s.kernel.phys) (hn : n.toNat ≤ 4096) (hpos : 0 < n.toNat)
    (hsize : s.fdOffset.toNat + n.toNat ≤ file.size)
    (hbuf : buf.toNat + n.toNat ≤ UTOP.toNat)
    (hsolo : ∀ a, Among buf n.toNat a → Solo s.kernel.dirs s.kernel.phys cur a)
    (hread : read file cur s buf n = .ok (r, s')) :
    r = n.toNat ∧ ∃ m, s'.kernel = { s.kernel with phys := m } ∧ Sound K s.kernel.dirs m ∧
      Keeps s.kernel.dirs s.kernel.phys m cur (Among buf n.toNat) ∧
      (∀ f a, Solo s.kernel.dirs s.kernel.phys f a → Solo s.kernel.dirs m f a) ∧
      ∀ a, Among buf n.toNat a →
        byteAt s.kernel.dirs m cur a = some (file.byte (s.fdOffset.toNat + (a.toNat - buf.toNat))) := by
  unfold read at hread
  rw [fileRead_present hn hsize hpos] at hread
  simp only at hread
  rw [if_neg (by omega)] at hread
  split at hread
  · cases hread
  · rename_i pgdir hdir
    split at hread
    · cases hread
    · rename_i m hstore
      cases hread
      have hlen := Program.length_bytes file s.fdOffset.toNat n.toNat
      have hcur : s.kernel.dirs cur = some pgdir := hdir
      obtain ⟨h1, hkeeps, hkept, hbytes⟩ := h.storeBytes_keeps hcur (by decide) _
        (by rw [hlen]; exact hbuf) (fun a ha => hsolo a (hlen ▸ ha)) hstore
      rw [hlen] at hkeeps hbytes
      refine ⟨rfl, m, rfl, h1, hkeeps, hkept, fun a ha => ?_⟩
      have hlt : a.toNat - buf.toNat < n.toNat := by
        unfold Among at ha
        omega
      rw [hbytes a ha, Program.bytes_getElem? hlt]

/-- `readn` of bytes that the file has: one read takes them all. -/
theorem readn_placed {buf : Word} (h : Sound K s.kernel.dirs s.kernel.phys) (hn : n.toNat ≤ 4096) (hpos : 0 < n.toNat)
    (hsize : s.fdOffset.toNat + n.toNat ≤ file.size)
    (hbuf : buf.toNat + n.toNat ≤ UTOP.toNat)
    (hsolo : ∀ a, Among buf n.toNat a → Solo s.kernel.dirs s.kernel.phys cur a)
    (hread : readn file cur s buf n = .ok (r, s')) :
    ∃ m, s'.kernel = { s.kernel with phys := m } ∧ Sound K s.kernel.dirs m ∧
      Keeps s.kernel.dirs s.kernel.phys m cur (Among buf n.toNat) ∧
      (∀ f a, Solo s.kernel.dirs s.kernel.phys f a → Solo s.kernel.dirs m f a) ∧
      ∀ a, Among buf n.toNat a →
        byteAt s.kernel.dirs m cur a = some (file.byte (s.fdOffset.toNat + (a.toNat - buf.toNat))) := by
  have hlt : (0 : Word) < n := BitVec.lt_def.mpr hpos
  rw [readn, readnLoop, if_pos hlt] at hread
  obtain ⟨⟨m1, s1⟩, hread1, hread⟩ := bind_eq_ok.mp hread
  rw [show buf + 0 = buf from BitVec.add_zero buf, show n - 0 = n from BitVec.sub_zero n] at hread1
  obtain ⟨rfl, m, hm, h1, hkeeps, hkept, hbytes⟩ := read_placed h hn hpos hsize hbuf hsolo hread1
  simp only at hread
  rw [if_neg (by omega), if_neg (by omega)] at hread
  have htot : (0 : Word) + BitVec.ofInt 32 n.toNat = n := by
    rw [show (0 : Word) + BitVec.ofInt 32 n.toNat = BitVec.ofInt 32 n.toNat from BitVec.zero_add _, BitVec.ofInt_natCast,
      BitVec.ofNat_toNat, BitVec.setWidth_eq]
  have hend : ¬ n < n := BitVec.lt_irrefl n
  obtain ⟨fuel, hfuel⟩ : ∃ fuel, n.toNat = fuel + 1 := ⟨n.toNat - 1, by omega⟩
  rw [htot, hfuel, readnLoop, if_neg hend] at hread
  cases hread
  exact ⟨m, hm, h1, hkeeps, hkept, hbytes⟩

/-! ## One page -/

/-- What lies at the address, when the file part of length `filesz` begins at `va`. -/
def pageByte (file : Program) (va filesz fileoffset : Word) (a : Word) : Byte :=
  if a.toNat - va.toNat < filesz.toNat then file.byte (fileoffset.toNat + (a.toNat - va.toNat)) else 0

/-- `MIN(PGSIZE, filesz - i)`. -/
theorem count_toNat {filesz i : Word} (hfile : i.toNat < filesz.toNat) :
    (if PGSIZE ≤ filesz - i then PGSIZE else filesz - i).toNat = min 4096 (filesz.toNat - i.toNat) := by
  have hdiff : (filesz - i).toNat = filesz.toNat - i.toNat := BitVec.toNat_sub_of_le (BitVec.le_def.mpr hfile.le)
  split <;> rename_i hle <;> rw [BitVec.le_def, PGSIZE_toNat, hdiff] at hle
  · rw [PGSIZE_toNat]
    omega
  · rw [hdiff]
    omega

theorem mapSegmentPage_placed {filesz fileoffset i : Word} (h : Sound K s.kernel.dirs s.kernel.phys) (hne : c ≠ cur)
    (hc : envid2env s.kernel cur child false = .ok c) (hva : va.toNat % 4096 = 0) (hi : i.toNat % 4096 = 0)
    (hwrap : va.toNat + i.toNat < 2 ^ 32)
    (hsize : 0 < filesz.toNat → fileoffset.toNat + filesz.toNat ≤ file.size)
    (hrun : mapSegmentPage file cur child va filesz fileoffset perm i s = .ok (r, s')) (hr : ¬ r < 0) :
    va.toNat + i.toNat < UTOP.toNat ∧ ∃ m, s'.kernel = { s.kernel with phys := m } ∧ Sound K s.kernel.dirs m ∧
      (∀ a, vpn a ≠ vpn (va + i) → byteAt s.kernel.dirs m c a = byteAt s.kernel.dirs s.kernel.phys c a) ∧
      ∀ a, vpn a = vpn (va + i) → byteAt s.kernel.dirs m c a = some (pageByte file va filesz fileoffset a) := by
  have hself : ∀ k : Kernel, envid2env k cur 0 false = .ok cur := fun _ => rfl
  have hsum : (va + i).toNat = va.toNat + i.toNat := by
    rw [BitVec.toNat_add]
    exact Nat.mod_eq_of_lt hwrap
  unfold mapSegmentPage at hrun
  split at hrun
  · -- a blank page
    rename_i hblank
    rw [BitVec.le_def] at hblank
    obtain ⟨⟨r1, k1⟩, halloc, hrun⟩ := bind_eq_ok.mp hrun
    cases hrun
    obtain ⟨hok, m, rfl, h1, hframe, -, hbytes⟩ := sysPageAlloc_placed h hc halloc hr
    have hlt := (not_or.mp hok).1
    rw [BitVec.not_le, BitVec.lt_def, hsum] at hlt
    refine ⟨hlt, m, rfl, h1, fun a ha => hframe.bytes c a fun hand => ha hand.2, fun a ha => ?_⟩
    rw [hbytes a ha, pageByte, if_neg]
    unfold vpn at ha
    omega
  · rename_i hfile
    rw [BitVec.le_def, not_le] at hfile
    obtain ⟨⟨r1, k1⟩, halloc, hrun⟩ := bind_eq_ok.mp hrun
    simp only at hrun
    split at hrun
    · rename_i hneg
      cases hrun
      exact absurd hneg hr
    · rename_i hr1
      obtain ⟨-, m1, rfl, h1, hframe1, hsolo1, hbytes1⟩ := sysPageAlloc_placed h (hself _) halloc hr1
      replace hsolo1 := hsolo1 (by decide)
      obtain ⟨⟨r2, s2⟩, hread, hrun⟩ := bind_eq_ok.mp hrun
      simp only at hrun
      split at hrun
      · rename_i hneg
        cases hrun
        exact absurd hneg hr
      · obtain ⟨⟨r3, k3⟩, hmap, hrun⟩ := bind_eq_ok.mp hrun
        simp only at hrun
        split at hrun
        · cases hrun
        · rename_i hr3
          obtain ⟨⟨r4, k4⟩, hunmap, hrun⟩ := bind_eq_ok.mp hrun
          cases hrun
          -- the bytes to read
          set n : Word := if PGSIZE ≤ filesz - i then PGSIZE else filesz - i with hn
          have hcount : n.toNat = min 4096 (filesz.toNat - i.toNat) := count_toNat hfile
          have hsmall := file.small
          have hoff : (fileoffset + i).toNat = fileoffset.toNat + i.toNat := by
            rw [BitVec.toNat_add]
            have := hsize (by omega)
            omega
          have hutemp : UTEMP.toNat = 4194304 := rfl
          have hpage : ∀ a, Among UTEMP n.toNat a → vpn a = vpn UTEMP := fun a ha => by
            unfold vpn Among at *
            omega
          obtain ⟨m2, hs2, h2, hkeeps2, hkept2, hbytes2⟩ := readn_placed (s := ⟨{ s.kernel with phys := m1 }, _⟩) h1
            (by omega) (by omega) (by have := hsize (by omega); simp only; omega) (by rw [UTOP_toNat]; omega)
            (fun a ha => solo_congr (hpage a ha).symm hsolo1) hread
          simp only at hs2
          rw [hs2] at hmap
          obtain ⟨hok, m3, rfl, h3, hkeeps3, hsame3⟩ := sysPageMap_placed (k := { s.kernel with phys := m2 }) h2 hne
            (hself _) hc (hkept2 cur UTEMP hsolo1) hmap hr3
          obtain ⟨m4, rfl, h4, hkeeps4⟩ := sysPageUnmap_keeps (k := { s.kernel with phys := m3 }) h3 (hself _) hunmap
          have hlt := (not_or.mp hok).1
          rw [BitVec.not_le, BitVec.lt_def, hsum] at hlt
          -- the child's other pages stay through all of it
          have hchild4 : ∀ a, byteAt s.kernel.dirs m4 c a = byteAt s.kernel.dirs m3 c a := fun a =>
            hkeeps4 c a fun hand => hne hand.1
          refine ⟨hlt, m4, rfl, h4, fun a ha => ?_, fun a ha => ?_⟩
          · exact (hchild4 a).trans ((hkeeps3 c a fun hand => ha hand.2).trans
              ((hkeeps2 c a fun hand => hne hand.1).trans (hframe1.bytes c a fun hand => hne hand.1)))
          · -- the address at `UTEMP` that shares its byte
            have hbase : a.toNat = va.toNat + i.toNat + a.toNat % 4096 := by
              unfold vpn at ha
              omega
            set y : Word := BitVec.ofNat 32 (4194304 + a.toNat % 4096) with hy
            have hyNat : y.toNat = 4194304 + a.toNat % 4096 := by
              rw [hy, BitVec.toNat_ofNat]
              exact Nat.mod_eq_of_lt (by omega)
            have hyPage : vpn y = vpn UTEMP := by
              unfold vpn
              omega
            refine (hchild4 a).trans ((hsame3 a y ha hyPage (by omega)).trans ?_)
            change byteAt s.kernel.dirs m2 cur y = _
            by_cases hin : a.toNat % 4096 < n.toNat
            · have hamong : Among UTEMP n.toNat y := by
                unfold Among
                omega
              refine (hbytes2 y hamong).trans ?_
              rw [pageByte, if_pos (by omega)]
              simp only
              rw [hoff, show a.toNat - va.toNat = i.toNat + (y.toNat - UTEMP.toNat) by omega, Nat.add_assoc]
            · have hout : ¬ (cur = cur ∧ Among UTEMP n.toNat y) := fun hand => hin (by
                have := hand.2.2
                omega)
              refine (hkeeps2 cur y hout).trans ((hbytes1 y hyPage).trans ?_)
              rw [pageByte, if_neg (by omega)]

/-! ## All pages -/

/-- The page is one of the `n` from `va + i` on. -/
def Pages (va i : Word) (n : Nat) (a : Word) : Prop :=
  vpn va + vpn i ≤ vpn a ∧ vpn a < vpn va + vpn i + n

theorem mapSegmentLoop_placed {filesz fileoffset : Word} (hne : c ≠ cur) (hva : va.toNat % 4096 = 0)
    (hsize : 0 < filesz.toNat → fileoffset.toNat + filesz.toNat ≤ file.size) (n : Nat) :
    ∀ {i : Word} {s : Loading}, Sound K s.kernel.dirs s.kernel.phys → envid2env s.kernel cur child false = .ok c →
      i.toNat % 4096 = 0 → va.toNat + i.toNat + n * 4096 ≤ 2 ^ 32 →
      mapSegmentLoop file cur child va filesz fileoffset perm n i s = .ok (r, s') → ¬ r < 0 →
      (0 < n → va.toNat + i.toNat + n * 4096 ≤ UTOP.toNat) ∧ ∃ m, s'.kernel = { s.kernel with phys := m } ∧
        Sound K s.kernel.dirs m ∧
        (∀ a, ¬ Pages va i n a → byteAt s.kernel.dirs m c a = byteAt s.kernel.dirs s.kernel.phys c a) ∧
        ∀ a, Pages va i n a → byteAt s.kernel.dirs m c a = some (pageByte file va filesz fileoffset a) := by
  induction n with
  | zero =>
      intro i s h _ _ _ hrun _
      cases hrun
      refine ⟨fun h0 => absurd h0 (lt_irrefl 0), _, rfl, h, fun _ _ => rfl, fun a ha => ?_⟩
      unfold Pages at ha
      omega
  | succ n ih =>
      intro i s h hc hi hwrap hrun hr
      rw [mapSegmentLoop] at hrun
      obtain ⟨⟨r1, s1⟩, hpage, hrun⟩ := bind_eq_ok.mp hrun
      simp only at hrun
      split at hrun
      · rename_i hneg
        cases hrun
        exact absurd hneg hr
      · rename_i hr1
        obtain ⟨hlt, m1, hs1, h1, hkeeps1, hbytes1⟩ :=
          mapSegmentPage_placed h hne hc hva hi (by omega) hsize hpage hr1
        have hsum : vpn (va + i) = vpn va + vpn i := by
          unfold vpn
          rw [BitVec.toNat_add]
          omega
        rw [UTOP_toNat] at hlt
        obtain ⟨k1, o1⟩ := s1
        simp only at hs1
        subst hs1
        cases n with
        | zero =>
            cases hrun
            refine ⟨fun _ => by rw [UTOP_toNat]; omega, m1, rfl, h1, fun a ha => hkeeps1 a fun heq => ha ?_,
              fun a ha => hbytes1 a ?_⟩
            · unfold Pages
              omega
            · unfold Pages at ha
              omega
        | succ n =>
            have hnext : (i + PGSIZE).toNat = i.toNat + 4096 := by
              rw [BitVec.toNat_add, PGSIZE_toNat]
              omega
            have hvpn : vpn (i + PGSIZE) = vpn i + 1 := by
              unfold vpn
              omega
            obtain ⟨hle, m, hs, h2, hkeeps2, hbytes2⟩ := ih (s := ⟨{ s.kernel with phys := m1 }, o1⟩) h1 hc (by omega)
              (by omega) hrun hr
            refine ⟨fun _ => by have := hle (by omega); omega, m, hs, h2, fun a ha => ?_, fun a ha => ?_⟩
            · refine (hkeeps2 a fun hin => ha ?_).trans (hkeeps1 a fun heq => ha ?_)
              · unfold Pages at *
                omega
              · unfold Pages
                omega
            · by_cases hin : Pages va (i + PGSIZE) (n + 1) a
              · exact hbytes2 a hin
              · refine (hkeeps2 a hin).trans (hbytes1 a ?_)
                unfold Pages at *
                omega

/-- What `spawn` asks of a segment of the file. -/
structure Proghdr.Fits (ph : Proghdr) (file : Program) : Prop where
  size : ph.pFilesz ≤ ph.pMemsz
  congruent : ph.pOffset.toNat % 4096 = ph.pVa.toNat % 4096
  present : ph.pOffset.toNat + ph.pFilesz.toNat ≤ file.size
  /-- The end of the segment is an address. -/
  addresses : ph.pVa.toNat + ph.pMemsz.toNat < 2 ^ 32

theorem PGOFF_toNat (va : Word) : (PGOFF va).toNat = va.toNat % 4096 := by
  rw [PGOFF, BitVec.toNat_and]
  exact Nat.and_two_pow_sub_one_eq_mod va.toNat 12

theorem mapSegment_placed (h : Sound K s.kernel.dirs s.kernel.phys) (hne : c ≠ cur)
    (hc : envid2env s.kernel cur child false = .ok c) (hfits : ph.Fits file)
    (htype : ph.pType = ELF_PROG_LOAD)
    (hrun : mapSegment file cur child ph.pVa ph.pMemsz ph.pFilesz ph.pOffset perm s = .ok (r, s')) (hr : ¬ r < 0) :
    (ph.pMemsz.toNat = 0 ∨ ph.pVa.toNat + ph.pMemsz.toNat ≤ UTOP.toNat) ∧ ∃ m, s'.kernel = { s.kernel with phys := m } ∧
      Sound K s.kernel.dirs m ∧
      (∀ a, ¬ ph.OnPage a → byteAt s.kernel.dirs m c a = byteAt s.kernel.dirs s.kernel.phys c a) ∧
      Placed s.kernel.dirs m c file ph := by
  obtain ⟨hsize, hcong, hpresent, haddr⟩ := hfits
  rw [BitVec.le_def] at hsize
  have hoff := PGOFF_toNat ph.pVa
  have hva : (ph.pVa - PGOFF ph.pVa).toNat = ph.pVa.toNat - ph.pVa.toNat % 4096 := by
    rw [BitVec.toNat_sub_of_le (BitVec.le_def.mpr (by omega)), hoff]
  have hoffset : (ph.pOffset - PGOFF ph.pVa).toNat = ph.pOffset.toNat - ph.pVa.toNat % 4096 := by
    rw [BitVec.toNat_sub_of_le (BitVec.le_def.mpr (by omega)), hoff]
  have hmemsz : (ph.pMemsz + PGOFF ph.pVa).toNat = ph.pMemsz.toNat + ph.pVa.toNat % 4096 := by
    rw [BitVec.toNat_add, hoff]
    omega
  have hfilesz : (ph.pFilesz + PGOFF ph.pVa).toNat = ph.pFilesz.toNat + ph.pVa.toNat % 4096 := by
    rw [BitVec.toNat_add, hoff]
    omega
  obtain ⟨hle, m, hs, h1, hkeeps, hbytes⟩ := mapSegmentLoop_placed hne (by omega) (fun _ => by omega) _ h hc
    (i := 0) rfl (by rw [hmemsz, show (0 : Word).toNat = 0 from rfl]; omega) hrun hr
  rw [hmemsz, show (0 : Word).toNat = 0 from rfl, UTOP_toNat] at hle
  have hpages : ∀ a, Pages (ph.pVa - PGOFF ph.pVa) 0 (((ph.pMemsz + PGOFF ph.pVa).toNat + 4095) / 4096) a ↔
      ph.OnPage a := fun a => by
    unfold Pages Proghdr.OnPage vpn
    rw [hmemsz, hva, show (0 : Word).toNat = 0 from rfl]
    constructor
    · intro ha
      exact ⟨htype, by omega, by omega⟩
    · intro ha
      omega
  refine ⟨?_, m, hs, h1, fun a ha => hkeeps a fun hin => ha ((hpages a).mp hin), fun a ha => ?_⟩
  · rw [UTOP_toNat]
    omega
  · have hon : ph.OnPage a := by
      unfold Among at ha
      refine ⟨htype, ?_, ?_⟩ <;> unfold vpn <;> omega
    rw [hbytes a ((hpages a).mpr hon), pageByte, imageByte, hva, hfilesz, hoffset]
    unfold Among at ha
    by_cases hfile : a.toNat - ph.pVa.toNat < ph.pFilesz.toNat
    · rw [if_pos (by omega), if_pos hfile]
      refine congrArg (fun n => some (file.byte n)) ?_
      omega
    · rw [if_neg (by omega), if_neg hfile]

/-- The child after the loop over the program headers. -/
theorem mapSegments_placed (hne : c ≠ cur) : ∀ {phs : List Proghdr} {s : Loading},
    Sound K s.kernel.dirs s.kernel.phys → envid2env s.kernel cur child false = .ok c → Apart phs →
    (∀ ph ∈ phs, ph.pType = ELF_PROG_LOAD → ph.Fits file) → mapSegments file cur child phs s = .ok (r, s') → ¬ r < 0 →
    ∃ m, s'.kernel = { s.kernel with phys := m } ∧
      (∀ a, (∀ ph ∈ phs, ¬ ph.OnPage a) → byteAt s.kernel.dirs m c a = byteAt s.kernel.dirs s.kernel.phys c a) ∧
      ∀ ph ∈ phs, ph.pType = ELF_PROG_LOAD →
        (ph.pMemsz.toNat = 0 ∨ ph.pVa.toNat + ph.pMemsz.toNat ≤ UTOP.toNat) ∧ Placed s.kernel.dirs m c file ph := by
  intro phs
  induction phs with
  | nil =>
      intro s _ _ _ _ hrun _
      cases hrun
      exact ⟨_, rfl, fun _ _ => rfl, fun ph hph => absurd hph List.not_mem_nil⟩
  | cons ph phs ih =>
      intro s h hc hapart hfits hrun hr
      obtain ⟨hpw, hapart⟩ := List.pairwise_cons.mp hapart
      have hfits' : ∀ q ∈ phs, q.pType = ELF_PROG_LOAD → q.Fits file := fun q hq => hfits q (List.mem_cons_of_mem _ hq)
      rw [mapSegments] at hrun
      split at hrun
      · rename_i htype
        obtain ⟨m, hs, hkeeps, hplaced⟩ := ih h hc hapart hfits' hrun hr
        refine ⟨m, hs, fun a ha => hkeeps a fun q hq => ha q (List.mem_cons_of_mem _ hq), fun q hq hq' => ?_⟩
        rcases List.mem_cons.mp hq with rfl | hq
        · exact absurd hq' htype
        · exact hplaced q hq hq'
      · rename_i htype
        rw [ne_eq, not_not] at htype
        obtain ⟨⟨r1, k1, o1⟩, hseg, hrun⟩ := bind_eq_ok.mp hrun
        simp only at hrun
        split at hrun
        · rename_i hneg
          cases hrun
          exact absurd hneg hr
        · rename_i hr1
          obtain ⟨hle, m1, hs1, h1, hkeeps1, hplaced1⟩ :=
            mapSegment_placed h hne hc (hfits ph List.mem_cons_self htype) htype hseg hr1
          simp only at hs1
          subst hs1
          obtain ⟨m, hs, hkeeps, hplaced⟩ := ih (s := ⟨{ s.kernel with phys := m1 }, o1⟩) h1 hc hapart hfits' hrun hr
          refine ⟨m, hs, fun a ha => ?_, fun q hq hq' => ?_⟩
          · exact (hkeeps a fun q hq => ha q (List.mem_cons_of_mem _ hq)).trans (hkeeps1 a (ha ph List.mem_cons_self))
          · rcases List.mem_cons.mp hq with rfl | hq
            · refine ⟨hle, fun a ha => ?_⟩
              have hon : q.OnPage a := by
                unfold Among at ha
                refine ⟨htype, ?_, ?_⟩ <;> unfold vpn <;> omega
              exact (hkeeps a fun q' hq' hin => hpw q' hq' a ⟨hon, hin⟩).trans (hplaced1 a ha)
            · exact hplaced q hq hq'

/-! ## Nothing else goes wrong -/

/-- A call reported that memory ran out, or panicked: `sys_page_map` frees the page that it
could not insert, and that page is in use. -/
def NoMemory {α : Type} (x : Except String (Int × α)) : Prop :=
  (∃ s, x = .ok (-E_NO_MEM, s)) ∨ x = .error "pp_ref != 0"

theorem sysPageAlloc_total {envid : Word} {e : Slot} {d : Ppn} (h : Sound K k.dirs k.phys)
    (hopen : TablesOpen k.dirs k.phys) (hperm : PermOk perm) (hva : VaOk va)
    (he : envid2env k cur envid false = .ok e) (hd : k.dirs e = some d) :
    NoMemory (sysPageAlloc k cur envid va perm) ∨
      ∃ m, sysPageAlloc k cur envid va perm = .ok (0, { k with phys := m }) ∧ TablesOpen k.dirs m := by
  obtain ⟨l, hl⟩ := h.ledger
  have hd' : (k.envs e).envPgdir = some d := hd
  have hneg : (-E_NO_MEM : Int) < 0 := by decide
  rcases pageAlloc_cases hl true with halloc | ⟨p, m1, halloc⟩
  · left
    left
    exact ⟨k, by simp only [sysPageAlloc, hperm, hva, not_true_eq_false, if_false, he, halloc, bind, Except.bind]; rfl⟩
  · obtain ⟨l1, -, h1, hfresh, -, -⟩ := hl.pageAlloc halloc
    rcases pageInsert_cases h1 (pageAlloc_open hl hopen halloc) hd hva.user hfresh.notMem hfresh.notKernel
      hfresh.not_isTab hfresh.bound perm with ⟨hins, -⟩ | ⟨m2, hins, hopen2⟩
    · have href : (m1.pages p).ppRef = 0 := by
        have hunused : total (target k.dirs m1) [] p = 0 := hfresh.unused
        rw [h1.pool.count p hfresh.notKernel, hunused]
        rfl
      have hlink : (m1.pages p).ppLink = none := h1.pool.off p hfresh.notMem
      have hfree : pageFree m1 p = .ok { m1.setLink p m1.pageFreeList with pageFreeList := some p } := by
        rw [pageFree, if_neg (not_not.mpr href), if_neg (not_not.mpr hlink)]
      left
      left
      exact ⟨_, by simp only [sysPageAlloc, hperm, hva, not_true_eq_false, if_false, he, halloc, hd', hins, hfree, bind,
        Except.bind, if_pos hneg]; rfl⟩
    · right
      refine ⟨m2, ?_, hopen2⟩
      simp only [sysPageAlloc, hperm, hva, not_true_eq_false, if_false, he, halloc, hd', hins, bind, Except.bind]
      rfl

theorem sysPageMap_total {srcva dstva : Word} {dcur dc : Ppn} (h : Sound K k.dirs k.phys)
    (hopen : TablesOpen k.dirs k.phys) (hperm : PermOk perm) (hsrcva : VaOk srcva) (hdstva : VaOk dstva)
    (hself : envid2env k cur 0 false = .ok cur) (hc : envid2env k cur child false = .ok c)
    (hdcur : k.dirs cur = some dcur) (hdc : k.dirs c = some dc) (hsolo : Solo k.dirs k.phys cur srcva) :
    sysPageMap k cur 0 srcva child dstva perm = .error "pp_ref != 0" ∨
      ∃ m, sysPageMap k cur 0 srcva child dstva perm = .ok (0, { k with phys := m }) ∧ TablesOpen k.dirs m := by
  obtain ⟨l, hl⟩ := h.ledger
  obtain ⟨w, hw, hone, hwrite⟩ := hsolo
  have htgt := target_user hw
  have hpos : 0 < uses k.dirs k.phys [] (PGNUM w) := total_pos htgt
  have hK := hl.not_kernel htgt
  obtain ⟨t, hlook, hload⟩ := hl.lookup_total hdcur hw
  have hwritable : ¬ (¬ Writable (k.phys.load (t, PTX srcva)) ∧ Writable perm) := fun hand => hand.1 (by
    rw [hload]
    intro h0
    have hbit := congrArg (· &&& PTE_W) hwrite
    simp only [BitVec.and_assoc] at hbit
    rw [show userWrite &&& PTE_W = PTE_W by decide, h0] at hbit
    exact absurd hbit (by decide))
  have hd1 : (k.envs cur).envPgdir = some dcur := hdcur
  have hd2 : (k.envs c).envPgdir = some dc := hdc
  have hneg : (-E_NO_MEM : Int) < 0 := by decide
  rcases pageInsert_cases hl hopen hdc hdstva.user (hl.pool.not_free hpos) hK (hl.not_isTab_of_user htgt)
    (hl.bound _ (Or.inr hpos)) (perm ||| PTE_P ||| PTE_U) with ⟨hins, -⟩ | ⟨m, hins, hopen'⟩
  · have href : (k.phys.pages (PGNUM w)).ppRef ≠ 0 := by
      have htotal : total (target k.dirs k.phys) [] (PGNUM w) = 1 := hone
      rw [hl.pool.count (PGNUM w) hK, htotal]
      decide
    have hfree : pageFree k.phys (PGNUM w) = .error "pp_ref != 0" := by
      rw [pageFree, if_pos href]
    left
    simp only [sysPageMap, hperm, hsrcva, hdstva, and_self, not_true_eq_false, if_false, hself, hd1, hlook, hwritable, hc,
      hd2, hins, hfree, bind, Except.bind, if_pos hneg]
  · right
    refine ⟨m, ?_, hopen'⟩
    simp only [sysPageMap, hperm, hsrcva, hdstva, and_self, not_true_eq_false, if_false, hself, hd1, hlook, hwritable, hc,
      hd2, hins, bind, Except.bind]
    rfl

/-- `readn` of bytes that the file has returns. -/
theorem readn_total {buf : Word} {d : Ppn} (h : Sound K s.kernel.dirs s.kernel.phys)
    (hopen : TablesOpen s.kernel.dirs s.kernel.phys) (hd : s.kernel.dirs cur = some d) (hn : n.toNat ≤ 4096)
    (hpos : 0 < n.toNat) (hsize : s.fdOffset.toNat + n.toNat ≤ file.size) (hbuf : buf.toNat + n.toNat ≤ UTOP.toNat)
    (hsolo : ∀ a, Among buf n.toNat a → Solo s.kernel.dirs s.kernel.phys cur a) :
    ∃ m o, readn file cur s buf n = .ok (n.toInt, ⟨{ s.kernel with phys := m }, o⟩) ∧
      TablesOpen s.kernel.dirs m := by
  have hsmall := file.small
  obtain ⟨l, hl⟩ := h.ledger
  have hlen := Program.length_bytes file s.fdOffset.toNat n.toNat
  obtain ⟨m, hstore, hopen'⟩ := storeBytes_total hd (by decide) (fun _ => id)
    (file.bytes s.fdOffset.toNat n.toNat) hl hopen (by rw [hlen]; exact hbuf) fun a ha => hsolo a (hlen ▸ ha)
  have hread : read file cur s (buf + 0) (n - 0) =
      .ok ((n.toNat : Int), ⟨{ s.kernel with phys := m }, s.fdOffset + BitVec.ofInt 32 n.toNat⟩) := by
    have hd' : (s.kernel.envs cur).envPgdir = some d := hd
    rw [show buf + 0 = buf from BitVec.add_zero buf, show n - 0 = n from BitVec.sub_zero n, read,
      fileRead_present hn hsize hpos]
    simp only [hd', hstore]
    exact if_neg (by omega)
  have hlt : (0 : Word) < n := BitVec.lt_def.mpr hpos
  have htot : (0 : Word) + BitVec.ofInt 32 n.toNat = n := by
    rw [show (0 : Word) + BitVec.ofInt 32 n.toNat = BitVec.ofInt 32 n.toNat from BitVec.zero_add _, BitVec.ofInt_natCast,
      BitVec.ofNat_toNat, BitVec.setWidth_eq]
  obtain ⟨fuel, hfuel⟩ : ∃ fuel, n.toNat = fuel + 1 := ⟨n.toNat - 1, by omega⟩
  refine ⟨m, s.fdOffset + BitVec.ofInt 32 n.toNat, ?_, hopen'⟩
  rw [readn, readnLoop, if_pos hlt, hread]
  simp only [bind, Except.bind]
  rw [if_neg (by omega), if_neg (by omega), htot, hfuel, readnLoop, if_neg (BitVec.lt_irrefl n)]

theorem sysPageUnmap_total {d : Ppn} {w : Word} (h : Sound K k.dirs k.phys) (hopen : TablesOpen k.dirs k.phys)
    (hva : VaOk va) (hself : envid2env k cur 0 false = .ok cur) (hd : k.dirs cur = some d)
    (hw : entry k.dirs k.phys cur (PDX va) (PTX va) = some w) :
    ∃ m, sysPageUnmap k cur 0 va = .ok (0, { k with phys := m }) ∧ TablesOpen k.dirs m := by
  obtain ⟨l, hl⟩ := h.ledger
  obtain ⟨m, hrem, hopen'⟩ := pageRemove_total hl hopen hd hva.user hw
  have hd' : (k.envs cur).envPgdir = some d := hd
  refine ⟨m, ?_, hopen'⟩
  simp only [sysPageUnmap, hva, not_true_eq_false, if_false, hself, hd', hrem, bind, Except.bind]
  rfl

theorem mapSegmentPage_total {filesz fileoffset i : Word} {dcur dc : Ppn} (h : Sound K s.kernel.dirs s.kernel.phys)
    (hopen : TablesOpen s.kernel.dirs s.kernel.phys) (hne : c ≠ cur) (hc : envid2env s.kernel cur child false = .ok c)
    (hdcur : s.kernel.dirs cur = some dcur) (hdc : s.kernel.dirs c = some dc) (hperm : PermOk perm)
    (hva : va.toNat % 4096 = 0) (hi : i.toNat % 4096 = 0) (huser : va.toNat + i.toNat < UTOP.toNat)
    (hsize : 0 < filesz.toNat → fileoffset.toNat + filesz.toNat ≤ file.size) :
    NoMemory (mapSegmentPage file cur child va filesz fileoffset perm i s) ∨
      ∃ m o, mapSegmentPage file cur child va filesz fileoffset perm i s =
        .ok (0, ⟨{ s.kernel with phys := m }, o⟩) ∧ TablesOpen s.kernel.dirs m := by
  have hself : ∀ k : Kernel, envid2env k cur 0 false = .ok cur := fun _ => rfl
  rw [UTOP_toNat] at huser
  have hsum : (va + i).toNat = va.toNat + i.toNat := by
    rw [BitVec.toNat_add]
    omega
  have hok : VaOk (va + i) := by
    refine not_or.mpr ⟨?_, not_not.mpr (BitVec.eq_of_toNat_eq ?_)⟩
    · rw [BitVec.not_le, BitVec.lt_def, UTOP_toNat]
      omega
    · rw [BitVec.toNat_umod, PGSIZE_toNat, hsum]
      change _ = 0
      omega
  by_cases hblank : filesz ≤ i
  · rcases sysPageAlloc_total h hopen hperm hok hc hdc with (⟨k', halloc⟩ | herr) | ⟨m, halloc, hopen'⟩
    · exact .inl (.inl ⟨_, by rw [mapSegmentPage, if_pos hblank, halloc]; rfl⟩)
    · exact .inl (.inr (by rw [mapSegmentPage, if_pos hblank, herr]; rfl))
    · exact .inr ⟨m, s.fdOffset, by rw [mapSegmentPage, if_pos hblank, halloc]; rfl, hopen'⟩
  · rcases sysPageAlloc_total h hopen (show PermOk (PTE_P ||| PTE_U ||| PTE_W) by decide) (show VaOk UTEMP by decide)
      (hself _) hdcur with (⟨k', halloc⟩ | herr) | ⟨m1, halloc, hopen1⟩
    · refine .inl (.inl ⟨{ s with kernel := k' }, ?_⟩)
      rw [mapSegmentPage, if_neg hblank, halloc]
      simp only [bind, Except.bind]
      exact if_pos (by decide)
    · exact .inl (.inr (by rw [mapSegmentPage, if_neg hblank, herr]; rfl))
    · obtain ⟨-, m1', hk1, h1, -, hsolo1, -⟩ := sysPageAlloc_placed h (hself _) halloc (lt_irrefl (0 : Int))
      obtain rfl : m1 = m1' := congrArg Kernel.phys hk1
      replace hsolo1 := hsolo1 (by decide)
      have hfile : i.toNat < filesz.toNat := by
        rw [BitVec.le_def, not_le] at hblank
        exact hblank
      have hcount := count_toNat hfile
      set n : Word := if PGSIZE ≤ filesz - i then PGSIZE else filesz - i with hn
      have hsmall := file.small
      have hpresent := hsize (by omega)
      have hoff : (fileoffset + i).toNat = fileoffset.toNat + i.toNat := by
        rw [BitVec.toNat_add]
        omega
      have hutemp : UTEMP.toNat = 4194304 := rfl
      have hsolo : ∀ a, Among UTEMP n.toNat a → Solo s.kernel.dirs m1 cur a := fun a ha => by
        refine solo_congr ?_ hsolo1
        unfold vpn Among at *
        omega
      set s1 : Loading := ⟨{ s.kernel with phys := m1 }, fileoffset + i⟩ with hs1
      have hfits : s1.fdOffset.toNat + n.toNat ≤ file.size := by
        rw [hs1]
        simp only
        omega
      obtain ⟨m2, o, hread, hopen2⟩ := readn_total (s := s1) h1 hopen1 hdcur (by omega) (by omega) hfits
        (by rw [UTOP_toNat]; omega) hsolo
      obtain ⟨m2', hk2, h2, -, hkept2, -⟩ := readn_placed (s := s1) h1 (by omega) (by omega) hfits
        (by rw [UTOP_toNat]; omega) hsolo hread
      obtain rfl : m2 = m2' := congrArg Kernel.phys hk2
      have hsolo2 : Solo s.kernel.dirs m2 cur UTEMP := hkept2 cur UTEMP hsolo1
      have hnonneg : ¬ n.toInt < 0 := by
        rw [BitVec.toInt_eq_toNat_of_lt (by omega)]
        omega
      have hrun : mapSegmentPage file cur child va filesz fileoffset perm i s = (do
          let (r, k) ← sysPageMap { s.kernel with phys := m2 } cur 0 UTEMP child (va + i) perm
          if r < 0 then .error "spawn: sys_page_map data"
          else
            let (_, k) ← sysPageUnmap k cur 0 UTEMP
            return (0, ⟨k, o⟩)) := by
        rw [mapSegmentPage, if_neg hblank, halloc]
        simp only [bind, Except.bind]
        rw [if_neg (lt_irrefl (0 : Int)), ← hn, ← hs1, hread]
        simp only
        rw [if_neg hnonneg]
      rw [hrun]
      rcases sysPageMap_total (k := { s.kernel with phys := m2 }) h2 hopen2 hperm (show VaOk UTEMP by decide) hok (hself _)
        hc hdcur hdc hsolo2 with herr | ⟨m3, hmap, hopen3⟩
      · exact .inl (.inr (by rw [herr]; rfl))
      · obtain ⟨-, m3', hk3, h3, hkeeps3, -⟩ := sysPageMap_placed (k := { s.kernel with phys := m2 }) h2 hne (hself _) hc
          hsolo2 hmap (lt_irrefl (0 : Int))
        obtain rfl : m3 = m3' := congrArg Kernel.phys hk3
        obtain ⟨w2, hw2, -⟩ := hsolo2
        have hbyte : byteAt s.kernel.dirs m3 cur UTEMP ≠ none := by
          have heq : byteAt s.kernel.dirs m3 cur UTEMP = byteAt s.kernel.dirs m2 cur UTEMP :=
            hkeeps3 cur UTEMP fun hand => hne hand.1.symm
          rw [heq, byteAt, hw2]
          exact Option.some_ne_none _
        obtain ⟨w3, hw3⟩ : ∃ w, entry s.kernel.dirs m3 cur (PDX UTEMP) (PTX UTEMP) = some w := by
          refine Option.ne_none_iff_exists'.mp fun hnone => hbyte ?_
          rw [byteAt, hnone]
          rfl
        obtain ⟨m4, hunmap, hopen4⟩ := sysPageUnmap_total (k := { s.kernel with phys := m3 }) h3 hopen3
          (show VaOk UTEMP by decide) (hself _) hdcur hw3
        refine .inr ⟨m4, o, ?_, hopen4⟩
        rw [hmap]
        simp only [bind, Except.bind]
        rw [if_neg (lt_irrefl (0 : Int)), hunmap]
        rfl

theorem mapSegmentLoop_total {filesz fileoffset : Word} {dcur dc : Ppn} (hne : c ≠ cur) (hperm : PermOk perm)
    (hva : va.toNat % 4096 = 0) (hsize : 0 < filesz.toNat → fileoffset.toNat + filesz.toNat ≤ file.size) (n : Nat) :
    ∀ {i : Word} {s : Loading}, Sound K s.kernel.dirs s.kernel.phys → TablesOpen s.kernel.dirs s.kernel.phys →
      envid2env s.kernel cur child false = .ok c → s.kernel.dirs cur = some dcur → s.kernel.dirs c = some dc →
      i.toNat % 4096 = 0 → (0 < n → va.toNat + i.toNat + n * 4096 ≤ UTOP.toNat) →
      NoMemory (mapSegmentLoop file cur child va filesz fileoffset perm n i s) ∨
        ∃ m o, mapSegmentLoop file cur child va filesz fileoffset perm n i s =
          .ok (0, ⟨{ s.kernel with phys := m }, o⟩) ∧ TablesOpen s.kernel.dirs m := by
  induction n with
  | zero => exact fun {i s} _ hopen _ _ _ _ _ => .inr ⟨s.kernel.phys, s.fdOffset, rfl, hopen⟩
  | succ n ih =>
      intro i s h hopen hc hdcur hdc hi hle
      replace hle := hle (Nat.succ_pos n)
      rw [UTOP_toNat] at hle
      have huser : va.toNat + i.toNat < UTOP.toNat := by
        rw [UTOP_toNat]
        omega
      rcases mapSegmentPage_total h hopen hne hc hdcur hdc hperm hva hi huser hsize with
        (⟨t, hpage⟩ | herr) | ⟨m1, o1, hpage, hopen1⟩
      · refine .inl (.inl ⟨t, ?_⟩)
        rw [mapSegmentLoop, hpage]
        simp only [bind, Except.bind]
        rw [if_pos (show (-E_NO_MEM : Int) < 0 by decide)]
        rfl
      · exact .inl (.inr (by rw [mapSegmentLoop, herr]; rfl))
      · obtain ⟨-, m1', hk1, h1, -, -⟩ :=
          mapSegmentPage_placed h hne hc hva hi (by omega) hsize hpage (lt_irrefl (0 : Int))
        obtain rfl : m1 = m1' := congrArg Kernel.phys hk1
        have hloop : mapSegmentLoop file cur child va filesz fileoffset perm (n + 1) i s =
            mapSegmentLoop file cur child va filesz fileoffset perm n (i + PGSIZE) ⟨{ s.kernel with phys := m1 }, o1⟩ := by
          rw [mapSegmentLoop, hpage]
          simp only [bind, Except.bind]
          rw [if_neg (lt_irrefl (0 : Int))]
        rw [hloop]
        cases n with
        | zero => exact .inr ⟨m1, o1, rfl, hopen1⟩
        | succ n =>
            have hnext : (i + PGSIZE).toNat = i.toNat + 4096 := by
              rw [BitVec.toNat_add, PGSIZE_toNat]
              omega
            exact ih (s := ⟨{ s.kernel with phys := m1 }, o1⟩) h1 hopen1 hc hdcur hdc (by omega)
              (fun _ => by rw [UTOP_toNat]; omega)

/-- Every page of the segment is one that `sys_page_alloc` maps. -/
def Proghdr.InUser (ph : Proghdr) : Prop := ∀ a, ph.OnPage a → a.toNat < UTOP.toNat

theorem mapSegment_total {dcur dc : Ppn} (h : Sound K s.kernel.dirs s.kernel.phys)
    (hopen : TablesOpen s.kernel.dirs s.kernel.phys) (hne : c ≠ cur) (hc : envid2env s.kernel cur child false = .ok c)
    (hdcur : s.kernel.dirs cur = some dcur) (hdc : s.kernel.dirs c = some dc) (hperm : PermOk perm)
    (hfits : ph.Fits file) (huser : ph.InUser) (htype : ph.pType = ELF_PROG_LOAD) :
    NoMemory (mapSegment file cur child ph.pVa ph.pMemsz ph.pFilesz ph.pOffset perm s) ∨
      ∃ m o, mapSegment file cur child ph.pVa ph.pMemsz ph.pFilesz ph.pOffset perm s =
        .ok (0, ⟨{ s.kernel with phys := m }, o⟩) ∧ TablesOpen s.kernel.dirs m := by
  obtain ⟨hsize, hcong, hpresent, haddr⟩ := hfits
  rw [BitVec.le_def] at hsize
  have hoff := PGOFF_toNat ph.pVa
  have hva : (ph.pVa - PGOFF ph.pVa).toNat = ph.pVa.toNat - ph.pVa.toNat % 4096 := by
    rw [BitVec.toNat_sub_of_le (BitVec.le_def.mpr (by omega)), hoff]
  have hoffset : (ph.pOffset - PGOFF ph.pVa).toNat = ph.pOffset.toNat - ph.pVa.toNat % 4096 := by
    rw [BitVec.toNat_sub_of_le (BitVec.le_def.mpr (by omega)), hoff]
  have hmemsz : (ph.pMemsz + PGOFF ph.pVa).toNat = ph.pMemsz.toNat + ph.pVa.toNat % 4096 := by
    rw [BitVec.toNat_add, hoff]
    omega
  have hfilesz : (ph.pFilesz + PGOFF ph.pVa).toNat = ph.pFilesz.toNat + ph.pVa.toNat % 4096 := by
    rw [BitVec.toNat_add, hoff]
    omega
  refine mapSegmentLoop_total hne hperm (by omega) (fun _ => by omega) _ h hopen hc hdcur hdc rfl fun hpos => ?_
  rw [hmemsz] at hpos
  rw [hmemsz, hva, show (0 : Word).toNat = 0 from rfl, UTOP_toNat]
  -- the last page of the segment
  set n := ph.pVa.toNat - ph.pVa.toNat % 4096 + ((ph.pMemsz.toNat + ph.pVa.toNat % 4096 + 4095) / 4096 - 1) * 4096
  obtain ⟨x, hx⟩ : ∃ x : Word, x.toNat = n := by
    refine ⟨BitVec.ofNat 32 n, ?_⟩
    rw [BitVec.toNat_ofNat]
    exact Nat.mod_eq_of_lt (by omega)
  have hlast := huser x ⟨htype, by unfold vpn; omega, by unfold vpn; omega⟩
  rw [UTOP_toNat] at hlast
  omega

/-- The loop of `spawn` returns, unless memory runs out. -/
theorem mapSegments_total {dcur dc : Ppn} (hne : c ≠ cur) : ∀ {phs : List Proghdr} {s : Loading},
    Sound K s.kernel.dirs s.kernel.phys → TablesOpen s.kernel.dirs s.kernel.phys →
    envid2env s.kernel cur child false = .ok c → s.kernel.dirs cur = some dcur → s.kernel.dirs c = some dc →
    (∀ ph ∈ phs, ph.pType = ELF_PROG_LOAD → ph.Fits file ∧ ph.InUser) →
    NoMemory (mapSegments file cur child phs s) ∨ ∃ s', mapSegments file cur child phs s = .ok (0, s') := by
  intro phs
  induction phs with
  | nil => exact fun {s} _ _ _ _ _ _ => .inr ⟨s, rfl⟩
  | cons ph phs ih =>
      intro s h hopen hc hdcur hdc hfits
      have hfits' : ∀ q ∈ phs, q.pType = ELF_PROG_LOAD → q.Fits file ∧ q.InUser := fun q hq =>
        hfits q (List.mem_cons_of_mem _ hq)
      rw [mapSegments]
      split
      · exact ih h hopen hc hdcur hdc hfits'
      · rename_i htype
        rw [ne_eq, not_not] at htype
        obtain ⟨hfit, huser⟩ := hfits ph List.mem_cons_self htype
        set perm := if ph.pFlags &&& ELF_PROG_FLAG_WRITE ≠ 0 then PTE_P ||| PTE_U ||| PTE_W else PTE_P ||| PTE_U
          with hpermdef
        have hperm : PermOk perm := by
          rw [hpermdef]
          split <;> decide
        rcases mapSegment_total h hopen hne hc hdcur hdc hperm hfit huser htype with
          (⟨t, hseg⟩ | herr) | ⟨m1, o1, hseg, hopen1⟩
        · refine .inl (.inl ⟨t, ?_⟩)
          simp only [hseg, bind, Except.bind]
          rw [if_pos (show (-E_NO_MEM : Int) < 0 by decide)]
          rfl
        · exact .inl (.inr (by simp only [herr, bind, Except.bind]))
        · obtain ⟨-, m1', hk1, h1, -, -⟩ := mapSegment_placed h hne hc hfit htype hseg (lt_irrefl (0 : Int))
          obtain rfl : m1 = m1' := congrArg Kernel.phys hk1
          simp only [hseg, bind, Except.bind]
          rw [if_neg (lt_irrefl (0 : Int))]
          exact ih (s := ⟨{ s.kernel with phys := m1 }, o1⟩) h1 hopen1 hc hdcur hdc hfits'

end

end SisOp.Loader
