/-
# `SisOp.User.InitStack` — the arguments of a spawned program

`init_stack` lays the strings and the pointers to them out from the top of a page down,
in the addresses of the parent, and gives the page to the child.  The test that they fit
compares a pointer that may have wrapped around.
-/
import SisOp.Lib.Cells
import SisOp.Pgfault.Frames

namespace SisOp.User

open SisOp.Jos SisOp.Lib SisOp.Pgfault

/-- A string without its terminator. -/
structure CStr where
  bytes : List Byte
  no_nul : 0 ∉ bytes

/-- The bytes in memory. -/
def CStr.stored (s : CStr) : List Byte := s.bytes ++ [0]

/-- `strlen(s) + 1`. -/
def CStr.size (s : CStr) : Nat := s.bytes.length + 1

/-- A page by offset. -/
abbrev PageBytes := Nat → Byte

namespace InitStack

/-- The page of the stack in the child. -/
def STACKPAGE : Word := USTACKTOP - PGSIZE

/-- `UTEMP2USTACK`. -/
def UTEMP2USTACK (addr : Word) : Word := addr + STACKPAGE - UTEMP

/-- `string_size`. -/
def stringSize (argv : List CStr) : Nat := (argv.map CStr.size).sum

/-- `string_store`, before the loop. -/
def stringStore (argv : List CStr) : Word := UTEMP + PGSIZE - BitVec.ofNat 32 (stringSize argv)

/-- `argv_store`. -/
def argvStore (argv : List CStr) : Word :=
  ROUNDDOWN (stringStore argv) 4 - BitVec.ofNat 32 (4 * (argv.length + 1))

/-- A store to the page at `UTEMP`; `none` is a page fault. -/
def storeAt (pg : PageBytes) (a : Word) (bs : List Byte) : Option PageBytes :=
  if (a - UTEMP).toNat + bs.length ≤ 4096 then some (put pg (a - UTEMP).toNat bs) else none

/-- The loop over the arguments, from argument `i` on. -/
def fill (argvStore : Word) (pg : PageBytes) (i : Nat) (store : Word) : List CStr → Option (PageBytes × Word)
  | [] => some (pg, store)
  | s :: rest => do
    let pg ← storeAt pg (argvStore + BitVec.ofNat 32 (4 * i)) (wordBytes (UTEMP2USTACK store))
    let pg ← storeAt pg store s.stored
    fill argvStore pg (i + 1) (store + BitVec.ofNat 32 s.size) rest

/-- What the system calls return: `sys_page_alloc`, `sys_page_map` and `sys_page_unmap`. -/
structure Calls where
  alloc : Int
  map : Int
  unmap : Int

/-- The return value, `*init_esp` and the page that the child gets at `STACKPAGE`. -/
structure Outcome where
  ret : Int
  initEsp : Option Word
  stack : Option PageBytes

/-- `init_stack`; `none` when it panics or faults. -/
def initStack (calls : Calls) (argv : List CStr) : Option Outcome :=
  if argvStore argv - 8 < UTEMP then some ⟨-E_NO_MEM, none, none⟩
  else if calls.alloc < 0 then some ⟨calls.alloc, none, none⟩
  else do
    let (pg, store) ← fill (argvStore argv) (fun _ => 0) 0 (stringStore argv) argv
    let pg ← storeAt pg (argvStore argv + BitVec.ofNat 32 (4 * argv.length)) (wordBytes 0)
    if store ≠ UTEMP + PGSIZE then none
    else
      let pg ← storeAt pg (argvStore argv - 4) (wordBytes (UTEMP2USTACK (argvStore argv)))
      let pg ← storeAt pg (argvStore argv - 8) (wordBytes (BitVec.ofNat 32 argv.length))
      let esp := UTEMP2USTACK (argvStore argv - 8)
      if calls.map < 0 then some ⟨calls.map, some esp, none⟩
      else if calls.unmap < 0 then some ⟨calls.unmap, some esp, some pg⟩
      else some ⟨0, some esp, some pg⟩

/-! ## The layout -/

/-- The address of an offset in the page. -/
def addr (o : Nat) : Word := UTEMP + BitVec.ofNat 32 o

/-- The pointers to strings that stand from offset `q` on. -/
def pointers (q : Nat) : List CStr → List Word
  | [] => []
  | s :: rest => UTEMP2USTACK (addr q) :: pointers (q + s.size) rest

section

variable {pg : PageBytes} {o a i q : Nat} {bs : List Byte} {s : CStr} {argv rest : List CStr}

theorem addr_sub (ho : o < 2 ^ 32) : (addr o - UTEMP).toNat = o := by
  rw [addr, BitVec.add_comm, BitVec.add_sub_cancel, BitVec.toNat_ofNat, Nat.mod_eq_of_lt ho]

theorem addr_add (o k : Nat) : addr o + BitVec.ofNat 32 k = addr (o + k) := by
  rw [addr, addr, BitVec.add_assoc, BitVec.ofNat_add]

theorem storeAt_addr (h : o + bs.length ≤ 4096) : storeAt pg (addr o) bs = some (put pg o bs) := by
  rw [storeAt, addr_sub (by omega), if_pos h]

theorem length_stored (s : CStr) : s.stored.length = s.size := by
  simp [CStr.stored, CStr.size]

theorem length_wordBytes (w : Word) : (wordBytes w).length = 4 := rfl

@[simp] theorem stringSize_nil : stringSize [] = 0 := rfl

@[simp] theorem stringSize_cons (s : CStr) (rest : List CStr) :
    stringSize (s :: rest) = s.size + stringSize rest := by
  simp [stringSize]

theorem length_flatMap_stored (argv : List CStr) : (argv.flatMap CStr.stored).length = stringSize argv := by
  induction argv with
  | nil => rfl
  | cons s rest ih => rw [List.flatMap_cons, List.length_append, ih, length_stored, stringSize_cons]

theorem length_pointers (q : Nat) (argv : List CStr) : (pointers q argv).length = argv.length := by
  induction argv generalizing q with
  | nil => rfl
  | cons s rest ih => exact congrArg (· + 1) (ih _)

theorem length_flatMap_words (ws : List Word) : (ws.flatMap wordBytes).length = 4 * ws.length := by
  induction ws with
  | nil => rfl
  | cons w ws ih =>
    rw [List.flatMap_cons, List.length_append, ih, length_wordBytes, List.length_cons]
    omega

/-- What the loop leaves: the pointers, the strings, and the rest as it was. -/
theorem fill_spec (pg : PageBytes) (i q : Nat) (rest : List CStr) (hgap : a + 4 * (i + rest.length) ≤ q) (hend : q + stringSize rest ≤ 4096) :
    ∃ pg', fill (addr a) pg i (addr q) rest = some (pg', addr (q + stringSize rest)) ∧
      HoldsAt pg' (a + 4 * i) ((pointers q rest).flatMap wordBytes) ∧
      HoldsAt pg' q (rest.flatMap CStr.stored) ∧
      ∀ x, x < a + 4 * i ∨ a + 4 * (i + rest.length) ≤ x → x < q ∨ q + stringSize rest ≤ x → pg' x = pg x := by
  induction rest generalizing pg i q with
  | nil => exact ⟨pg, rfl, fun k hk => absurd hk (Nat.not_lt_zero k), fun k hk => absurd hk (Nat.not_lt_zero k),
      fun _ _ _ => rfl⟩
  | cons s rest ih =>
    rw [List.length_cons] at hgap
    rw [stringSize_cons] at hend
    have hlen := length_stored s
    have hptr : a + 4 * i + (wordBytes (UTEMP2USTACK (addr q))).length ≤ 4096 := by
      rw [length_wordBytes]
      omega
    obtain ⟨pg', hrun, hwords, hstrs, hframe⟩ := ih
      (put (put pg (a + 4 * i) (wordBytes (UTEMP2USTACK (addr q)))) q s.stored) (i + 1) (q + s.size)
      (by omega) (by omega)
    refine ⟨pg', ?_, ?_, ?_, fun x hx hx' => ?_⟩
    · rw [fill, addr_add, storeAt_addr hptr]
      simp only [Option.bind_eq_bind, Option.bind_some]
      rw [storeAt_addr (by omega), Option.bind_some, addr_add, hrun, stringSize_cons, Nat.add_assoc]
    · rw [pointers, List.flatMap_cons, holdsAt_append]
      refine ⟨?_, by rwa [length_wordBytes]⟩
      refine (holdsAt_put.put (.inl ?_)).congr fun x hlo hhi => hframe x (.inl ?_) (.inl ?_)
      all_goals
        rw [length_wordBytes] at *
        omega
    · rw [List.flatMap_cons, holdsAt_append, hlen]
      refine ⟨holdsAt_put.congr fun x hlo hhi => hframe x (.inr ?_) (.inl ?_), hstrs⟩
      all_goals omega
    · rw [List.length_cons] at hx
      rw [stringSize_cons] at hx'
      rw [hframe x (by omega) (by omega), put_of_not (by omega), put_of_not]
      rw [length_wordBytes]
      omega

end

/-! ## Where things stand

All offsets are in the page, the strings at its end. -/

/-- The strings, the pointers and the two words go into a page. -/
def Fits (argv : List CStr) : Prop := (stringSize argv + 3) / 4 * 4 + 4 * (argv.length + 1) + 8 ≤ 4096

/-- What `argv_store - 2` is computed from is enough to subtract from. -/
def NoWrap (argv : List CStr) : Prop :=
  4 * (argv.length + 1) + 8 ≤ ((UTEMP + PGSIZE).toNat - stringSize argv) / 4 * 4

instance (argv : List CStr) : Decidable (Fits argv) := Nat.decLe ..

instance (argv : List CStr) : Decidable (NoWrap argv) := Nat.decLe ..

/-- The offset of the strings. -/
def strings (argv : List CStr) : Nat := 4096 - stringSize argv

/-- The offset of the pointers. -/
def table (argv : List CStr) : Nat := strings argv / 4 * 4 - 4 * (argv.length + 1)

section

variable {argv : List CStr} {calls : Calls}

/-- Every string has its terminator. -/
theorem length_le_stringSize (argv : List CStr) : argv.length ≤ stringSize argv := by
  induction argv with
  | nil => exact Nat.le_refl 0
  | cons s rest ih =>
    rw [List.length_cons, stringSize_cons, CStr.size]
    omega

theorem toNat_addr {o : Nat} (ho : o < 2 ^ 31) : (addr o).toNat = 0x400000 + o := by
  rw [addr, BitVec.toNat_add, BitVec.toNat_ofNat, show UTEMP.toNat = 0x400000 from rfl]
  omega

theorem toNat_stringStore (hS : stringSize argv < 2 ^ 22) : (stringStore argv).toNat = 0x401000 - stringSize argv := by
  rw [stringStore, BitVec.toNat_sub, BitVec.toNat_ofNat, show (UTEMP + PGSIZE).toNat = 0x401000 from rfl]
  omega

/-- `argv_store` less some words. -/
theorem toNat_argvStore_sub (hS : stringSize argv < 2 ^ 22) (k : Nat) (hk : k ≤ 8) :
    (argvStore argv - BitVec.ofNat 32 k).toNat =
      ((0x401000 - stringSize argv) / 4 * 4 + (2 ^ 32 - (4 * (argv.length + 1) + k))) % 2 ^ 32 := by
  have hlen := length_le_stringSize argv
  rw [argvStore, BitVec.toNat_sub, BitVec.toNat_sub, ROUNDDOWN_toNat, toNat_stringStore hS, BitVec.toNat_ofNat,
    BitVec.toNat_ofNat, show (4 : Word).toNat = 4 from rfl]
  omega

/-- What the test finds out. -/
theorem argvStore_lt_iff (hS : stringSize argv < 2 ^ 22) :
    argvStore argv - 8 < UTEMP ↔ NoWrap argv ∧ ¬ Fits argv := by
  have hlen := length_le_stringSize argv
  have hsub := toNat_argvStore_sub hS 8 (Nat.le_refl 8)
  rw [BitVec.lt_def, show (8 : Word) = BitVec.ofNat 32 8 from rfl, hsub, NoWrap, Fits,
    show UTEMP.toNat = 0x400000 from rfl, show (UTEMP + PGSIZE).toNat = 0x401000 from rfl]
  omega

theorem stringSize_lt_of_fits (h : Fits argv) : stringSize argv < 2 ^ 22 := by
  unfold Fits at h
  omega

theorem Fits.noWrap (h : Fits argv) : NoWrap argv := by
  unfold Fits at h
  rw [NoWrap, show (UTEMP + PGSIZE).toNat = 0x401000 from rfl]
  omega

/-- The two words, the pointers and the strings follow each other. -/
theorem Fits.table_bounds (h : Fits argv) :
    8 ≤ table argv ∧ table argv + 4 * (argv.length + 1) ≤ strings argv ∧ strings argv + stringSize argv = 4096 := by
  unfold Fits at h
  unfold table strings
  omega

theorem Fits.stringStore (h : Fits argv) : stringStore argv = addr (strings argv) := by
  refine BitVec.eq_of_toNat_eq ?_
  have hS := stringSize_lt_of_fits h
  rw [toNat_stringStore hS, strings, toNat_addr (by omega)]
  unfold Fits at h
  omega

theorem Fits.argvStore_sub (h : Fits argv) {k : Nat} (hk : k ≤ 8) :
    argvStore argv - BitVec.ofNat 32 k = addr (table argv - k) := by
  refine BitVec.eq_of_toNat_eq ?_
  have htop := h.table_bounds
  rw [toNat_argvStore_sub (stringSize_lt_of_fits h) k hk, toNat_addr (by omega)]
  unfold Fits at h
  unfold table strings
  omega

theorem Fits.argvStore (h : Fits argv) : argvStore argv = addr (table argv) := by
  have hsub := h.argvStore_sub (Nat.zero_le 8)
  rwa [BitVec.sub_zero] at hsub

end

/-! ## What the page holds -/

/-- The system calls succeed. -/
structure Calls.Succeed (calls : Calls) : Prop where
  alloc : calls.alloc = 0
  map : calls.map = 0
  unmap : calls.unmap = 0

/-- The page of the child. -/
structure Laid (argv : List CStr) (pg : PageBytes) : Prop where
  argcWord : HoldsAt pg (table argv - 8) (wordBytes (BitVec.ofNat 32 argv.length))
  argvWord : HoldsAt pg (table argv - 4) (wordBytes (UTEMP2USTACK (addr (table argv))))
  pointerWords : HoldsAt pg (table argv) ((pointers (strings argv) argv).flatMap wordBytes)
  null : HoldsAt pg (table argv + 4 * argv.length) (wordBytes 0)
  stringBytes : HoldsAt pg (strings argv) (argv.flatMap CStr.stored)

section

variable {argv : List CStr} {calls : Calls}

theorem initStack_of_fits (h : Fits argv) (hcalls : calls.Succeed) :
    ∃ pg, initStack calls argv = some ⟨0, some (UTEMP2USTACK (addr (table argv - 8))), some pg⟩ ∧ Laid argv pg := by
  obtain ⟨h8, hgap, hend⟩ := h.table_bounds
  obtain ⟨pg, hfill, htable, hstrings, -⟩ := fill_spec (fun _ => 0) 0 (strings argv) argv
    (a := table argv) (by omega) (by omega)
  have hpass : ¬ argvStore argv - 8 < UTEMP := fun hlt =>
    ((argvStore_lt_iff (stringSize_lt_of_fits h)).mp hlt).2 h
  have h4 : argvStore argv - 4 = addr (table argv - 4) := h.argvStore_sub (by decide)
  have h8' : argvStore argv - 8 = addr (table argv - 8) := h.argvStore_sub (by decide)
  have hstore : addr (strings argv + stringSize argv) = UTEMP + PGSIZE := by
    rw [hend]
    rfl
  have hw : ∀ w, (wordBytes w).length = 4 := length_wordBytes
  have hp : ((pointers (strings argv) argv).flatMap wordBytes).length = 4 * argv.length := by
    rw [length_flatMap_words, length_pointers]
  have hs := length_flatMap_stored argv
  refine ⟨put (put (put pg (table argv + 4 * argv.length) (wordBytes 0)) (table argv - 4)
    (wordBytes (UTEMP2USTACK (addr (table argv))))) (table argv - 8) (wordBytes (BitVec.ofNat 32 argv.length)),
    ?_, ?_⟩
  · rw [initStack, if_neg hpass, hcalls.alloc, if_neg (by decide), h4, h8', h.argvStore, h.stringStore]
    simp only [Option.bind_eq_bind, hfill, Option.bind_some, addr_add, hcalls.map, hcalls.unmap]
    rw [storeAt_addr (by rw [hw]; omega), Option.bind_some, if_neg (not_not_intro hstore),
      storeAt_addr (by rw [hw]; omega), Option.bind_some, storeAt_addr (by rw [hw]; omega), Option.bind_some,
      if_neg (by decide), if_neg (by decide)]
  · constructor
    · exact holdsAt_put
    · refine holdsAt_put.put (.inr ?_)
      rw [hw]
      omega
    · refine ((htable.put (.inl ?_)).put (.inr ?_)).put (.inr ?_)
      all_goals
        first | rw [hp] | rw [hw]
        omega
    · refine (holdsAt_put.put (.inr ?_)).put (.inr ?_)
      all_goals
        rw [hw]
        omega
    · refine ((hstrings.put (.inr ?_)).put (.inr ?_)).put (.inr ?_)
      all_goals
        rw [hw]
        omega

end

/-! ## What the child reads -/

/-- The page is mapped at the top of the child's stack. -/
def Shows (mem : Word → Byte) (pg : PageBytes) : Prop :=
  ∀ o, o < 4096 → mem (STACKPAGE + BitVec.ofNat 32 o) = pg o

/-- The string is at the address. -/
def StrAt (mem : Word → Byte) (a : Word) (s : CStr) : Prop :=
  ∀ k (hk : k < s.stored.length), mem (a + BitVec.ofNat 32 k) = s.stored[k]

/-- The `argv` that the child finds above `argc`. -/
def argvPtr (mem : Word → Byte) (esp : Word) : Word := load mem (esp + 4)

/-- `argv[i]`. -/
def argAt (mem : Word → Byte) (esp : Word) (i : Nat) : Word := load mem (argvPtr mem esp + BitVec.ofNat 32 (4 * i))

/-- What the page has to hold. -/
inductive Item (argv : List CStr) where
  | argc
  | argvWord
  | pointer (i : Fin (argv.length + 1))
  | string (i : Fin argv.length)

namespace Item

variable {argv : List CStr}

/-- Where the child finds it. -/
def start (mem : Word → Byte) (esp : Word) : Item argv → Word
  | argc => esp
  | argvWord => esp + 4
  | pointer i => argvPtr mem esp + BitVec.ofNat 32 (4 * i)
  | string i => argAt mem esp i

def size : Item argv → Nat
  | string i => argv[i].size
  | _ => 4

/-- Where `init_stack` puts it. -/
def offset : Item argv → Nat
  | argc => table argv - 8
  | argvWord => table argv - 4
  | pointer i => table argv + 4 * i
  | string i => strings argv + stringSize (argv.take i)

/-- The place in the order of the addresses. -/
def rank : Item argv → Nat
  | argc => 0
  | argvWord => 1
  | pointer i => 2 + i
  | string i => argv.length + 3 + i

theorem rank_injective {x y : Item argv} (h : x.rank = y.rank) : x = y := by
  cases x <;> cases y <;> simp only [rank] at h <;> first | rfl | omega | skip
  all_goals
    congr 1
    omega

end Item

/-- The child is given the strings, in the page below `USTACKTOP` and apart from each other. -/
structure Passes (argv : List CStr) (mem : Word → Byte) (esp : Word) : Prop where
  argc : (load mem esp).toNat = argv.length
  strings : ∀ i (hi : i < argv.length), StrAt mem (argAt mem esp i) argv[i]
  null : argAt mem esp argv.length = 0
  inside : ∀ x : Item argv, STACKPAGE.toNat ≤ (x.start mem esp).toNat ∧
    (x.start mem esp).toNat + x.size ≤ USTACKTOP.toNat
  apart : ∀ x y : Item argv, x ≠ y → (x.start mem esp).toNat + x.size ≤ (y.start mem esp).toNat ∨
    (y.start mem esp).toNat + y.size ≤ (x.start mem esp).toNat

/-- `init_stack` refuses what does not fit, and passes on the rest. -/
structure Correct (argv : List CStr) : Prop where
  refuses : ∀ calls, ¬ Fits argv → initStack calls argv = some ⟨-E_NO_MEM, none, none⟩
  accepts : ∀ calls, calls.Succeed → Fits argv → ∃ esp pg, initStack calls argv = some ⟨0, some esp, some pg⟩ ∧
    ∀ mem, Shows mem pg → Passes argv mem esp

section

variable {argv : List CStr} {mem : Word → Byte} {pg : PageBytes} {o : Nat}

/-- The address in the child of an offset in the page. -/
theorem utemp2ustack_addr (o : Nat) : UTEMP2USTACK (addr o) = STACKPAGE + BitVec.ofNat 32 o := by
  rw [UTEMP2USTACK, addr, BitVec.add_assoc, BitVec.add_comm, BitVec.add_sub_cancel, BitVec.add_comm]

theorem toNat_stackpage_add (ho : o < 2 ^ 24) : (STACKPAGE + BitVec.ofNat 32 o).toNat = STACKPAGE.toNat + o := by
  rw [BitVec.toNat_add, BitVec.toNat_ofNat, show STACKPAGE.toNat = 0xeebfd000 from rfl]
  omega

theorem load_of_holdsAt {w : Word} (hshows : Shows mem pg) (h : HoldsAt pg o (wordBytes w)) (ho : o + 4 ≤ 4096) :
    load mem (STACKPAGE + BitVec.ofNat 32 o) = w := by
  refine load_eq fun j hj => ?_
  have hlen : j < (wordBytes w).length := hj
  rw [BitVec.add_assoc, ← BitVec.ofNat_add, hshows _ (by omega), h j hlen]
  interval_cases j <;> rfl

theorem strAt_of_holdsAt {s : CStr} (hshows : Shows mem pg) (h : HoldsAt pg o s.stored) (ho : o + s.size ≤ 4096) :
    StrAt mem (STACKPAGE + BitVec.ofNat 32 o) s := by
  intro k hk
  have hsize := length_stored s
  rw [BitVec.add_assoc, ← BitVec.ofNat_add, hshows _ (by omega), h k hk]

theorem getElem_pointers (q : Nat) {i : Nat} (hi : i < (pointers q argv).length) :
    (pointers q argv)[i] = UTEMP2USTACK (addr (q + stringSize (argv.take i))) := by
  induction argv generalizing q i with
  | nil => cases hi
  | cons s rest ih =>
    cases i with
    | zero => rfl
    | succ i =>
      have hi' : i < (pointers (q + s.size) rest).length := Nat.lt_of_succ_lt_succ hi
      rw [List.take_succ_cons, stringSize_cons, ← Nat.add_assoc, ← ih _ hi']
      rfl

theorem stringSize_append (xs ys : List CStr) : stringSize (xs ++ ys) = stringSize xs + stringSize ys := by
  simp [stringSize]

/-- A string starts behind those before it. -/
theorem stringSize_take_succ {i : Nat} (hi : i < argv.length) :
    stringSize (argv.take (i + 1)) = stringSize (argv.take i) + argv[i].size := by
  rw [List.take_add_one, List.getElem?_eq_getElem hi, stringSize_append]
  rfl

theorem stringSize_take_le (argv : List CStr) {i j : Nat} (hij : i ≤ j) : stringSize (argv.take i) ≤ stringSize (argv.take j) := by
  obtain ⟨d, rfl⟩ := Nat.exists_eq_add_of_le hij
  rw [List.take_add, stringSize_append]
  exact Nat.le_add_right ..

theorem Fits.string_le (h : Fits argv) {i : Nat} (hi : i < argv.length) :
    strings argv + stringSize (argv.take i) + argv[i].size ≤ 4096 := by
  have hle := stringSize_take_le argv (Nat.succ_le_of_lt hi)
  rw [stringSize_take_succ hi, List.take_length] at hle
  have hend := h.table_bounds.2.2
  omega

/-- The items are in the page. -/
theorem Fits.offset_le (h : Fits argv) (x : Item argv) : x.offset + x.size ≤ 4096 := by
  obtain ⟨h8, hgap, hend⟩ := h.table_bounds
  cases x with
  | argc | argvWord =>
    simp only [Item.offset, Item.size]
    omega
  | pointer i =>
    simp only [Item.offset, Item.size]
    omega
  | string i => exact h.string_le i.isLt

/-- They stand in the order of their ranks. -/
theorem Fits.offset_le_of_rank_lt (h : Fits argv) {x y : Item argv} (hlt : x.rank < y.rank) :
    x.offset + x.size ≤ y.offset := by
  obtain ⟨h8, hgap, hend⟩ := h.table_bounds
  cases x with
  | string i =>
    cases y with
    | string j =>
      simp only [Item.rank] at hlt
      have hle := stringSize_take_le argv (i := i + 1) (j := j) (by omega)
      rw [stringSize_take_succ i.isLt] at hle
      show strings argv + stringSize (argv.take i) + argv[(i : Nat)].size ≤ strings argv + stringSize (argv.take j)
      omega
    | _ =>
      simp only [Item.rank] at hlt
      omega
  | _ =>
    cases y <;> simp only [Item.rank, Item.offset, Item.size] at hlt ⊢ <;> omega

theorem Laid.argvPtr_eq (h : Laid argv pg) (hfits : Fits argv) (hshows : Shows mem pg) :
    argvPtr mem (STACKPAGE + BitVec.ofNat 32 (table argv - 8)) = STACKPAGE + BitVec.ofNat 32 (table argv) := by
  obtain ⟨h8, hgap, hend⟩ := hfits.table_bounds
  have hsum : table argv - 8 + 4 = table argv - 4 := by omega
  rw [argvPtr, show (4 : Word) = BitVec.ofNat 32 4 from rfl, BitVec.add_assoc, ← BitVec.ofNat_add, hsum,
    load_of_holdsAt hshows h.argvWord (by omega), utemp2ustack_addr]

theorem Laid.argAt_eq (h : Laid argv pg) (hfits : Fits argv) (hshows : Shows mem pg) {i : Nat} (hi : i < argv.length) :
    argAt mem (STACKPAGE + BitVec.ofNat 32 (table argv - 8)) i =
      STACKPAGE + BitVec.ofNat 32 (strings argv + stringSize (argv.take i)) := by
  obtain ⟨h8, hgap, hend⟩ := hfits.table_bounds
  have hi' : i < (pointers (strings argv) argv).length := by rwa [length_pointers]
  have hword := h.pointerWords.flatMap hi'
  rw [length_flatMap_words, List.length_take, length_pointers, Nat.min_eq_left hi.le, getElem_pointers] at hword
  rw [argAt, h.argvPtr_eq hfits hshows, BitVec.add_assoc, ← BitVec.ofNat_add,
    load_of_holdsAt hshows hword (by omega), utemp2ustack_addr]

theorem Laid.start_eq (h : Laid argv pg) (hfits : Fits argv) (hshows : Shows mem pg) (x : Item argv) :
    (x.start mem (STACKPAGE + BitVec.ofNat 32 (table argv - 8))).toNat = STACKPAGE.toNat + x.offset := by
  have hle := hfits.offset_le x
  rw [← toNat_stackpage_add (by omega)]
  congr 1
  obtain ⟨h8, hgap, hend⟩ := hfits.table_bounds
  cases x with
  | argc => rfl
  | argvWord =>
    have hsum : table argv - 8 + 4 = table argv - 4 := by omega
    rw [Item.start, Item.offset, show (4 : Word) = BitVec.ofNat 32 4 from rfl, BitVec.add_assoc, ← BitVec.ofNat_add, hsum]
  | pointer i => rw [Item.start, Item.offset, h.argvPtr_eq hfits hshows, BitVec.add_assoc, ← BitVec.ofNat_add]
  | string i => rw [Item.start, Item.offset, h.argAt_eq hfits hshows i.isLt]

theorem Laid.passes (h : Laid argv pg) (hfits : Fits argv) (hshows : Shows mem pg) :
    Passes argv mem (STACKPAGE + BitVec.ofNat 32 (table argv - 8)) := by
  obtain ⟨h8, hgap, hend⟩ := hfits.table_bounds
  refine ⟨?_, fun i hi => ?_, ?_, fun x => ?_, fun x y hne => ?_⟩
  · rw [load_of_holdsAt hshows h.argcWord (by omega), BitVec.toNat_ofNat]
    omega
  · have hstr := h.stringBytes.flatMap hi
    rw [length_flatMap_stored] at hstr
    rw [h.argAt_eq hfits hshows hi]
    exact strAt_of_holdsAt hshows hstr (hfits.string_le hi)
  · rw [argAt, h.argvPtr_eq hfits hshows, BitVec.add_assoc, ← BitVec.ofNat_add]
    exact load_of_holdsAt hshows h.null (by omega)
  · have hle := hfits.offset_le x
    rw [h.start_eq hfits hshows, USTACKTOP_toNat, show STACKPAGE.toNat = 4005548032 from rfl]
    omega
  · rw [h.start_eq hfits hshows, h.start_eq hfits hshows]
    rcases Nat.lt_trichotomy x.rank y.rank with hlt | heq | hlt
    · have hle := hfits.offset_le_of_rank_lt hlt
      omega
    · exact absurd (Item.rank_injective heq) hne
    · have hle := hfits.offset_le_of_rank_lt hlt
      omega

/-- The test goes the right way unless the address of the table wraps around. -/
theorem initStack_of_not_fits {calls : Calls} (hS : stringSize argv < 2 ^ 22) (hfits : ¬ Fits argv) (hwrap : NoWrap argv) :
    initStack calls argv = some ⟨-E_NO_MEM, none, none⟩ := by
  rw [initStack, if_pos ((argvStore_lt_iff hS).mpr ⟨hwrap, hfits⟩)]

/-- Behind the test nothing is refused when the system calls succeed. -/
theorem ret_of_wrap {calls : Calls} {o : Outcome} (hS : stringSize argv < 2 ^ 22) (hwrap : ¬ NoWrap argv)
    (hcalls : calls.Succeed) (hrun : initStack calls argv = some o) : o.ret = 0 := by
  have hpass : ¬ argvStore argv - 8 < UTEMP := fun hlt => hwrap ((argvStore_lt_iff hS).mp hlt).1
  rw [initStack, if_neg hpass, hcalls.alloc, hcalls.map, hcalls.unmap, if_neg (by decide)] at hrun
  simp only [Option.bind_eq_bind, Option.bind_eq_some_iff] at hrun
  obtain ⟨_, _, _, _, hrun⟩ := hrun
  split at hrun
  · cases hrun
  · simp only [Option.bind_eq_some_iff] at hrun
    obtain ⟨_, _, _, _, hrun⟩ := hrun
    rw [if_neg (by decide), if_neg (by decide)] at hrun
    cases hrun
    rfl

/-- With a wrapped table the page is filled as if everything fitted. -/
theorem Correct.noWrap (hS : stringSize argv < 2 ^ 22) (h : Correct argv) : NoWrap argv := by
  by_contra hwrap
  have hrefuse := h.refuses ⟨0, 0, 0⟩ fun hfits => hwrap hfits.noWrap
  have hret : -E_NO_MEM = (0 : Int) := ret_of_wrap hS hwrap ⟨rfl, rfl, rfl⟩ hrefuse
  exact absurd hret (by decide)

theorem correct_of_noWrap (hS : stringSize argv < 2 ^ 22) (hwrap : NoWrap argv) : Correct argv := by
  refine ⟨fun calls hfits => initStack_of_not_fits hS hfits hwrap, fun calls hcalls hfits => ?_⟩
  obtain ⟨pg, hrun, hlaid⟩ := initStack_of_fits hfits hcalls
  exact ⟨_, pg, hrun, fun mem hshows => utemp2ustack_addr _ ▸ hlaid.passes hfits hshows⟩

/-- A page's worth of arguments is passed on and more is refused, as long as the table of
pointers does not go below address 0. -/
theorem initStack_correct_iff (hS : stringSize argv < 2 ^ 22) : Correct argv ↔ NoWrap argv :=
  ⟨fun h => h.noWrap hS, correct_of_noWrap hS⟩

end

/-- `["a"]`. -/
def oneArg : List CStr := [⟨[97], by decide⟩]

theorem initStack_correct_oneArg : stringSize oneArg < 2 ^ 22 ∧ (Correct oneArg ↔ NoWrap oneArg) :=
  ⟨by decide, initStack_correct_iff (by decide)⟩

/-- Empty strings whose pointers take more than there is below the strings. -/
def manyArgs : List CStr := List.replicate 840000 ⟨[], List.not_mem_nil⟩

theorem stringSize_replicate (n : Nat) (s : CStr) : stringSize (List.replicate n s) = n * s.size := by
  induction n with
  | zero => rw [List.replicate_zero, stringSize_nil, Nat.zero_mul]
  | succ n ih => rw [List.replicate_succ, stringSize_cons, ih, Nat.succ_mul, Nat.add_comm]

theorem stringSize_manyArgs : stringSize manyArgs = 840000 := stringSize_replicate 840000 ⟨[], List.not_mem_nil⟩

theorem not_correct_manyArgs : stringSize manyArgs < 2 ^ 22 ∧ ¬ Correct manyArgs := by
  have hS : stringSize manyArgs < 2 ^ 22 := by
    rw [stringSize_manyArgs]
    decide
  refine ⟨hS, fun h => ?_⟩
  have hwrap := h.noWrap hS
  rw [NoWrap, stringSize_manyArgs, manyArgs, List.length_replicate] at hwrap
  exact absurd hwrap (by decide)

end InitStack

end SisOp.User
