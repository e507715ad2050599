/-
# `SisOp.User.Fifo` — pipes as queues

Up to position `2 ^ 31` the ring holds what was stored and not yet taken
(`Inv`), whatever the interleaving.  The next store has a negative index: a run is
in order if and only if the writer stores at most `2 ^ 31 + 1` bytes
(`fifo_iff`).
-/
import SisOp.User.Devpipe
import SisOp.Lib.Ring

namespace SisOp.User

open SisOp.Lib SisOp.Jos

/-- The last position at which the index is one of `p_buf`. -/
def lastPos : Nat := 2 ^ 31

/-! ## Positions -/

instance : NeZero PIPEBUFSIZ := ⟨by decide⟩

theorem bufIndex_ofNat {n : Nat} (h : n ≤ lastPos) :
    bufIndex (BitVec.ofNat 32 n) = (n % PIPEBUFSIZ : Nat) := by
  have hlast : lastPos = 2147483648 := rfl
  rcases Nat.lt_or_eq_of_le h with hlt | rfl
  · have hnat : (BitVec.ofNat 32 n).toNat = n := by
      rw [BitVec.toNat_ofNat]
      exact Nat.mod_eq_of_lt (by omega)
    have hint : (BitVec.ofNat 32 n).toInt = n := by
      rw [BitVec.toInt_eq_toNat_of_lt (by rw [hnat]; omega), hnat]
    rw [bufIndex, hint]
    rfl
  · decide

theorem slotOf_ofNat {n : Nat} (h : n ≤ lastPos) :
    slotOf (bufIndex (BitVec.ofNat 32 n)) = some (Fin.ofNat PIPEBUFSIZ n) := by
  have hlt : n % PIPEBUFSIZ < PIPEBUFSIZ := Nat.mod_lt _ (by decide)
  have hrange : 0 ≤ ((n % PIPEBUFSIZ : Nat) : Int) ∧ ((n % PIPEBUFSIZ : Nat) : Int) < PIPEBUFSIZ := by
    omega
  rw [bufIndex_ofNat h, slotOf, dif_pos hrange]
  rfl

theorem slotOf_some {index : Int} {j : Fin PIPEBUFSIZ} (h : slotOf index = some j) :
    0 ≤ index ∧ index < PIPEBUFSIZ := by
  unfold slotOf at h
  split at h
  · assumption
  · cases h

theorem bufIndex_overflow : bufIndex (BitVec.ofNat 32 (lastPos + 1)) = -31 := by decide

theorem slotOf_overflow : slotOf (bufIndex (BitVec.ofNat 32 (lastPos + 1))) = none := by decide

/-- Among the positions a run reaches, the comparisons are those of the numbers. -/
theorem isFull_ofNat {r w : Nat} (hr : r ≤ lastPos + 1) (hw : w ≤ lastPos + 1) :
    isFull (BitVec.ofNat 32 r) (BitVec.ofNat 32 w) ↔ r + PIPEBUFSIZ ≤ w := by
  have hlast : lastPos = 2147483648 := rfl
  have hsize : PIPEBUFSIZ = 32 := rfl
  rw [isFull, BitVec.le_def, BitVec.toNat_add, BitVec.toNat_ofNat, BitVec.toNat_ofNat,
    BitVec.toNat_ofNat]
  omega

theorem isEmpty_ofNat {r w : Nat} (hr : r ≤ lastPos + 1) (hw : w ≤ lastPos + 1) :
    isEmpty (BitVec.ofNat 32 r) (BitVec.ofNat 32 w) ↔ r = w := by
  have hlast : lastPos = 2147483648 := rfl
  constructor
  · intro h
    have hnat := congrArg BitVec.toNat h
    rw [BitVec.toNat_ofNat, BitVec.toNat_ofNat] at hnat
    omega
  · rintro rfl
    rfl

/-! ## The invariant -/

/-- A byte that is stored and not yet counted in `p_wpos`. -/
def Writer.ahead : Writer → Nat
  | .bump _ _ => 1
  | .advance _ _ _ => 1
  | _ => 0

/-- A byte that is taken and not yet counted in `p_rpos`. -/
def Reader.ahead : Reader → Nat
  | .bump _ _ => 1
  | .advance _ _ _ => 1
  | _ => 0

/-- What the call in progress has read. -/
def Reader.got : Reader → List Byte
  | .idle => []
  | .test _ got => got
  | .head _ got => got
  | .cond _ got _ => got
  | .empty _ got => got
  | .index _ got => got
  | .load _ got _ => got
  | .bump _ got => got
  | .advance _ got _ => got

/-- What the writer knows, at positions `r` and `w`. -/
def Writer.Knows (r w : Nat) : Writer → Prop
  | .cond _ _ wpos => wpos = BitVec.ofNat 32 w
  | .index _ _ => w < r + PIPEBUFSIZ
  | .store _ _ wpos => wpos = BitVec.ofNat 32 w ∧ w < r + PIPEBUFSIZ
  | .advance _ _ wpos => wpos = BitVec.ofNat 32 w
  | _ => True

/-- What the reader knows. -/
def Reader.Knows (r w : Nat) : Reader → Prop
  | .cond _ _ rpos => rpos = BitVec.ofNat 32 r
  | .empty _ got => got = []
  | .index _ _ => r < w
  | .load _ _ rpos => rpos = BitVec.ofNat 32 r ∧ r < w
  | .advance _ _ rpos => rpos = BitVec.ofNat 32 r
  | _ => True

/-- The reader has counted `r` bytes and the writer `w`. -/
structure Inv (r w : Nat) (s : State) : Prop where
  rpos : s.pipe.pRpos = BitVec.ofNat 32 r
  wpos : s.pipe.pWpos = BitVec.ofNat 32 w
  stored : s.stored.length = w + s.writer.ahead
  taken : s.returned ++ s.reader.got = s.stored.take (r + s.reader.ahead)
  order : r + s.reader.ahead ≤ w
  bound : s.stored.length ≤ lastPos + 1
  holds : Holds s.pipe.pBuf s.stored r
  writer : s.writer.Knows r w
  reader : s.reader.Knows r w

section

variable {r w : Nat} {s s' : State} {a : Label} {tr : List Label}

theorem Inv.init : Inv 0 0 .init where
  rpos := rfl
  wpos := rfl
  stored := rfl
  taken := rfl
  order := le_rfl
  bound := Nat.zero_le _
  holds := .empty _
  writer := trivial
  reader := trivial

theorem Inv.bounds (h : Inv r w s) : r ≤ lastPos + 1 ∧ w ≤ lastPos + 1 := by
  have hstored := h.stored
  have horder := h.order
  have hbound := h.bound
  omega

/-- The writer moves on without a store. -/
theorem Inv.setWriter (h : Inv r w s) {x : Writer} (hahead : x.ahead = s.writer.ahead)
    (hknows : x.Knows r w) : Inv r w { s with writer := x } :=
  { h with stored := by rw [h.stored, ← hahead], writer := hknows }

/-- The reader moves on without a load of a byte. -/
theorem Inv.setReader (h : Inv r w s) {x : Reader} (hahead : x.ahead = s.reader.ahead)
    (hgot : x.got = s.reader.got) (hknows : x.Knows r w) : Inv r w { s with reader := x } :=
  { h with
    taken := by rw [hgot, hahead]; exact h.taken
    order := by rw [hahead]; exact h.order
    reader := hknows }

/-- A call returns what it has read. -/
theorem Inv.ret (h : Inv r w s) (hahead : s.reader.ahead = 0) :
    Inv r w { s with reader := .idle, returned := s.returned ++ s.reader.got } :=
  { h with
    taken := by
      have htaken := h.taken
      rw [hahead] at htaken
      show (s.returned ++ s.reader.got) ++ [] = s.stored.take (r + 0)
      rw [List.append_nil]
      exact htaken
    order := by
      have horder := h.order
      rw [hahead] at horder
      exact horder
    reader := trivial }

/-! ## One step -/

/-- What a step leaves: the invariant, or the first store at a negative index. -/
inductive Stepped (s : State) (a : Label) (s' : State) : Prop
  | kept (r w : Nat) (hinv : Inv r w s') (hstray : s'.stray = s.stray) (hrange : InRange [a])
      (hcount : s'.stored.length = s.stored.length + stores [a])
  | stray (b : Byte) (ha : a = .store (-31) b) (hstray : s'.stray = true)
      (hfull : s.stored.length = lastPos + 1)

theorem inRange_tau : InRange [.tau] := by
  simp [InRange]

theorem inRange_store {index : Int} {b : Byte} (h : 0 ≤ index ∧ index < PIPEBUFSIZ) :
    InRange [.store index b] := by
  simpa [InRange] using h

theorem inRange_load {index : Int} {b : Byte} (h : 0 ≤ index ∧ index < PIPEBUFSIZ) :
    InRange [.load index b] := by
  simpa [InRange] using h

/-- A step that touches no byte. -/
theorem Stepped.quiet (hinv : Inv r w s') (hstray : s'.stray = s.stray)
    (hstored : s'.stored = s.stored) : Stepped s .tau s' :=
  .kept r w hinv hstray inRange_tau (congrArg List.length hstored)

theorem Inv.writerStep (h : Inv r w s) (hstep : WriterStep s a s') : Stepped s a s' := by
  have hknows := h.writer
  have hstored := h.stored
  obtain ⟨hr, hw⟩ := h.bounds
  cases hstep with
  | call vbuf hs => exact .quiet (h.setWriter (by rw [hs]; rfl) trivial) rfl rfl
  | more hs _ => exact .quiet (h.setWriter (by rw [hs]; rfl) trivial) rfl rfl
  | done hs _ => exact .quiet (h.setWriter (by rw [hs]; rfl) trivial) rfl rfl
  | loadW hs => exact .quiet (h.setWriter (by rw [hs]; rfl) h.wpos) rfl rfl
  | noRoom hs _ => exact .quiet (h.setWriter (by rw [hs]; rfl) trivial) rfl rfl
  | room hs hroom =>
      rw [hs] at hknows
      have hlt : w < r + PIPEBUFSIZ := by
        rw [h.rpos, show _ = _ from hknows, isFull_ofNat hr hw] at hroom
        omega
      exact .quiet (h.setWriter (by rw [hs]; rfl) hlt) rfl rfl
  | closed hs => exact .quiet (h.setWriter (by rw [hs]; rfl) trivial) rfl rfl
  | again hs => exact .quiet (h.setWriter (by rw [hs]; rfl) trivial) rfl rfl
  | loadIndex hs =>
      rw [hs] at hknows
      exact .quiet (h.setWriter (by rw [hs]; rfl) ⟨h.wpos, hknows⟩) rfl rfl
  | @store _ _ _ _ b hs hb hj =>
      rw [hs] at hknows hstored
      obtain ⟨rfl, hlt⟩ := hknows
      have hlen : s.stored.length = w := hstored
      have hpos : w ≤ lastPos := by
        by_contra hnot
        obtain rfl : w = lastPos + 1 := by omega
        rw [slotOf_overflow] at hj
        cases hj
      rw [slotOf_ofNat hpos, ← hlen] at hj
      cases hj
      have hpush := h.holds.push (by omega) b
      refine .kept r w ?_ rfl (inRange_store (slotOf_some (slotOf_ofNat hpos)))
        (List.length_append.trans rfl)
      exact
        { rpos := h.rpos
          wpos := h.wpos
          stored := by
            rw [List.length_append, hlen]
            rfl
          taken := by
            have hle := h.order
            show _ = (s.stored ++ [b]).take (r + s.reader.ahead)
            rw [List.take_append_of_le_length (by omega)]
            exact h.taken
          order := h.order
          bound := by
            rw [List.length_append, hlen]
            exact Nat.succ_le_succ hpos
          holds := hpush
          writer := trivial
          reader := h.reader }
  | stray hs hb hj =>
      rw [hs] at hknows hstored
      obtain ⟨rfl, -⟩ := hknows
      have hlen : s.stored.length = w := hstored
      have hpos : w = lastPos + 1 := by
        by_contra hne
        rw [slotOf_ofNat (by omega)] at hj
        cases hj
      subst hpos
      rw [bufIndex_overflow]
      exact .stray _ rfl rfl hlen
  | loadBump hs => exact .quiet (h.setWriter (by rw [hs]; rfl) h.wpos) rfl rfl
  | @advance _ _ wpos hs =>
      rw [hs] at hknows hstored
      have hlen : s.stored.length = w + 1 := hstored
      have hle := h.order
      refine .quiet (r := r) (w := w + 1) ?_ rfl rfl
      exact
        { rpos := h.rpos
          wpos := by
            show wpos + 1 = BitVec.ofNat 32 (w + 1)
            rw [show wpos = _ from hknows, BitVec.ofNat_add]
            rfl
          stored := hlen
          taken := h.taken
          order := hle.trans (Nat.le_succ _)
          bound := h.bound
          holds := h.holds
          writer := trivial
          reader := by
            have hread := h.reader
            cases hx : s.reader with
            | index n got =>
                rw [hx] at hread
                exact Nat.lt_succ_of_lt hread
            | load n got rpos =>
                rw [hx] at hread
                exact ⟨hread.1, Nat.lt_succ_of_lt hread.2⟩
            | _ =>
                rw [hx] at hread
                exact hread }

theorem Inv.readerStep (h : Inv r w s) (hstep : ReaderStep s a s') : Stepped s a s' := by
  have hknows := h.reader
  have htaken := h.taken
  have horder := h.order
  obtain ⟨hr, hw⟩ := h.bounds
  have hcover : w ≤ s.stored.length := by
    rw [h.stored]
    exact Nat.le_add_right _ _
  cases hstep with
  | call n hs =>
      exact .quiet (h.setReader (by rw [hs]; rfl) (by rw [hs]; rfl) trivial) rfl rfl
  | more hs _ =>
      exact .quiet (h.setReader (by rw [hs]; rfl) (by rw [hs]; rfl) trivial) rfl rfl
  | done hs _ =>
      have hret := h.ret (by rw [hs]; rfl)
      rw [hs] at hret
      exact .quiet hret rfl rfl
  | loadR hs => exact .quiet (h.setReader (by rw [hs]; rfl) (by rw [hs]; rfl) h.rpos) rfl rfl
  | short hs _ _ =>
      have hret := h.ret (by rw [hs]; rfl)
      rw [hs] at hret
      exact .quiet hret rfl rfl
  | nothing hs _ hgot =>
      have hnil := List.length_eq_zero_iff.mp (Nat.eq_zero_of_not_pos hgot)
      exact .quiet (h.setReader (by rw [hs]; rfl) (by rw [hs]; rfl) hnil) rfl rfl
  | some hs hne =>
      rw [hs] at hknows
      have hlt : r < w := by
        rw [h.wpos, show _ = _ from hknows, isEmpty_ofNat hr hw] at hne
        omega
      exact .quiet (h.setReader (by rw [hs]; rfl) (by rw [hs]; rfl) hlt) rfl rfl
  | closed hs =>
      rw [hs] at hknows
      have hret := h.ret (by rw [hs]; rfl)
      rw [hs, show _ = [] from hknows] at hret
      exact .quiet (by simpa [Reader.got] using hret) rfl rfl
  | again hs =>
      rw [hs] at hknows
      exact .quiet (h.setReader (by rw [hs]; rfl) (by rw [hs]; rfl) trivial) rfl rfl
  | loadIndex hs =>
      rw [hs] at hknows
      exact .quiet (h.setReader (by rw [hs]; rfl) (by rw [hs]; rfl) ⟨h.rpos, hknows⟩) rfl rfl
  | @load _ got _ _ hs hj =>
      rw [hs] at hknows htaken horder
      obtain ⟨rfl, hlt⟩ := hknows
      have hpos : r ≤ lastPos := by omega
      rw [slotOf_ofNat hpos] at hj
      cases hj
      refine .kept r w ?_ rfl (inRange_load (slotOf_some (slotOf_ofNat hpos))) rfl
      exact
        { h with
          taken := by
            have hprev : s.returned ++ got = s.stored.take r := htaken
            show s.returned ++ (got ++ [_]) = s.stored.take (r + 1)
            rw [h.holds.take_succ (by omega), ← hprev, List.append_assoc]
          order := hlt
          reader := trivial }
  | stray b hs hj =>
      rw [hs] at hknows
      obtain ⟨rfl, hlt⟩ := hknows
      rw [slotOf_ofNat (by omega)] at hj
      cases hj
  | loadBump hs => exact .quiet (h.setReader (by rw [hs]; rfl) (by rw [hs]; rfl) h.rpos) rfl rfl
  | @advance _ _ rpos hs =>
      rw [hs] at hknows htaken horder
      have hlt : r + 1 ≤ w := horder
      refine .quiet (r := r + 1) (w := w) ?_ rfl rfl
      exact
        { rpos := by
            show rpos + 1 = BitVec.ofNat 32 (r + 1)
            rw [show rpos = _ from hknows, BitVec.ofNat_add]
            rfl
          wpos := h.wpos
          stored := h.stored
          taken := htaken
          order := hlt
          bound := h.bound
          holds := h.holds.pop (by omega)
          writer := by
            have hwrite := h.writer
            cases hx : s.writer with
            | index vbuf i =>
                rw [hx] at hwrite
                exact hwrite.trans_le (by omega)
            | store vbuf i wpos =>
                rw [hx] at hwrite
                exact ⟨hwrite.1, hwrite.2.trans_le (by omega)⟩
            | _ =>
                rw [hx] at hwrite
                exact hwrite
          reader := trivial }

theorem Inv.step (h : Inv r w s) (hstep : Step s a s') : Stepped s a s' :=
  hstep.2.elim h.writerStep h.readerStep

/-! ## Runs -/

theorem stores_cons (a : Label) (tr : List Label) : stores (a :: tr) = stores [a] + stores tr := by
  rw [← List.singleton_append, stores, List.countP_append]
  rfl

theorem inRange_cons : InRange (a :: tr) ↔ InRange [a] ∧ InRange tr := by
  simp only [InRange, List.mem_cons, List.not_mem_nil, or_false]
  constructor
  · intro h
    exact ⟨fun i b hi => h i b (hi.imp Or.inl Or.inl), fun i b hi => h i b (hi.imp Or.inr Or.inr)⟩
  · rintro ⟨h1, h2⟩ i b ((hi | hi) | (hi | hi))
    · exact h1 i b (Or.inl hi)
    · exact h2 i b (Or.inl hi)
    · exact h1 i b (Or.inr hi)
    · exact h2 i b (Or.inr hi)

/-- A run keeps the invariant until the writer has stored `lastPos + 1` bytes; one more store
ends it. -/
theorem Inv.run (h : Inv r w s) (hs : s.stray = false) (hrun : Run Step s tr s') :
    (InRange tr ∧ s'.stored.length = s.stored.length + stores tr ∧ ∃ r' w', Inv r' w' s') ∨
      (¬ InRange tr ∧ s.stored.length + stores tr = lastPos + 2) := by
  induction hrun generalizing r w with
  | nil s => exact Or.inl ⟨fun _ _ hmem => by simp at hmem, rfl, r, w, h⟩
  | @cons s s1 s' a tr hstep hrest ih =>
      rw [stores_cons, inRange_cons]
      cases h.step hstep with
      | kept r1 w1 hinv hstray hrange hcount =>
          rcases ih hinv (hstray.trans hs) with ⟨hr, hlen, hex⟩ | ⟨hr, hlen⟩
          · exact Or.inl ⟨⟨hrange, hr⟩, by rw [hlen, hcount, Nat.add_assoc], hex⟩
          · exact Or.inr ⟨fun hand => hr hand.2, by rw [← hlen, hcount, Nat.add_assoc]⟩
      | stray b ha hstray hfull =>
          subst ha
          cases hrest with
          | nil =>
              refine Or.inr ⟨fun hand => ?_, ?_⟩
              · have hneg := (hand.1 (-31) b (Or.inl (List.mem_singleton_self _))).1
                omega
              · rw [hfull]
                rfl
          | cons hnext _ =>
              have hfalse := hnext.1
              rw [hstray] at hfalse
              cases hfalse

/-! ## One byte at a time -/

/-- Both ends idle at position `n`. -/
def level (n : Nat) (buf : Fin PIPEBUFSIZ → Byte) (sent : List Byte) : State :=
  ⟨⟨BitVec.ofNat 32 n, BitVec.ofNat 32 n, buf⟩, .idle, .idle, sent, sent, false⟩

/-- A call of `devpipe_write` with one byte, up to its store. -/
theorem write_one {n : Nat} (hn : n ≤ lastPos + 1) (buf : Fin PIPEBUFSIZ → Byte) (sent : List Byte)
    (b : Byte) : Run Step (level n buf sent) (List.replicate 5 .tau)
      { level n buf sent with writer := .store [b] 0 (BitVec.ofNat 32 n) } := by
  have hroom : ¬ isFull (BitVec.ofNat 32 n) (BitVec.ofNat 32 n) := by
    rw [isFull_ofNat hn hn]
    exact Nat.not_le.mpr (Nat.lt_add_of_pos_right (by decide))
  exact .cons ⟨rfl, .inl (.call [b] rfl)⟩ (.cons ⟨rfl, .inl (.more rfl Nat.one_pos)⟩
    (.cons ⟨rfl, .inl (.loadW rfl)⟩ (.cons ⟨rfl, .inl (.room rfl hroom)⟩
    (.single ⟨rfl, .inl (.loadIndex rfl)⟩))))

/-- One byte is written and read. -/
theorem round {n : Nat} (hn : n ≤ lastPos) (buf : Fin PIPEBUFSIZ → Byte) (sent : List Byte)
    (b : Byte) : ∃ tr, stores tr = 1 ∧ Run Step (level n buf sent) tr
      (level (n + 1) (Function.update buf (Fin.ofNat PIPEBUFSIZ n) b) (sent ++ [b])) := by
  set buf' := Function.update buf (Fin.ofNat PIPEBUFSIZ n) b with hbuf'
  have hslot := slotOf_ofNat hn
  have hnext : BitVec.ofNat 32 n + 1 = BitVec.ofNat 32 (n + 1) := BitVec.ofNat_add .. |>.symm
  have hsome : ¬ isEmpty (BitVec.ofNat 32 n) (BitVec.ofNat 32 n + 1) := by
    rw [hnext, isEmpty_ofNat (by omega) (by omega)]
    omega
  have hself : buf' (Fin.ofNat PIPEBUFSIZ n) = b := Function.update_self ..
  have hwrite : Run Step { level n buf sent with writer := .store [b] 0 (BitVec.ofNat 32 n) }
      (.store (bufIndex (BitVec.ofNat 32 n)) b :: List.replicate 3 .tau)
      ⟨⟨BitVec.ofNat 32 n, BitVec.ofNat 32 n + 1, buf'⟩, .idle, .idle, sent ++ [b], sent, false⟩ :=
    .cons ⟨rfl, .inl (.store rfl rfl hslot)⟩ (.cons ⟨rfl, .inl (.loadBump rfl)⟩
      (.cons ⟨rfl, .inl (.advance rfl)⟩ (.single ⟨rfl, .inl (.done rfl (lt_irrefl 1))⟩)))
  have hread : Run Step
      ⟨⟨BitVec.ofNat 32 n, BitVec.ofNat 32 n + 1, buf'⟩, .idle, .idle, sent ++ [b], sent, false⟩
      (List.replicate 5 .tau ++ .load (bufIndex (BitVec.ofNat 32 n)) (buf' (Fin.ofNat PIPEBUFSIZ n))
        :: List.replicate 3 .tau)
      ⟨⟨BitVec.ofNat 32 n + 1, BitVec.ofNat 32 n + 1, buf'⟩, .idle, .idle, sent ++ [b],
        sent ++ [buf' (Fin.ofNat PIPEBUFSIZ n)], false⟩ :=
    .cons ⟨rfl, .inr (.call 1 rfl)⟩ (.cons ⟨rfl, .inr (.more rfl Nat.one_pos)⟩
      (.cons ⟨rfl, .inr (.loadR rfl)⟩ (.cons ⟨rfl, .inr (.some rfl hsome)⟩
      (.cons ⟨rfl, .inr (.loadIndex rfl)⟩ (.cons ⟨rfl, .inr (.load rfl hslot)⟩
      (.cons ⟨rfl, .inr (.loadBump rfl)⟩ (.cons ⟨rfl, .inr (.advance rfl)⟩
      (.single ⟨rfl, .inr (.done rfl (by simp))⟩))))))))
  rw [hself, hnext] at hread
  rw [hnext] at hwrite
  exact ⟨_, rfl, (write_one (by omega) buf sent b).append
    (hwrite.append hread)⟩

/-- Any number of bytes up to the last position. -/
theorem rounds (n : Nat) (hn : n ≤ lastPos + 1) (bs : Nat → Byte) : ∃ tr buf sent, stores tr = n ∧
    sent.length = n ∧ Run Step .init tr (level n buf sent) := by
  induction n with
  | zero => exact ⟨[], _, [], rfl, rfl, .nil _⟩
  | succ n ih =>
      obtain ⟨tr, buf, sent, hcount, hlen, hrun⟩ := ih (by omega)
      obtain ⟨tr', hone, hrun'⟩ := round (by omega : n ≤ lastPos) buf sent (bs n)
      refine ⟨tr ++ tr', _, _, ?_, ?_, hrun.append hrun'⟩
      · rw [stores, List.countP_append]
        exact congrArg₂ (· + ·) hcount hone
      · rw [List.length_append, hlen]
        rfl

/-! ## Pipes as queues -/

/-- In a run of any interleaving every index is one of `p_buf` and what was returned is a prefix of
what was stored, if and only if the writer stores at most `2 ^ 31 + 1` bytes. -/
theorem fifo_iff (hrun : Run Step .init tr s) :
    (InRange tr ∧ s.returned <+: s.stored) ↔ stores tr ≤ 2 ^ 31 + 1 := by
  have hlast : lastPos = 2 ^ 31 := rfl
  have hzero : State.init.stored.length = 0 := rfl
  rcases Inv.init.run rfl hrun with ⟨hrange, hlen, r, w, hinv⟩ | ⟨hrange, hlen⟩
  · have hbound := hinv.bound
    have hprefix : s.returned <+: s.stored :=
      (List.prefix_append _ _).trans (hinv.taken ▸ List.take_prefix _ _)
    exact ⟨fun _ => by omega, fun _ => ⟨hrange, hprefix⟩⟩
  · exact ⟨fun h => absurd h.1 hrange, fun h => by omega⟩

/-- A byte through the pipe. -/
theorem fifo_iff_one : ∃ tr s, Run Step .init tr s ∧ stores tr = 1 ∧ s.stored.length = 1 ∧
    InRange tr ∧ s.returned <+: s.stored := by
  obtain ⟨tr, buf, sent, hcount, hlen, hrun⟩ := rounds 1 (by decide) fun _ => 0x2A
  exact ⟨tr, _, hrun, hcount, hlen, (fifo_iff hrun).mpr (by rw [hcount]; decide)⟩

/-- After `2 ^ 31 + 1` bytes `p_wpos` is negative, and the next store is 31 bytes before `p_buf`. -/
theorem store_before_buf : ∃ tr s b, Run Step .init tr s ∧ .store (-31) b ∈ tr ∧ ¬ InRange tr := by
  obtain ⟨tr, buf, sent, -, -, hrun⟩ := rounds (lastPos + 1) le_rfl fun _ => 0
  have hlast : Run Step
      { level (lastPos + 1) buf sent with writer := .store [0] 0 (BitVec.ofNat 32 (lastPos + 1)) }
      [.store (bufIndex (BitVec.ofNat 32 (lastPos + 1))) 0] _ :=
    .single ⟨rfl, .inl (.stray rfl rfl slotOf_overflow)⟩
  rw [bufIndex_overflow] at hlast
  have hrun' := (hrun.append (write_one le_rfl buf sent 0)).append hlast
  set tr' := (tr ++ List.replicate 5 .tau) ++ [.store (-31) 0]
  have hmem : .store (-31) 0 ∈ tr' := List.mem_append_right _ (List.mem_singleton_self _)
  refine ⟨tr', _, 0, hrun', hmem, fun hrange => ?_⟩
  have hneg := (hrange (-31) 0 (Or.inl hmem)).1
  omega

end

end SisOp.User
