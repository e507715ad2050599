/-
# `SisOp.Lib.Blocks` — a stream cut into blocks by a buffer

A buffer of `cap` items takes a stream item by item and is emptied each time it is full
(`push`).  What has been emptied is full blocks, and together with what waits it is the
stream so far (`Filled`).  `accepted` is what a receiver that may take less than a whole
block gets, when nothing is sent after the first block it does not take whole.
-/
import Mathlib.Data.List.Basic

namespace SisOp.Lib

variable {β : Type*}

/-- The blocks emptied so far, and what waits in the buffer. -/
structure Blocks (β : Type*) where
  full : List (List β)
  pending : List β

/-- One item; the buffer is emptied when it holds `cap` of them. -/
def Blocks.push (cap : Nat) (b : Blocks β) (x : β) : Blocks β :=
  if b.pending.length + 1 = cap then ⟨b.full ++ [b.pending ++ [x]], []⟩
  else ⟨b.full, b.pending ++ [x]⟩

/-- A stream through an empty buffer. -/
def blocks (cap : Nat) (xs : List β) : Blocks β := xs.foldl (Blocks.push cap) ⟨[], []⟩

/-- The buffer has taken `xs`, in blocks of `cap`. -/
structure Filled (cap : Nat) (b : Blocks β) (xs : List β) : Prop where
  stream : b.full.flatten ++ b.pending = xs
  full : ∀ l ∈ b.full, l.length = cap
  room : b.pending.length < cap

theorem Filled.push {cap : Nat} {b : Blocks β} {xs : List β} (h : Filled cap b xs) (x : β) :
    Filled cap (b.push cap x) (xs ++ [x]) := by
  unfold Blocks.push
  split
  case isTrue hfull =>
    refine ⟨?_, ?_, ?_⟩
    · rw [← h.stream]
      simp only [List.flatten_append, List.flatten_cons, List.flatten_nil, List.append_nil,
        List.append_assoc]
    · intro l hl
      rcases List.mem_append.mp hl with hl | hl
      · exact h.full l hl
      · rw [List.mem_singleton.mp hl, List.length_append, List.length_singleton, hfull]
    · exact Nat.lt_of_le_of_lt (Nat.zero_le _) h.room
  case isFalse hroom =>
    refine ⟨?_, h.full, ?_⟩
    · rw [← h.stream, List.append_assoc]
    · have := h.room
      rw [List.length_append, List.length_singleton]
      omega

theorem Filled.foldl {cap : Nat} {b : Blocks β} {xs : List β} (h : Filled cap b xs) (ys : List β) :
    Filled cap (ys.foldl (Blocks.push cap) b) (xs ++ ys) := by
  induction ys generalizing b xs with
  | nil => rwa [List.append_nil]
  | cons y ys ih =>
    rw [List.foldl_cons, ← List.singleton_append, ← List.append_assoc]
    exact ih (h.push y)

theorem filled_blocks {cap : Nat} (hcap : 0 < cap) (xs : List β) : Filled cap (blocks cap xs) xs :=
  (⟨rfl, by simp, hcap⟩ : Filled cap ⟨[], []⟩ []).foldl xs

/-- The blocks of a stream, with what is left in the buffer unless that is nothing. -/
def Blocks.all (b : Blocks β) : List (List β) :=
  if b.pending = [] then b.full else b.full ++ [b.pending]

theorem Filled.flatten_all {cap : Nat} {b : Blocks β} {xs : List β} (h : Filled cap b xs) :
    b.all.flatten = xs := by
  rw [Blocks.all]
  split
  case isTrue hnil => rw [← h.stream, hnil, List.append_nil]
  case isFalse => rw [List.flatten_append, List.flatten_singleton, h.stream]

theorem Filled.ne_nil_of_mem_all {cap : Nat} {b : Blocks β} {xs l : List β} (h : Filled cap b xs)
    (hl : l ∈ b.all) : l ≠ [] ∧ l.length ≤ cap := by
  have hroom := h.room
  rw [Blocks.all] at hl
  have hfull : ∀ l ∈ b.full, l ≠ [] ∧ l.length ≤ cap := fun l hl => by
    have hlen := h.full l hl
    exact ⟨List.ne_nil_of_length_pos (by omega), Nat.le_of_eq hlen⟩
  split at hl
  case isTrue => exact hfull l hl
  case isFalse hne =>
    rcases List.mem_append.mp hl with hl | hl
    · exact hfull l hl
    · rw [List.mem_singleton.mp hl]
      exact ⟨hne, Nat.le_of_lt hroom⟩

/-- The first block is what the buffer held first. -/
theorem Filled.head_all {cap : Nat} {b : Blocks β} {xs l : List β} {ls : List (List β)}
    (h : Filled cap b xs) (hl : b.all = l :: ls) : l = xs.take cap := by
  obtain ⟨full, pending⟩ := b
  cases full with
  | nil =>
    have hxs : pending = xs := h.stream
    have hroom : pending.length < cap := h.room
    rw [Blocks.all] at hl
    split at hl
    case isTrue => cases hl
    case isFalse =>
      rw [← hxs, List.take_of_length_le (Nat.le_of_lt hroom)]
      exact (List.cons.inj hl).1.symm
  | cons f fs =>
    have hf : f.length = cap := h.full f List.mem_cons_self
    have hlf : l = f := by
      rw [Blocks.all] at hl
      split at hl <;> exact (List.cons.inj hl).1.symm
    have hstream : f ++ (fs.flatten ++ pending) = xs := by
      rw [← h.stream, List.flatten_cons, List.append_assoc]
    rw [hlf, ← hstream, ← hf, List.take_left]

/-! ## A receiver that may take less -/

/-- The blocks sent and how many items of each were taken; a negative number is a refusal.
Nothing is sent after a block that was not taken whole. -/
def sends (answer : Nat → List β → Int) : Nat → List (List β) → List (List β × Int)
  | _, [] => []
  | k, l :: ls =>
    (l, answer k l) :: if answer k l = l.length then sends answer (k + 1) ls else []

/-- The items that were taken. -/
def accepted (log : List (List β × Int)) : List β := log.flatMap fun e => e.1.take e.2.toNat

section

variable {answer : Nat → List β → Int}

/-- The items taken are the first ones of the stream. -/
theorem accepted_initial (k : Nat) (ls : List (List β)) :
    accepted (sends answer k ls) <+: ls.flatten := by
  induction ls generalizing k with
  | nil => exact List.nil_prefix
  | cons l ls ih =>
    rw [sends, accepted, List.flatMap_cons, List.flatten_cons]
    split
    case isTrue hall =>
      simp only [hall, Int.toNat_natCast, List.take_length]
      exact (List.prefix_append_right_inj l).mpr (ih (k + 1))
    case isFalse =>
      rw [List.flatMap_nil, List.append_nil]
      exact (List.take_prefix _ _).trans (List.prefix_append _ _)

/-- Where every block is taken whole, the stream is. -/
theorem accepted_all {k : Nat} {ls : List (List β)}
    (h : ∀ e ∈ sends answer k ls, e.2 = e.1.length) :
    accepted (sends answer k ls) = ls.flatten ∧ (sends answer k ls).map Prod.fst = ls := by
  induction ls generalizing k with
  | nil => exact ⟨rfl, rfl⟩
  | cons l ls ih =>
    rw [sends] at h ⊢
    have hall : answer k l = l.length := h _ List.mem_cons_self
    rw [if_pos hall] at h ⊢
    obtain ⟨hacc, hmap⟩ := ih fun e he => h e (List.mem_cons_of_mem _ he)
    refine ⟨?_, by rw [List.map_cons, hmap]⟩
    rw [accepted, List.flatMap_cons, List.flatten_cons, ← hacc, accepted]
    simp only [hall, Int.toNat_natCast, List.take_length]

end

end SisOp.Lib
