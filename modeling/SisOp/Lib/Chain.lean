/-
# `SisOp.Lib.Chain` — null-terminated singly linked lists

A linked list in C is a head pointer and a link field; nothing in its type says
that following the links ever reaches the null pointer.  `Chain next h l` says
that it does, and that the cells met on the way are exactly those of `l`.

The list `l` is a function of the head and the links (`Chain.unique`), and a
chain that ends has no cell twice (`Chain.nodup`): a cycle never reaches null.
The three mutations a free list knows (push, pop, a write to a cell outside the
list) are the lemmas `Chain.push`, `Chain.tail` and `Chain.congr`.
-/
import Mathlib.Logic.Function.Basic
import Mathlib.Data.List.Nodup

namespace SisOp.Lib

variable {α : Type*}

/-- Following `next` from `h` meets the cells of `l` in order, then null. -/
inductive Chain (next : α → Option α) : Option α → List α → Prop
  | nil : Chain next none []
  | cons {a : α} {l : List α} : Chain next (next a) l → Chain next (some a) (a :: l)

namespace Chain

variable {next next' : α → Option α}

/-- A chain whose head is not null has a first cell. -/
theorem of_some {a : α} {l : List α} (hc : Chain next (some a) l) :
    ∃ t, l = a :: t ∧ Chain next (next a) t := by
  cases hc with
  | cons ht => exact ⟨_, rfl, ht⟩

theorem of_none {l : List α} (hc : Chain next none l) : l = [] := by
  cases hc
  rfl

/-- What remains after the first cell. -/
theorem tail {h : Option α} {a : α} {l : List α} (hc : Chain next h (a :: l)) :
    Chain next (next a) l := by
  cases hc with
  | cons ht => exact ht

theorem head_eq {h : Option α} {l : List α} (hc : Chain next h l) : h = l.head? := by
  cases hc <;> rfl

/-- The cells of a chain are determined by its head and the links. -/
theorem unique {h : Option α} {l l' : List α} (hc : Chain next h l) (hc' : Chain next h l') :
    l = l' := by
  induction hc generalizing l' with
  | nil => exact (of_none hc').symm
  | cons _ ih =>
      obtain ⟨t, rfl, ht⟩ := hc'.of_some
      rw [ih ht]

/-- A chain entered at one of its cells. -/
theorem at_cell {a : α} {t : List α} : ∀ {s : List α} {h : Option α},
    Chain next h (s ++ a :: t) → Chain next (some a) (a :: t)
  | [], _, hc => by
      cases hc with
      | cons ht => exact .cons ht
  | _ :: _, _, hc => at_cell hc.tail

/-- No cell occurs twice: the links after its two occurrences would be equal. -/
theorem nodup {h : Option α} {l : List α} (hc : Chain next h l) : l.Nodup := by
  induction hc with
  | nil => exact List.nodup_nil
  | @cons a l ht ih =>
      refine List.nodup_cons.mpr ⟨fun ha => ?_, ih⟩
      obtain ⟨s, t, rfl⟩ := List.append_of_mem ha
      have heq := unique (.cons ht) (at_cell ht)
      have hlen := congrArg List.length heq
      simp only [List.length_cons, List.length_append] at hlen
      omega

/-- Links read outside the list do not matter. -/
theorem congr {h : Option α} {l : List α} (heq : ∀ a ∈ l, next' a = next a)
    (hc : Chain next h l) : Chain next' h l := by
  induction hc with
  | nil => exact .nil
  | @cons a l _ ih =>
      refine .cons ?_
      rw [heq a List.mem_cons_self]
      exact ih fun b hb => heq b (List.mem_cons_of_mem _ hb)

variable [DecidableEq α]

/-- A write to a cell outside the list. -/
theorem update {h : Option α} {l : List α} {a : α} {x : Option α} (ha : a ∉ l)
    (hc : Chain next h l) : Chain (Function.update next a x) h l := by
  refine congr (fun b hb => ?_) hc
  have hba : b ≠ a := fun heq => ha (heq ▸ hb)
  exact Function.update_of_ne hba x next

/-- Linking a new cell in front. -/
theorem push {h : Option α} {l : List α} {a : α} (ha : a ∉ l) (hc : Chain next h l) :
    Chain (Function.update next a h) (some a) (a :: l) := by
  refine .cons ?_
  rw [Function.update_self]
  exact update ha hc

end Chain

/-! ## Lists built at their end -/

/-- The cells of `l`, latest first: each is linked to by the one before it, and what the latest
is linked to does not matter. -/
inductive Trail (next : α → Option α) : List α → Prop
  | nil : Trail next []
  | single (a : α) : Trail next [a]
  | snoc {a b : α} {l : List α} : next b = some a → Trail next (b :: l) → Trail next (a :: b :: l)

namespace Trail

variable {next next' : α → Option α} {a : α} {l l' : List α}

/-- The link of the latest cell does not matter. -/
theorem congr (h : Trail next l) (heq : ∀ b ∈ l.tail, next' b = next b) : Trail next' l := by
  induction h with
  | nil => exact .nil
  | single a => exact .single a
  | @snoc a b l hab _ ih =>
      refine .snoc ?_ (ih fun c hc => heq c (List.mem_cons_of_mem b hc))
      rw [heq b List.mem_cons_self]
      exact hab

/-- One more cell, to which the latest is linked. -/
theorem push (h : Trail next l) (hlast : ∀ b ∈ l.head?, next b = some a) : Trail next (a :: l) := by
  cases h with
  | nil => exact .single a
  | single b => exact .snoc (hlast b rfl) (.single b)
  | snoc hab ht => exact .snoc (hlast _ rfl) (.snoc hab ht)

/-- A trail whose latest cell is linked to a chain continues it. -/
theorem chain (h : Trail next l) : ∀ {l' : List α} {h' : Option α}, Chain next h' l' →
    (∀ b ∈ l.head?, next b = h') →
    Chain next (if l = [] then h' else l.getLast?) (l.reverse ++ l') := by
  induction h with
  | nil => exact fun hc _ => hc
  | single a =>
      intro l' h' hc hlast
      have hcell : Chain next (some a) (a :: l') := by
        refine .cons ?_
        rw [hlast a rfl]
        exact hc
      simpa using hcell
  | @snoc a b l hab _ ih =>
      intro l' h' hc hlast
      have hcell : Chain next (some a) (a :: l') := by
        refine .cons ?_
        rw [hlast a rfl]
        exact hc
      have hrest := ih hcell fun c hc => by
        cases hc
        exact hab
      simpa using hrest

/-- The first cell of a chain is dealt out to the trail `mine`, whose latest cell is linked to
it. -/
theorem deal [DecidableEq α] {mine other rest : List α} (hm : Trail next mine)
    (ho : Trail next other) (hc : Chain next (some a) (a :: rest))
    (hnodup : (mine ++ other ++ a :: rest).Nodup)
    (hnext : next' = mine.head?.elim next fun b => Function.update next b (some a)) :
    Trail next' (a :: mine) ∧ Trail next' other ∧ Chain next' rest.head? rest ∧
      next' a = rest.head? := by
  have hrest : Chain next (next a) rest := hc.tail
  have hlink : next a = rest.head? := hrest.head_eq
  rw [hlink] at hrest
  cases mine with
  | nil =>
      obtain rfl : next' = next := hnext
      exact ⟨.single a, ho, hrest, hlink⟩
  | cons b mine =>
      obtain rfl : next' = Function.update next b (some a) := hnext
      simp only [List.cons_append, List.nodup_cons, List.mem_append, List.mem_cons, not_or] at hnodup
      obtain ⟨⟨⟨hbm, hbo⟩, hba, hbr⟩, -⟩ := hnodup
      have hne : ∀ c, c ≠ b → Function.update next b (some a) c = next c := fun c hcb =>
        Function.update_of_ne hcb _ _
      refine ⟨.snoc (Function.update_self ..) (hm.congr fun c hc => hne c ?_), ho.congr fun c hc =>
        hne c ?_, hrest.update hbr, (hne a fun heq => hba heq.symm).trans hlink⟩
      · exact fun heq => hbm (heq ▸ hc)
      · exact fun heq => hbo (heq ▸ List.mem_of_mem_tail hc)

end Trail

/-- The links from `h` run into null after finitely many cells. -/
def Acyclic (next : α → Option α) (h : Option α) : Prop := ∃ l, Chain next h l

end SisOp.Lib
