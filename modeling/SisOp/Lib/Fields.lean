/-
# `SisOp.Lib.Fields` — the fields of a list

The fields are the maximal runs of a list without separators.  A scanner takes the first
piece and goes on behind the separator that ends it (`fields_eq`); it has the fields when
it throws the empty pieces away.
-/
import Mathlib.Data.List.Basic
import Mathlib.Data.List.TakeWhile

namespace SisOp.Lib

variable {α : Type*} (sep : α → Bool)

/-- The nonempty pieces of a list between its separators. -/
def fields (l : List α) : List (List α) := (l.splitOnP sep).filter (!·.isEmpty)

/-- The list up to its first separator. -/
def firstPiece (l : List α) : List α := l.takeWhile (!sep ·)

/-- The list behind its first separator. -/
def afterPiece (l : List α) : List α := (l.drop (firstPiece sep l).length).drop 1

variable {sep} {a : α} {l m : List α}

@[simp] theorem fields_nil : fields sep [] = [] := rfl

theorem fields_cons_sep (h : sep a = true) : fields sep (a :: l) = fields sep l := by
  simp [fields, List.splitOnP_cons_eq_if_modifyHead, h]

theorem fields_append_cons (h : sep a = true) : fields sep (l ++ a :: m) = fields sep l ++ fields sep m := by
  rw [fields, List.splitOnP_append_cons l m h, List.filter_append]
  rfl

theorem fields_of_not_sep (h : ∀ x ∈ l, sep x = false) : fields sep l = [l].filter (!·.isEmpty) := by
  rw [fields, List.splitOnP_eq_singleton h]

theorem fields_dropWhile : fields sep (l.dropWhile sep) = fields sep l := by
  induction l with
  | nil => rfl
  | cons a l ih =>
    cases h : sep a with
    | true => rw [List.dropWhile_cons_of_pos h, ih, fields_cons_sep h]
    | false => rw [List.dropWhile_cons_of_neg (by simp [h])]

theorem not_sep_of_mem_firstPiece (h : a ∈ firstPiece sep l) : sep a = false := by
  simpa using List.mem_takeWhile_imp h

/-- The first piece ends the list, or a separator stands behind it. -/
theorem piece_cases (sep : α → Bool) (l : List α) : l = firstPiece sep l ∧ afterPiece sep l = [] ∨
    ∃ a, sep a = true ∧ l = firstPiece sep l ++ a :: afterPiece sep l := by
  induction l with
  | nil => exact .inl ⟨rfl, rfl⟩
  | cons b l ih =>
    cases hb : sep b with
    | true => exact .inr ⟨b, hb, by simp [firstPiece, afterPiece, hb]⟩
    | false =>
      have hfirst : firstPiece sep (b :: l) = b :: firstPiece sep l := by simp [firstPiece, hb]
      have hafter : afterPiece sep (b :: l) = afterPiece sep l := by simp [afterPiece, hfirst]
      rw [hfirst, hafter]
      rcases ih with ⟨hl, hnil⟩ | ⟨a, ha, hl⟩
      · exact .inl ⟨congrArg (b :: ·) hl, hnil⟩
      · exact .inr ⟨a, ha, congrArg (b :: ·) hl⟩

/-- One step of a scanner. -/
theorem fields_eq : fields sep l = [firstPiece sep l].filter (!·.isEmpty) ++ fields sep (afterPiece sep l) := by
  have hnot : ∀ x ∈ firstPiece sep l, sep x = false := fun x hx => not_sep_of_mem_firstPiece hx
  rcases piece_cases sep l with ⟨hl, hnil⟩ | ⟨a, ha, hl⟩
  · rw [hnil, fields_nil, List.append_nil]
    conv => lhs; rw [fields, hl, List.splitOnP_eq_singleton hnot]
  · conv => lhs; rw [fields, hl, List.splitOnP_append_cons_of_forall_mem hnot a ha]
    rw [fields, ← List.filter_append, List.singleton_append]

theorem firstPiece_append_dropWhile (sep : α → Bool) (l : List α) :
    firstPiece sep l ++ l.dropWhile (!sep ·) = l := List.takeWhile_append_dropWhile

/-- A scanner may stop at the separator that ends the piece. -/
theorem fields_dropWhile_not (sep : α → Bool) (l : List α) :
    fields sep (l.dropWhile (!sep ·)) = fields sep (afterPiece sep l) := by
  have hdrop : l.drop (firstPiece sep l).length = l.dropWhile (!sep ·) := by
    have hleft : (firstPiece sep l ++ l.dropWhile (!sep ·)).drop (firstPiece sep l).length = l.dropWhile (!sep ·) :=
      List.drop_left
    rwa [firstPiece_append_dropWhile] at hleft
  have hhead := List.head?_dropWhile_not (!sep ·) l
  rw [afterPiece, hdrop]
  cases hl : l.dropWhile (!sep ·) with
  | nil => rfl
  | cons a rest =>
    rw [hl, List.head?_cons] at hhead
    rw [List.drop_one, List.tail_cons, fields_cons_sep (by simpa using hhead)]

/-- The first field of a list that starts with one. -/
theorem fields_cons (ha : sep a = false) : fields sep (a :: l) =
    firstPiece sep (a :: l) :: fields sep ((a :: l).dropWhile (!sep ·)) := by
  have hfirst : firstPiece sep (a :: l) = a :: firstPiece sep l := by simp [firstPiece, ha]
  rw [fields_eq, fields_dropWhile_not, hfirst]
  rfl

theorem length_afterPiece_lt (sep : α → Bool) (h : l ≠ []) : (afterPiece sep l).length < l.length := by
  have hpos := List.length_pos_of_ne_nil h
  simp only [afterPiece, List.length_drop]
  omega

/-- The pieces that a scanner takes from a list: it takes none at its end. -/
def pieces (sep : α → Bool) (l : List α) : List (List α) :=
  if h : l = [] then []
  else
    have := length_afterPiece_lt sep h
    firstPiece sep l :: pieces sep (afterPiece sep l)
termination_by l.length

@[simp] theorem pieces_nil : pieces sep [] = [] := by
  rw [pieces]
  rfl

theorem pieces_of_ne_nil (h : l ≠ []) :
    pieces sep l = firstPiece sep l :: pieces sep (afterPiece sep l) := by
  rw [pieces, dif_neg h]

/-- In front of a piece there is nothing, or a separator. -/
theorem mem_pieces {t : List α} (h : t ∈ pieces sep l) :
    ∃ a b, l = a ++ t ++ b ∧ ∀ x ∈ a.getLast?, sep x = true := by
  induction hn : l.length using Nat.strong_induction_on generalizing l with
  | _ n ih =>
    by_cases hnil : l = []
    · rw [hnil, pieces_nil] at h
      exact absurd h List.not_mem_nil
    rw [pieces_of_ne_nil hnil] at h
    rcases List.mem_cons.mp h with rfl | h
    · refine ⟨[], l.dropWhile (!sep ·), ?_, by simp⟩
      rw [List.nil_append, firstPiece_append_dropWhile]
    · rcases piece_cases sep l with ⟨-, hafter⟩ | ⟨s, hs, hl⟩
      · rw [hafter, pieces_nil] at h
        exact absurd h List.not_mem_nil
      · obtain ⟨a, b, hab, hlast⟩ := ih _ (hn ▸ length_afterPiece_lt sep hnil) h rfl
        refine ⟨firstPiece sep l ++ s :: a, b, ?_, fun x hx => ?_⟩
        · conv => lhs; rw [hl, hab]
          simp
        · rw [List.getLast?_append, List.getLast?_cons] at hx
          cases hlast' : a.getLast? with
          | none =>
            obtain rfl : s = x := by simpa [hlast'] using hx
            exact hs
          | some y =>
            obtain rfl : y = x := by simpa [hlast'] using hx
            exact hlast y (by rw [hlast']; rfl)

/-- The fields are the nonempty pieces of the scanner. -/
theorem fields_eq_pieces (l : List α) : fields sep l = (pieces sep l).filter (!·.isEmpty) := by
  induction hn : l.length using Nat.strong_induction_on generalizing l with
  | _ n ih =>
    by_cases h : l = []
    · rw [h, fields_nil, pieces_nil, List.filter_nil]
    · rw [fields_eq, pieces_of_ne_nil h, ih _ (hn ▸ length_afterPiece_lt sep h) _ rfl, ← List.filter_append,
        List.singleton_append]

/-- No two separators follow each other. -/
def Spaced (sep : α → Bool) (l : List α) : Prop := l.IsChain fun a b => sep a = true → sep b = false

instance (sep : α → Bool) : DecidablePred (Spaced sep) := fun l =>
  inferInstanceAs (Decidable (l.IsChain fun a b => sep a = true → sep b = false))

theorem spaced_cons_of_not (ha : sep a = false) : Spaced sep (a :: l) ↔ Spaced sep l := by
  cases l with
  | nil => simp [Spaced]
  | cons b l => simp [Spaced, ha]

theorem spaced_append (hl : ∀ x ∈ l, sep x = false) : Spaced sep (l ++ m) ↔ Spaced sep m := by
  induction l with
  | nil => rfl
  | cons b l ih =>
    rw [List.cons_append, spaced_cons_of_not (hl b List.mem_cons_self)]
    exact ih fun x hx => hl x (List.mem_cons_of_mem _ hx)

/-- A piece behind a separator. -/
theorem spaced_piece {s : α} (hs : sep s = true) (hl : ∀ x ∈ l, sep x = false) (hne : l ≠ []) :
    Spaced sep (s :: (l ++ m)) ↔ Spaced sep m := by
  obtain ⟨b, l, rfl⟩ := List.exists_cons_of_ne_nil hne
  have hb : sep b = false := hl b List.mem_cons_self
  have hcons : Spaced sep (s :: b :: (l ++ m)) ↔ Spaced sep (b :: (l ++ m)) := by
    simp [Spaced, hb]
  exact hcons.trans (spaced_append hl)

/-- A scanner behind a separator takes an empty piece exactly when two separators follow each other. -/
theorem nil_notMem_pieces {s : α} (hs : sep s = true) (l : List α) :
    [] ∉ pieces sep l ↔ Spaced sep (s :: l) := by
  induction hn : l.length using Nat.strong_induction_on generalizing l s with
  | _ n ih =>
    by_cases h : l = []
    · simp [h, Spaced]
    · have hnot : ∀ x ∈ firstPiece sep l, sep x = false := fun x hx => not_sep_of_mem_firstPiece hx
      rw [pieces_of_ne_nil h, List.mem_cons, not_or, ← ne_eq, ne_comm]
      rcases piece_cases sep l with ⟨hl, hnil⟩ | ⟨a, ha, hl⟩
      · have hne : firstPiece sep l ≠ [] := hl ▸ h
        have hspaced : Spaced sep (s :: l) := by
          rw [hl, ← List.append_nil (firstPiece sep l), spaced_piece hs hnot hne]
          exact .nil
        simp [hnil, hne, hspaced]
      · have hrest := ih _ (hn ▸ length_afterPiece_lt sep h) ha _ rfl
        by_cases hne : firstPiece sep l = []
        · rw [hne, List.nil_append] at hl
          have hspaced : ¬ Spaced sep (s :: l) := by
            rw [hl]
            simp [Spaced, hs, ha]
          simp [hne, hspaced]
        · rw [hrest]
          conv => rhs; rw [hl, spaced_piece hs hnot hne]
          exact and_iff_right hne

end SisOp.Lib
