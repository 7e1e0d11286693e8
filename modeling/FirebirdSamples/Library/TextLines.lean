import Mathlib.Data.List.DropRight
import Mathlib.Data.Nat.Notation

/-!
# Lines of text

A text as a sequence of lines, and the blanks around a line. What counts as a blank is a parameter,
since libraries do not agree on it.

Stripping a line takes the blanks off both ends. A line is put together from blanks, a label and
what is behind it, and `strip_labelled` says what stripping leaves of it: the label, and what is
behind it with the blanks at the end taken off. A text made of lines with an end each is split into
these lines (`splitLines_flatMap`).
-/

namespace TextLines

variable {blank : Char → Bool}

/-- A text without the blanks at both ends. -/
def strip (blank : Char → Bool) (s : List Char) : List Char :=
  (s.dropWhile blank).rdropWhile blank

/-- The lines of a text. A line end separates two lines, so that there is always one. -/
def splitLines : List Char → List (List Char)
  | [] => [[]]
  | x :: s =>
    if x = '\n' then [] :: splitLines s
    else
      match splitLines s with
      | [] => [[x]]
      | l :: ls => (x :: l) :: ls

/-! ### Blanks -/

/-- The first character that is no blank, if there is one. -/
theorem exists_blanks (blank : Char → Bool) (s : List Char) :
    (∀ x ∈ s, blank x = true) ∨
      ∃ u x t, s = u ++ x :: t ∧ (∀ y ∈ u, blank y = true) ∧ blank x = false := by
  induction s with
  | nil => exact Or.inl fun _ h ↦ absurd h List.not_mem_nil
  | cons x s ih =>
    rcases hx : blank x with _ | _
    · exact Or.inr ⟨[], x, s, rfl, fun _ h ↦ absurd h List.not_mem_nil, hx⟩
    · rcases ih with hs | ⟨u, y, t, rfl, hu, hy⟩
      · exact Or.inl (List.forall_mem_cons.2 ⟨hx, hs⟩)
      · exact Or.inr ⟨x :: u, y, t, rfl, List.forall_mem_cons.2 ⟨hx, hu⟩, hy⟩

/-- What stands in front of a character that is no blank stays. -/
theorem rdropWhile_append_cons {x : Char} (hx : blank x = false) (u t : List Char) :
    (u ++ x :: t).rdropWhile blank = u ++ x :: t.rdropWhile blank := by
  induction t using List.reverseRecOn with
  | nil => exact List.rdropWhile_concat_neg _ _ _ (by simp [hx])
  | append_singleton t y ih =>
    rw [show u ++ x :: (t ++ [y]) = (u ++ x :: t) ++ [y] by simp]
    rcases hy : blank y with _ | _
    · rw [List.rdropWhile_concat_neg _ _ _ (by simp [hy]),
        List.rdropWhile_concat_neg _ _ _ (by simp [hy])]
      simp
    · rw [List.rdropWhile_concat_pos _ _ _ hy, List.rdropWhile_concat_pos _ _ _ hy, ih]

/-- Blanks in front are taken off. -/
theorem strip_append {u : List Char} (hu : ∀ x ∈ u, blank x = true) (s : List Char) :
    strip blank (u ++ s) = strip blank s := by
  rw [strip, List.dropWhile_append_of_pos hu, strip]

theorem strip_cons {x : Char} (hx : blank x = false) (s : List Char) :
    strip blank (x :: s) = x :: s.rdropWhile blank := by
  rw [strip, List.dropWhile_cons_of_neg (by simp [hx])]
  exact rdropWhile_append_cons hx [] s

theorem strip_eq_nil {s : List Char} (hs : ∀ x ∈ s, blank x = true) : strip blank s = [] := by
  rw [strip, List.dropWhile_eq_nil_iff.2 hs]
  rfl

theorem rdropWhile_eq_self {s : List Char} (hs : ∀ x ∈ s, blank x = false) :
    s.rdropWhile blank = s := by
  refine List.rdropWhile_eq_self_iff.2 fun hne ↦ ?_
  rw [hs _ (List.getLast_mem hne)]
  exact Bool.false_ne_true

/-- A text without blanks stays. -/
theorem strip_eq_self {s : List Char} (hs : ∀ x ∈ s, blank x = false) : strip blank s = s := by
  rcases s with _ | ⟨x, t⟩
  · rfl
  · obtain ⟨hx, ht⟩ := List.forall_mem_cons.1 hs
    rw [strip_cons hx, rdropWhile_eq_self ht]

/-- Blanks at the end do not matter. -/
theorem strip_rdropWhile (s : List Char) : strip blank (s.rdropWhile blank) = strip blank s := by
  rcases exists_blanks blank s with hs | ⟨u, x, t, rfl, hu, hx⟩
  · rw [List.rdropWhile_eq_nil_iff.2 hs, strip_eq_nil hs]
    rfl
  · rw [rdropWhile_append_cons hx, strip_append hu, strip_append hu, strip_cons hx, strip_cons hx,
      List.rdropWhile_idempotent]

/-- **A line behind a label.** The label begins and ends with characters that are no blanks. -/
theorem strip_labelled {x y : Char} {u : List Char} (hu : ∀ z ∈ u, blank z = true)
    (hx : blank x = false) (hy : blank y = false) (m rest : List Char) :
    strip blank (u ++ x :: (m ++ y :: rest)) = x :: (m ++ y :: rest.rdropWhile blank) := by
  rw [strip_append hu, strip_cons hx, rdropWhile_append_cons hy]

/-! ### Lines -/

/-- The first line. -/
theorem splitLines_append {l : List Char} (hl : '\n' ∉ l) (s : List Char) :
    splitLines (l ++ '\n' :: s) = l :: splitLines s := by
  induction l with
  | nil => rw [List.nil_append, splitLines, if_pos rfl]
  | cons x l ih =>
    obtain ⟨hx, hl⟩ := not_or.1 fun h ↦ hl (List.mem_cons.2 h)
    rw [List.cons_append, splitLines, if_neg (Ne.symm hx), ih hl]

/-- **A text made of lines** is split into these lines; behind the last line end there is an empty
one. -/
theorem splitLines_flatMap {ls : List (List Char)} (hls : ∀ l ∈ ls, '\n' ∉ l) :
    splitLines (ls.flatMap (· ++ ['\n'])) = ls ++ [[]] := by
  induction ls with
  | nil => rfl
  | cons l ls ih =>
    obtain ⟨hl, hls⟩ := List.forall_mem_cons.1 hls
    rw [List.flatMap_cons, List.append_assoc, List.singleton_append, splitLines_append hl, ih hls]
    rfl

end TextLines
