import Mathlib.Data.List.DropRight
import Mathlib.Data.Nat.Notation

/-!
# Words

The words of a text are its longest parts without a separator. What separates them is a parameter.

A separator ends a word whatever is in front of it, so that the words on both sides of it are the
words of the whole (`words_append_cons`). Separators at the ends of a text do not matter
(`words_append_of_forall`, `words_append_seps`), and a text without separators is one word
(`words_eq_singleton`).
-/

namespace Words

variable {α : Type} {sep : α → Bool}

/-- The words of a text. -/
def words (sep : α → Bool) (s : List α) : List (List α) :=
  (s.splitOnP sep).filter fun w ↦ !w.isEmpty

@[simp] theorem words_nil : words sep [] = [] := by
  rw [words, List.splitOnP_nil]
  rfl

/-- **A separator ends a word.** -/
theorem words_append_cons {x : α} (hx : sep x = true) (s t : List α) :
    words sep (s ++ x :: t) = words sep s ++ words sep t := by
  rw [words, List.splitOnP_append_cons s t hx, List.filter_append, words, words]

theorem words_cons {x : α} (hx : sep x = true) (t : List α) :
    words sep (x :: t) = words sep t := by
  have h := words_append_cons hx [] t
  rwa [List.nil_append, words_nil, List.nil_append] at h

/-- Separators in front. -/
theorem words_append_of_forall {u : List α} (hu : ∀ x ∈ u, sep x = true) (t : List α) :
    words sep (u ++ t) = words sep t := by
  induction u with
  | nil => rfl
  | cons x u ih =>
    rw [List.cons_append, words_cons (hu x List.mem_cons_self)]
    exact ih fun y hy ↦ hu y (List.mem_cons_of_mem x hy)

theorem words_eq_nil {u : List α} (hu : ∀ x ∈ u, sep x = true) : words sep u = [] := by
  have h := words_append_of_forall hu []
  rwa [List.append_nil, words_nil] at h

/-- Separators at the end. -/
theorem words_append_seps {u : List α} (hu : ∀ x ∈ u, sep x = true) (s : List α) :
    words sep (s ++ u) = words sep s := by
  rcases u with _ | ⟨x, u⟩
  · rw [List.append_nil]
  · rw [words_append_cons (hu x List.mem_cons_self),
      words_eq_nil fun y hy ↦ hu y (List.mem_cons_of_mem x hy), List.append_nil]

/-- A text without separators is one word. -/
theorem words_eq_singleton {w : List α} (hne : w ≠ []) (hw : ∀ x ∈ w, sep x = false) :
    words sep w = [w] := by
  rw [words, List.splitOnP_eq_singleton hw]
  exact List.filter_eq_self.2 fun v hv ↦ by simpa [List.mem_singleton.1 hv] using hne

/-- A text in two parts, the second of which does not begin within a word. -/
theorem words_append {t : List α} (ht : ∀ x ∈ t.head?, sep x = true) (s : List α) :
    words sep (s ++ t) = words sep s ++ words sep t := by
  rcases t with _ | ⟨x, t⟩
  · rw [words_nil, List.append_nil, List.append_nil]
  · have hx := ht x rfl
    rw [words_append_cons hx, words_cons hx]

/-! ### Stripping -/

theorem words_dropWhile {p : α → Bool} (h : ∀ x, p x = true → sep x = true) (s : List α) :
    words sep (s.dropWhile p) = words sep s := by
  conv_rhs => rw [← List.takeWhile_append_dropWhile (p := p) (l := s)]
  exact (words_append_of_forall (fun x hx ↦ h x (List.mem_takeWhile_imp hx)) _).symm

theorem words_rdropWhile {p : α → Bool} (h : ∀ x, p x = true → sep x = true) (s : List α) :
    words sep (s.rdropWhile p) = words sep s := by
  conv_rhs => rw [← List.rdropWhile_append_rtakeWhile (p := p) (l := s)]
  exact (words_append_seps (fun x hx ↦ h x (List.mem_rtakeWhile_imp hx)) _).symm

end Words
