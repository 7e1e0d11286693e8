import Mathlib

/-!
# Columns of a fixed width

A line of cells, each padded with blanks to the width of its column and followed by one more blank.
However short the cells are, all such lines have one length (`length_line`).

Cut at the widths, a line gives its cells back, without the blanks at their ends (`cut_line`). The
widths can be read off a ruler, a line whose cells are dashes from one end to the other
(`widths_ruler`).
-/

namespace Columns

variable {α : Type} (blank : α)

/-! ### Lines -/

/-- A cell with blanks up to a width. -/
def pad (w : ℕ) (s : List α) : List α :=
  s ++ List.replicate (w - s.length) blank

/-- A line of cells. -/
def line (ws : List ℕ) (cells : List (List α)) : List α :=
  (List.zipWith (fun w s ↦ pad blank w s ++ [blank]) ws cells).flatten

/-- A line of dashes. -/
def ruler (dash : α) (ws : List ℕ) : List α :=
  line blank ws (ws.map fun w ↦ List.replicate w dash)

theorem length_pad {w : ℕ} {s : List α} (h : s.length ≤ w) : (pad blank w s).length = w := by
  rw [pad, List.length_append, List.length_replicate]
  omega

theorem pad_replicate (w : ℕ) (x : α) : pad blank w (List.replicate w x) = List.replicate w x := by
  rw [pad, List.length_replicate, Nat.sub_self, List.replicate_zero, List.append_nil]

theorem line_cons (w : ℕ) (ws : List ℕ) (s : List α) (cells : List (List α)) :
    line blank (w :: ws) (s :: cells) = pad blank w s ++ blank :: line blank ws cells := by
  rw [line, List.zipWith_cons_cons, List.flatten_cons, List.append_assoc]
  rfl

/-- All lines have one length. -/
theorem length_line {ws : List ℕ} {cells : List (List α)}
    (h : List.Forall₂ (fun w s ↦ s.length ≤ w) ws cells) :
    (line blank ws cells).length = (ws.map (· + 1)).sum := by
  induction h with
  | nil => rfl
  | cons hs _ ih =>
    rw [line_cons, List.length_append, List.length_cons, ih, length_pad blank hs, List.map_cons,
      List.sum_cons]
    omega

theorem mem_line {x : α} {ws : List ℕ} {cells : List (List α)} (h : x ∈ line blank ws cells) :
    x = blank ∨ ∃ s ∈ cells, x ∈ s := by
  induction ws generalizing cells with
  | nil => simp [line] at h
  | cons w ws ih =>
    rcases cells with _ | ⟨s, cells⟩
    · simp [line] at h
    · rw [line_cons, List.mem_append, List.mem_cons] at h
      rcases h with h | h | h
      · rcases List.mem_append.1 h with h | h
        · exact Or.inr ⟨s, List.mem_cons_self, h⟩
        · exact Or.inl (List.eq_of_mem_replicate h)
      · exact Or.inl h
      · rcases ih h with h | ⟨s', hs', h⟩
        · exact Or.inl h
        · exact Or.inr ⟨s', List.mem_cons_of_mem s hs', h⟩

theorem ruler_cons (dash : α) (w : ℕ) (ws : List ℕ) :
    ruler blank dash (w :: ws) = List.replicate w dash ++ blank :: ruler blank dash ws := by
  rw [ruler, List.map_cons, line_cons, pad_replicate]
  rfl

/-! ### Reading them back -/

variable [DecidableEq α]

/-- Cut a line at the widths of the columns, and take the blanks off the ends of the cells. -/
def cut : List ℕ → List α → List (List α)
  | [], _ => []
  | w :: ws, s => (s.take w).rdropWhile (· = blank) :: cut ws (s.drop (w + 1))

/-- The widths of the columns above a ruler. -/
def widths (s : List α) : List ℕ :=
  (s.splitOn blank).dropLast.map List.length

theorem rdropWhile_pad (w : ℕ) (s : List α) :
    (pad blank w s).rdropWhile (· = blank) = s.rdropWhile (· = blank) := by
  rw [pad]
  induction w - s.length with
  | zero => rw [List.replicate_zero, List.append_nil]
  | succ n ih =>
    rw [List.replicate_succ', ← List.append_assoc, List.rdropWhile_concat_pos _ _ _ (by simp), ih]

/-- **A line is cut into its cells.** -/
theorem cut_line {ws : List ℕ} {cells : List (List α)}
    (h : List.Forall₂ (fun w s ↦ s.length ≤ w) ws cells) :
    cut blank ws (line blank ws cells) = cells.map (·.rdropWhile (· = blank)) := by
  induction h with
  | nil => rfl
  | @cons w s ws cells hs _ ih =>
    have hlength := length_pad blank hs
    have hdrop : (pad blank w s ++ blank :: line blank ws cells).drop (w + 1) =
        line blank ws cells := by
      rw [← List.singleton_append, ← List.append_assoc]
      exact List.drop_left' (by rw [List.length_append, hlength]; rfl)
    rw [line_cons, cut, List.take_left' hlength, hdrop, ih, rdropWhile_pad, List.map_cons]

/-- A sequence of texts with an end each. -/
theorem splitOn_flatMap {x : α} {ls : List (List α)} (h : ∀ l ∈ ls, x ∉ l) :
    (ls.flatMap (· ++ [x])).splitOn x = ls ++ [[]] := by
  induction ls with
  | nil => exact List.splitOn_nil _
  | cons l ls ih =>
    obtain ⟨hl, hls⟩ := List.forall_mem_cons.1 h
    have hnot : ∀ y ∈ l, (y == x) = false := by
      intro y hy
      simp only [beq_eq_false_iff_ne]
      exact fun heq ↦ hl (heq ▸ hy)
    have hrest := ih hls
    rw [List.splitOn] at hrest
    rw [List.flatMap_cons, List.append_assoc, List.singleton_append, List.splitOn,
      List.splitOnP_append_cons _ _ (by simp), List.splitOnP_eq_singleton hnot, hrest]
    rfl

/-- **The widths are those of the ruler.** -/
theorem widths_ruler {dash : α} (hdash : dash ≠ blank) (ws : List ℕ) :
    widths blank (ruler blank dash ws) = ws := by
  have hflat : ruler blank dash ws =
      (ws.map fun w ↦ List.replicate w dash).flatMap (· ++ [blank]) := by
    induction ws with
    | nil => rfl
    | cons w ws ih => rw [ruler_cons, ih, List.map_cons, List.flatMap_cons, List.append_cons]
  have hnot : ∀ l ∈ ws.map (fun w ↦ List.replicate w dash), blank ∉ l := by
    intro l hl hmem
    obtain ⟨w, -, rfl⟩ := List.mem_map.1 hl
    exact hdash (List.eq_of_mem_replicate hmem).symm
  rw [widths, hflat, splitOn_flatMap hnot, List.dropLast_concat, List.map_map]
  conv_rhs => rw [← List.map_id ws]
  exact List.map_congr_left fun w _ ↦ List.length_replicate

end Columns
