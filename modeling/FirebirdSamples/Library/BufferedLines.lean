import Mathlib.Data.List.Infix
import Mathlib.Data.Nat.Notation

/-!
# Lines read through a buffer

A text is read in pieces: a piece ends behind a line end, or where the buffer is full, or with the
text. So a line that is longer than the buffer comes in several pieces, and what lies across two of
them is in neither.

`exists_mem_pieces_iff` says what is found in a piece: what lies on one line, at a column from which
on it fits into the rest of the buffer. Columns are counted from the line end in front, and the
buffer starts again at each multiple of its size.
-/

namespace BufferedLines

variable {α : Type}

/-- The last `k` characters. -/
def last (s : List α) (k : ℕ) : List α :=
  s.drop (s.length - k)

theorem last_append {k : ℕ} {s : List α} (hk : k ≤ s.length) (l : List α) :
    last (l ++ s) k = last s k := by
  rw [last, last, List.drop_append, List.drop_eq_nil_of_le (by rw [List.length_append]; omega),
    List.nil_append, List.length_append]
  congr 1
  omega

theorem last_length (s : List α) : last s s.length = s := by
  rw [last, Nat.sub_self, List.drop_zero]

variable [DecidableEq α]

/-- The first piece, of at most `n` characters, and the rest. -/
def readPiece (lineEnd : α) : ℕ → List α → List α × List α
  | 0, s => ([], s)
  | _, [] => ([], [])
  | n + 1, x :: s =>
    if x = lineEnd then ([x], s)
    else
      let r := readPiece lineEnd n s
      (x :: r.1, r.2)

/-- The number of characters behind the last line end. -/
def column (lineEnd : α) (s : List α) : ℕ :=
  s.foldl (fun k x ↦ if x = lineEnd then 0 else k + 1) 0

/-! ### A piece -/

section Piece

variable (lineEnd : α)

theorem readPiece_append (n : ℕ) (s : List α) :
    (readPiece lineEnd n s).1 ++ (readPiece lineEnd n s).2 = s := by
  induction n generalizing s with
  | zero => rfl
  | succ n ih =>
    rcases s with _ | ⟨x, s⟩
    · rfl
    · rw [readPiece]
      split_ifs
      · rfl
      · exact congrArg (x :: ·) (ih s)

theorem length_readPiece_le (n : ℕ) (s : List α) : (readPiece lineEnd n s).1.length ≤ n := by
  induction n generalizing s with
  | zero => exact Nat.le_refl 0
  | succ n ih =>
    rcases s with _ | ⟨x, s⟩
    · exact Nat.zero_le _
    · rw [readPiece]
      split_ifs
      · exact Nat.succ_le_succ (Nat.zero_le n)
      · exact Nat.succ_le_succ (ih s)

theorem readPiece_ne_nil {n : ℕ} (hn : 0 < n) {s : List α} (hs : s ≠ []) :
    (readPiece lineEnd n s).1 ≠ [] := by
  obtain ⟨n, rfl⟩ := Nat.exists_eq_add_one.2 hn
  rcases s with _ | ⟨x, s⟩
  · exact absurd rfl hs
  · rw [readPiece]
    split_ifs
    · exact List.cons_ne_nil _ _
    · exact List.cons_ne_nil _ _

/-- Behind a piece, less is left. -/
theorem length_readPiece_lt {n : ℕ} (hn : 0 < n) {s : List α} (hs : s ≠ []) :
    (readPiece lineEnd n s).2.length < s.length := by
  have hlength := congrArg List.length (readPiece_append lineEnd n s)
  have hpos := List.length_pos_iff.2 (readPiece_ne_nil lineEnd hn hs)
  rw [List.length_append] at hlength
  omega

/-- A line end is the last character of a piece, if it is in it. -/
theorem notMem_dropLast_readPiece (n : ℕ) (s : List α) :
    lineEnd ∉ (readPiece lineEnd n s).1.dropLast := by
  induction n generalizing s with
  | zero => exact List.not_mem_nil
  | succ n ih =>
    rcases s with _ | ⟨x, s⟩
    · exact List.not_mem_nil
    · rw [readPiece]
      split_ifs with hx
      · exact List.not_mem_nil
      · rcases hr : (readPiece lineEnd n s).1 with _ | ⟨y, r⟩
        · simp [hr]
        · have := ih s
          rw [hr] at this
          simp only [hr, List.dropLast_cons_cons, List.mem_cons, not_or]
          exact ⟨Ne.symm hx, this⟩

/-- **Where a piece ends**: behind a line end, where the buffer is full, or with the text. -/
theorem readPiece_end (n : ℕ) (s : List α) :
    (∃ l, (readPiece lineEnd n s).1 = l ++ [lineEnd]) ∨
      (readPiece lineEnd n s).1.length = n ∨ (readPiece lineEnd n s).2 = [] := by
  induction n generalizing s with
  | zero => exact Or.inr (Or.inl rfl)
  | succ n ih =>
    rcases s with _ | ⟨x, s⟩
    · exact Or.inr (Or.inr rfl)
    · rw [readPiece]
      split_ifs with hx
      · exact Or.inl ⟨[], by rw [hx]; rfl⟩
      · rcases ih s with ⟨l, hl⟩ | hfull | hend
        · exact Or.inl ⟨x :: l, congrArg (x :: ·) hl⟩
        · exact Or.inr (Or.inl (congrArg (· + 1) hfull))
        · exact Or.inr (Or.inr hend)

end Piece

/-- All pieces of a text, for a buffer of `n + 1` characters. -/
def pieces (lineEnd : α) (n : ℕ) (s : List α) : List (List α) :=
  if s = [] then []
  else
    (readPiece lineEnd (n + 1) s).1 :: pieces lineEnd n (readPiece lineEnd (n + 1) s).2
termination_by s.length
decreasing_by exact length_readPiece_lt lineEnd (Nat.succ_pos n) (by assumption)

/-! ### Columns -/

section Columns

variable {lineEnd : α}

theorem foldl_column {s : List α} (h : lineEnd ∉ s) (k : ℕ) :
    s.foldl (fun k x ↦ if x = lineEnd then 0 else k + 1) k = k + s.length := by
  induction s generalizing k with
  | nil => rfl
  | cons x s ih =>
    obtain ⟨hx, hs⟩ := not_or.1 fun h' ↦ h (List.mem_cons.2 h')
    rw [List.foldl_cons, if_neg (Ne.symm hx), ih hs, List.length_cons]
    omega

theorem column_of_notMem {s : List α} (h : lineEnd ∉ s) : column lineEnd s = s.length := by
  rw [column, foldl_column h, Nat.zero_add]

/-- In front of a line end, characters do not matter. -/
theorem column_append_lineEnd (l s : List α) :
    column lineEnd (l ++ [lineEnd] ++ s) = column lineEnd s := by
  rw [column, List.foldl_append, List.foldl_append, List.foldl_cons, if_pos rfl]
  rfl

/-- Characters in front move the column on, unless there is a line end behind them. -/
theorem column_append {l : List α} (hl : lineEnd ∉ l) (s : List α) :
    column lineEnd (l ++ s) =
      if lineEnd ∈ s then column lineEnd s else l.length + column lineEnd s := by
  split_ifs with hs
  · obtain ⟨u, v, rfl⟩ := List.append_of_mem hs
    rw [List.append_cons, ← List.append_assoc, ← List.append_assoc, column_append_lineEnd,
      column_append_lineEnd]
  · rw [column_of_notMem hs, column_of_notMem (List.not_mem_append hl hs), List.length_append]

/-- The characters that the column counts, behind the last line end. -/
theorem exists_column (lineEnd : α) (s : List α) :
    ∃ l t, s = l ++ t ∧ lineEnd ∉ t ∧ column lineEnd s = t.length := by
  induction s using List.reverseRecOn with
  | nil => exact ⟨[], [], rfl, List.not_mem_nil, rfl⟩
  | append_singleton s x ih =>
    obtain ⟨l, t, rfl, ht, hcolumn⟩ := ih
    have hstep : column lineEnd (l ++ t ++ [x]) =
        if x = lineEnd then 0 else column lineEnd (l ++ t) + 1 := by
      rw [column, List.foldl_append]
      rfl
    by_cases hx : x = lineEnd
    · exact ⟨l ++ t ++ [x], [], (List.append_nil _).symm, List.not_mem_nil,
        hstep.trans (if_pos hx)⟩
    · refine ⟨l, t ++ [x], List.append_assoc l t [x], List.not_mem_append ht ?_, ?_⟩
      · rw [List.mem_singleton]
        exact Ne.symm hx
      · rw [hstep, if_neg hx, hcolumn, List.length_append, List.length_singleton]

theorem column_le_length (s : List α) : column lineEnd s ≤ s.length := by
  obtain ⟨l, t, rfl, -, hcolumn⟩ := exists_column lineEnd s
  rw [hcolumn, List.length_append]
  exact Nat.le_add_left _ _

/-- **Behind a piece, columns are as from the start**, up to the size of the buffer. -/
theorem column_readPiece_append {n : ℕ} {s : List α} (hs : (readPiece lineEnd n s).2 ≠ [])
    (u : List α) : column lineEnd ((readPiece lineEnd n s).1 ++ u) % n = column lineEnd u % n := by
  rcases readPiece_end lineEnd n s with ⟨l, hl⟩ | hfull | hend
  · rw [hl, column_append_lineEnd]
  · by_cases hmem : lineEnd ∈ (readPiece lineEnd n s).1
    · -- the line end is the last character
      have hdrop := notMem_dropLast_readPiece lineEnd n s
      have hne := List.ne_nil_of_mem hmem
      have hconcat := List.dropLast_concat_getLast hne
      rw [← hconcat, List.mem_append, or_iff_right hdrop, List.mem_singleton] at hmem
      rw [← hconcat, ← hmem, column_append_lineEnd]
    · rw [column_append hmem, hfull]
      split_ifs
      · rfl
      · rw [Nat.add_mod_left]
  · exact absurd hend hs

end Columns

/-! ### What is found in a piece -/

section Found

variable {lineEnd : α} {n : ℕ} {w : List α}

/-- What is found in a text, at a column from which on it fits into the buffer. -/
structure Fits (lineEnd : α) (n : ℕ) (w : List α) (P : List α → Prop) (u : List α) : Prop where
  /-- It lies on one line. -/
  oneLine : lineEnd ∉ w.dropLast
  /-- It lies in one piece of the line. -/
  le : column lineEnd u % n + w.length ≤ n
  /-- What is in front of it, in the piece. -/
  front : P (last u (column lineEnd u % n))

variable {P : List α → Prop}

/-- What is found in the first piece. -/
theorem fits_of_readPiece {s b e : List α} (hw : w ≠ [])
    (hp : (readPiece lineEnd n s).1 = b ++ w ++ e) (hb : P b) : Fits lineEnd n w P b := by
  have hdrop := notMem_dropLast_readPiece lineEnd n s
  have hlength := length_readPiece_le lineEnd n s
  have hpos := List.length_pos_iff.2 hw
  rw [hp, List.length_append, List.length_append] at hlength
  rw [hp, ← List.dropLast_concat_getLast hw, List.append_assoc, List.append_assoc,
    List.dropLast_append_of_ne_nil (by simp), List.mem_append, not_or, List.singleton_append,
    List.dropLast_append_of_ne_nil (List.cons_ne_nil _ _), List.mem_append, not_or] at hdrop
  obtain ⟨hbend, hwend, -⟩ := hdrop
  have hcolumn : column lineEnd b % n = b.length := by
    rw [column_of_notMem hbend, Nat.mod_eq_of_lt (by omega)]
  exact ⟨hwend, by rw [hcolumn]; omega, by rwa [hcolumn, last_length]⟩

/-- What fits into the buffer and begins in the first piece is found there. -/
theorem readPiece_of_fits {s u a v : List α} (h : Fits lineEnd n w P u)
    (hp : (readPiece lineEnd n s).1 = u ++ a) (ha : a ≠ [])
    (hrest : w ++ v = a ++ (readPiece lineEnd n s).2) :
    ∃ e, (readPiece lineEnd n s).1 = u ++ w ++ e ∧ P u := by
  have hdrop := notMem_dropLast_readPiece lineEnd n s
  have hlength := length_readPiece_le lineEnd n s
  have hpos := List.length_pos_iff.2 ha
  rw [hp, List.dropLast_append_of_ne_nil ha, List.mem_append, not_or] at hdrop
  rw [hp, List.length_append] at hlength
  have hcolumn : column lineEnd u % n = u.length := by
    rw [column_of_notMem hdrop.1, Nat.mod_eq_of_lt (by omega)]
  have hle := h.le
  have hfront := h.front
  rw [hcolumn] at hle hfront
  rw [last_length] at hfront
  rcases List.append_eq_append_iff.1 hrest with ⟨e, rfl, -⟩ | ⟨c, hwc, hv⟩
  · exact ⟨e, by rw [hp, List.append_assoc], hfront⟩
  · rcases List.eq_nil_or_concat c with rfl | ⟨c, x, rfl⟩
    · rw [List.append_nil] at hwc
      exact ⟨[], by rw [hp, hwc, List.append_nil], hfront⟩
    -- the piece would end within it
    · exfalso
      rw [List.concat_eq_append] at hwc hv
      have hwlen := congrArg List.length hwc
      rw [List.length_append, List.length_append, List.length_singleton] at hwlen
      rcases readPiece_end lineEnd n s with ⟨l, hl⟩ | hfull | hend
      · have hlast : lineEnd ∈ a := by
          rw [hp] at hl
          have := congrArg List.getLast? hl
          rw [List.getLast?_append_of_ne_nil _ ha, List.getLast?_concat] at this
          exact List.mem_of_getLast? this
        refine h.oneLine ?_
        rw [hwc, ← List.append_assoc, List.dropLast_concat]
        exact List.mem_append_left _ hlast
      · rw [hp, List.length_append] at hfull
        omega
      · rw [hend] at hv
        simp at hv

/-- Behind a piece, what fits is as from the start. -/
theorem fits_readPiece_append_iff {s : List α} (hs : (readPiece lineEnd n s).2 ≠ [])
    {u : List α} : Fits lineEnd n w P ((readPiece lineEnd n s).1 ++ u) ↔ Fits lineEnd n w P u := by
  have hcolumn := column_readPiece_append hs u
  have hlast : last ((readPiece lineEnd n s).1 ++ u) (column lineEnd u % n) =
      last u (column lineEnd u % n) :=
    last_append ((Nat.mod_le _ _).trans (column_le_length u)) _
  constructor
  · rintro ⟨hline, hle, hfront⟩
    rw [hcolumn] at hle hfront
    exact ⟨hline, hle, by rwa [hlast] at hfront⟩
  · rintro ⟨hline, hle, hfront⟩
    rw [← hcolumn] at hle
    exact ⟨hline, hle, by rwa [hcolumn, hlast]⟩

/-- **What is found in a piece** lies on one line, at a column from which on it fits into the
buffer. -/
theorem exists_mem_pieces_iff (hw : w ≠ []) (s : List α) :
    (∃ p ∈ pieces lineEnd n s, ∃ b e, p = b ++ w ++ e ∧ P b) ↔
      ∃ u v, s = u ++ w ++ v ∧ Fits lineEnd (n + 1) w P u := by
  induction s using pieces.induct lineEnd n with
  | case1 =>
    rw [pieces, if_pos rfl]
    refine iff_of_false (fun ⟨_, h, _⟩ ↦ List.not_mem_nil h) ?_
    rintro ⟨u, v, h, -⟩
    simp [hw] at h
  | case2 s hs ih =>
    have happend := readPiece_append lineEnd (n + 1) s
    rw [pieces, if_neg hs]
    simp only [List.exists_mem_cons_iff, ih]
    constructor
    · rintro (⟨b, e, hp, hb⟩ | ⟨u, v, hrest, hfits⟩)
      · refine ⟨b, e ++ (readPiece lineEnd (n + 1) s).2, ?_, fits_of_readPiece hw hp hb⟩
        rw [← List.append_assoc, ← hp, happend]
      · refine ⟨(readPiece lineEnd (n + 1) s).1 ++ u, v, ?_,
          (fits_readPiece_append_iff (by simp [hrest, hw])).2 hfits⟩
        rw [List.append_assoc, List.append_assoc, ← List.append_assoc u, ← hrest, happend]
    · rintro ⟨u, v, hsplit, hfits⟩
      have hbehind : ∀ a, u = (readPiece lineEnd (n + 1) s).1 ++ a →
          (readPiece lineEnd (n + 1) s).2 = a ++ (w ++ v) →
            ∃ u v, (readPiece lineEnd (n + 1) s).2 = u ++ w ++ v ∧ Fits lineEnd (n + 1) w P u := by
        rintro a rfl hrest
        exact ⟨a, v, by rw [hrest, List.append_assoc],
          (fits_readPiece_append_iff (by simp [hrest, hw])).1 hfits⟩
      have hboth := happend.trans (hsplit.trans (List.append_assoc u w v))
      rcases List.append_eq_append_iff.1 hboth with ⟨a, ha, hrest⟩ | ⟨a, ha, hrest⟩
      · exact Or.inr (hbehind a ha hrest)
      · rcases eq_or_ne a [] with rfl | hne
        · exact Or.inr (hbehind [] (by rw [ha, List.append_nil, List.append_nil]) hrest.symm)
        · obtain ⟨e, he⟩ := readPiece_of_fits hfits ha hne hrest
          exact Or.inl ⟨u, e, he⟩

end Found

end BufferedLines
