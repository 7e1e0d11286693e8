import FirebirdSamples.Grammar.Actions
import Mathlib.Data.List.TakeWhile

/-!
# Blocks that are not closed

If a pass is in the middle of something at the end of a block, it goes on with the text behind the
block: an open comment takes all up to the next `*/`, a line comment the rest of the line, an open
character literal all up to the next quote, and an open brace what stands before the next `}`.

The `tail` is a text that ends each of these, and `count_passes_le` says what they have taken by
then: of a text behind the block, no character of which the passes could be done with, nothing is
left.
-/

namespace FirebirdSamples.Grammar

open Regex (Finds Settled Stable sub)

/-! ### What is left -/

theorem count_stripFrom_le (x : Char) (d : ℕ) (s : Text) :
    (stripFrom d s).count x ≤ s.count x := by
  induction s generalizing d with
  | nil => exact Nat.le_refl _
  | cons y s ih =>
    rw [stripFrom]
    split_ifs
    · exact (ih _).trans (List.count_le_count_cons)
    · exact (ih _).trans (List.count_le_count_cons)
    · rw [List.count_cons, List.count_cons]
      exact Nat.add_le_add_right (ih _) _
    · exact (ih _).trans (List.count_le_count_cons)

/-- Without a closing brace, nothing is left behind an open one. -/
theorem stripFrom_of_pos {s : Text} (hs : ∀ x ∈ s, x ≠ '}') {d : ℕ} (hd : d ≠ 0) :
    stripFrom d s = [] := by
  rw [stripFrom_eq_outside]
  refine (Nesting.outside_eq_nil (by decide) fun p hp ↦ ?_).1
  rw [List.count_eq_zero.2 fun hmem ↦ hs '}' (hp.subset hmem) rfl]
  omega

theorem count_noLines_le {x : Char} (hx : x ≠ ' ') (s : Text) :
    (noLines s).count x ≤ s.count x :=
  finds_lineComment.count_sub_le (by simpa using hx) s

theorem count_noLiterals_le {x : Char} (hx : x ≠ ' ') (s : Text) :
    (noLiterals s).count x ≤ s.count x :=
  finds_charLiteral.count_sub_le (by simpa using hx) s

theorem count_noComments_le {x : Char} (hx : x ≠ ' ') (s : Text) :
    (noComments s).count x ≤ s.count x :=
  finds_blockComment.count_sub_le (by simpa using hx) s

/-- The passes add no characters but spaces. -/
theorem count_passes_le {x : Char} (hx : x ≠ ' ') (s : Text) : (passes s).count x ≤ s.count x :=
  calc (passes s).count x ≤ (noLiterals (noLines (noComments s))).count x :=
        count_stripFrom_le x 0 _
    _ ≤ (noLines (noComments s)).count x := count_noLiterals_le hx _
    _ ≤ (noComments s).count x := count_noLines_le hx _
    _ ≤ s.count x := count_noComments_le hx s

/-! ### Open comments -/

theorem closeComment_append_some {v u : Text} (h : closeComment v = some u) (w : Text) :
    closeComment (v ++ w) = some (u ++ w) := by
  induction v with
  | nil => cases h
  | cons x v ih =>
    rw [closeComment] at h
    rw [List.cons_append, closeComment]
    split_ifs at h with hpre
    · obtain rfl := Option.some.inj h
      obtain ⟨t, ht⟩ := hpre
      have hne : v ≠ [] := fun hnil ↦ by rw [hnil] at ht; simp at ht
      have hlong : ['*', '/'] <+: x :: (v ++ w) := ⟨t ++ w, by rw [← List.append_assoc, ht]; rfl⟩
      rw [if_pos hlong, List.tail_append_of_ne_nil hne]
    · rcases v with _ | ⟨y, v⟩
      · cases h
      · have hlong : ¬ ['*', '/'] <+: x :: (y :: v ++ w) := by
          rw [List.cons_append, List.cons_prefix_cons, List.cons_prefix_cons]
          rintro ⟨rfl, rfl, -⟩
          exact hpre ⟨v, rfl⟩
        rw [if_neg hlong]
        exact ih h

/-- A closed comment is closed whatever follows. -/
theorem stable_afterComment {v u : Text} (h : closeComment v = some u) :
    Stable afterComment ('/' :: '*' :: v) := by
  intro w
  show closeComment (v ++ w) = (closeComment v).map (· ++ w)
  rw [closeComment_append_some h, h]
  rfl

theorem closeComment_append_none {v : Text} (h : closeComment v = none)
    (hlast : v.getLast? ≠ some '*') (w : Text) : closeComment (v ++ w) = closeComment w := by
  induction v with
  | nil => rfl
  | cons x v ih =>
    rw [closeComment] at h
    split_ifs at h with hpre
    have hlast' : v.getLast? ≠ some '*' := by
      rcases v with _ | ⟨y, v⟩
      · simp
      · rwa [List.getLast?_cons_cons] at hlast
    have hlong : ¬ ['*', '/'] <+: x :: (v ++ w) :=
      not_prefix_append hpre (List.cons_ne_nil x v) hlast w
    rw [List.cons_append, closeComment, if_neg hlong]
    exact ih h hlast'

theorem getLast?_ne_slash {u : Text} (hlast : u.getLast? = some '}') : u.getLast? ≠ some '/' := by
  rw [hlast]
  decide

/-- An open comment closes behind the block. -/
theorem afterComment_of_unstable {u : Text} (hu : u ≠ []) (hlast : u.getLast? = some '}')
    (h : ¬ Stable afterComment u) (w : Text) : afterComment (u ++ w) = closeComment w := by
  by_cases hpre : ['/', '*'] <+: u
  · obtain ⟨v, rfl⟩ := hpre
    show closeComment (v ++ w) = closeComment w
    rcases hclose : closeComment v with _ | t
    · refine closeComment_append_none hclose ?_ w
      rcases v with _ | ⟨x, v⟩
      · simp
      · rw [show (['/', '*'] ++ x :: v).getLast? = (x :: v).getLast? from
          List.getLast?_append_of_ne_nil _ (List.cons_ne_nil x v)] at hlast
        rw [hlast]
        decide
    · exact absurd (stable_afterComment hclose) h
  · refine absurd (fun w ↦ ?_) h
    rw [afterComment_of_not_isPrefix (not_prefix_append hpre hu (getLast?_ne_slash hlast) w),
      afterComment_of_not_isPrefix hpre]
    rfl

/-- No comment ends with a brace. -/
theorem afterComment_ne_nil {u : Text} (hlast : u.getLast? = some '}') :
    afterComment u ≠ some [] := by
  have hclose : ∀ v : Text, closeComment v = some [] → v.getLast? = some '/' := by
    intro v h
    induction v with
    | nil => cases h
    | cons x v ih =>
      rw [closeComment] at h
      split_ifs at h with hpre
      · obtain ⟨t, ht⟩ := hpre
        obtain ⟨rfl, rfl⟩ := List.cons.inj ht
        obtain rfl : t = [] := Option.some.inj h
        rfl
      · have hv := ih h
        rw [List.getLast?_cons, hv]
        rfl
  intro h
  by_cases hpre : ['/', '*'] <+: u
  · obtain ⟨v, rfl⟩ := hpre
    have hv := hclose v h
    rw [List.getLast?_append, hv] at hlast
    exact absurd hlast (by simp)
  · rw [afterComment_of_not_isPrefix hpre] at h
    cases h

/-! ### Line comments that go on -/

/-- A line comment goes on behind the block. -/
theorem afterLine_of_unstable {u : Text} (hu : u ≠ []) (hlast : u.getLast? = some '}')
    (h : ¬ Stable afterLine u) (w : Text) :
    afterLine (u ++ w) = some (w.dropWhile (· != '\n')) := by
  by_cases hpre : ['/', '/'] <+: u
  · obtain ⟨v, rfl⟩ := hpre
    show some ((v ++ w).dropWhile (· != '\n')) = _
    by_cases hline : '\n' ∈ v
    · refine absurd (fun w ↦ ?_) h
      show some ((v ++ w).dropWhile (· != '\n')) = some (v.dropWhile (· != '\n') ++ w)
      have hne : (v.dropWhile (· != '\n')).isEmpty = false := by
        rw [List.isEmpty_eq_false_iff]
        exact fun hnil ↦ absurd (List.dropWhile_eq_nil_iff.1 hnil '\n' hline) (by decide)
      rw [List.dropWhile_append, hne]
      rfl
    · rw [List.dropWhile_append_of_pos]
      exact fun x hx ↦ bne_iff_ne.2 fun heq ↦ hline (heq ▸ hx)
  · refine absurd (fun w ↦ ?_) h
    rw [afterLine_of_not_isPrefix (not_prefix_append hpre hu (getLast?_ne_slash hlast) w),
      afterLine_of_not_isPrefix hpre]
    rfl

/-- A line comment that ends with the text is not stable. -/
theorem afterLine_ne_nil {u : Text} (h : Stable afterLine u) : afterLine u ≠ some [] := by
  intro hnil
  have hlong := h ['}']
  rw [hnil] at hlong
  by_cases hpre : ['/', '/'] <+: u
  · obtain ⟨v, rfl⟩ := hpre
    have hv : v.dropWhile (· != '\n') = [] := Option.some.inj hnil
    have hv' : (v ++ ['}']).dropWhile (· != '\n') = ['}'] := Option.some.inj hlong
    rw [List.dropWhile_append, hv] at hv'
    exact absurd hv' (by decide)
  · rw [afterLine_of_not_isPrefix hpre] at hnil
    cases hnil

/-! ### Open literals -/

/-- What an open literal does with the text behind it. -/
theorem closeLiteral_append {v : Text} (hlast : v.getLast? = some '}') :
    (∀ w, closeLiteral (v ++ w) = (closeLiteral v).map (· ++ w)) ∨
      ∀ w, closeLiteral (v ++ w) = closeLiteral w := by
  induction v using closeLiteral.induct with
  | case1 => cases hlast
  | case2 t =>
    refine Or.inl fun w ↦ ?_
    rw [List.cons_append, closeLiteral_quote, closeLiteral_quote]
    rfl
  | case3 => exact absurd hlast (by decide)
  | case4 t =>
    refine Or.inl fun w ↦ ?_
    rw [List.cons_append, List.cons_append, closeLiteral_stuck, closeLiteral_stuck]
    rfl
  | case5 y t hy _ ih =>
    have hstep : ∀ w, closeLiteral ('\\' :: y :: t ++ w) = closeLiteral (t ++ w) := fun w ↦
      closeLiteral_escape hy (t ++ w)
    simp only [hstep, closeLiteral_escape hy]
    rcases t with _ | ⟨z, t⟩
    · exact Or.inr fun w ↦ rfl
    · exact ih (by rwa [List.getLast?_cons_cons, List.getLast?_cons_cons] at hlast)
  | case6 x t hx hx' ih =>
    have hstep : ∀ w, closeLiteral (x :: t ++ w) = closeLiteral (t ++ w) := fun w ↦
      closeLiteral_other hx hx' (t ++ w)
    simp only [hstep, closeLiteral_other hx hx']
    rcases t with _ | ⟨z, t⟩
    · exact Or.inr fun w ↦ rfl
    · exact ih (by rwa [List.getLast?_cons_cons] at hlast)

/-- An open literal closes behind the block. -/
theorem afterLiteral_of_unstable {u : Text} (hu : u ≠ []) (hlast : u.getLast? = some '}')
    (h : ¬ Stable afterLiteral u) (w : Text) : afterLiteral (u ++ w) = closeLiteral w := by
  by_cases hhead : u.head? = some '\''
  · obtain ⟨v, rfl⟩ := List.head?_eq_some_iff.1 hhead
    show closeLiteral (v ++ w) = closeLiteral w
    rcases v with _ | ⟨x, v⟩
    · exact absurd hlast (by decide)
    · rw [List.getLast?_cons_cons] at hlast
      rcases closeLiteral_append hlast with hstable | hopen
      · exact absurd hstable h
      · exact hopen w
  · refine absurd (fun w ↦ ?_) h
    have hhead' : (u ++ w).head? ≠ some '\'' := by
      rcases u with _ | ⟨x, u⟩
      · exact absurd rfl hu
      · exact hhead
    rw [afterLiteral_of_head? hhead', afterLiteral_of_head? hhead]
    rfl

/-! ### The text behind -/

/-- A text that ends all that may be open: `*/`, a quote and the end of the line. -/
def ending : Text :=
  "/**/''\n;".toList

section Behind

variable {s : Text} (hs : ∀ x ∈ s, isNameChar x = true)

include hs

theorem quiet_of_isNameChar : Quiet s :=
  quiet_of_plain fun x hx ↦ isPlain_of_isNameChar (hs x hx)

theorem noComments_behind : noComments (s ++ ending) = s ++ " ''\n;".toList := by
  have hquiet := quiet_of_isNameChar hs
  have hsplit : noComments (s ++ ending) = noComments s ++ noComments ending :=
    hquiet.settled_comments.sub_append finds_blockComment _ _
  rw [hsplit, hquiet.noComments_eq, show noComments ending = " ''\n;".toList by decide +kernel]

theorem noLines_behind :
    noLines (s ++ " ''\n;".toList) = s ++ " ''\n;".toList := by
  have hquiet := quiet_of_isNameChar hs
  have hsplit : noLines (s ++ " ''\n;".toList) = noLines s ++ noLines " ''\n;".toList :=
    hquiet.settled_lines.sub_append finds_lineComment _ _
  rw [hsplit, hquiet.noLines_eq,
    show noLines " ''\n;".toList = " ''\n;".toList by decide +kernel]

theorem noLiterals_behind : noLiterals (s ++ " ''\n;".toList) = s ++ "  \n;".toList := by
  have hquiet := quiet_of_isNameChar hs
  have hsplit : noLiterals (s ++ " ''\n;".toList) = noLiterals s ++ noLiterals " ''\n;".toList :=
    hquiet.settled_literals.sub_append finds_charLiteral _ _
  rw [hsplit, hquiet.noLiterals_eq,
    show noLiterals " ''\n;".toList = "  \n;".toList by decide +kernel]

theorem closeComment_behind : closeComment (s ++ ending) = some "''\n;".toList := by
  induction s with
  | nil => decide
  | cons x s ih =>
    have hx : x ≠ '*' := fun heq ↦ absurd (hs x List.mem_cons_self) (heq ▸ by decide)
    have hpre : ¬ ['*', '/'] <+: x :: (s ++ ending) := fun h ↦
      hx (List.cons_prefix_cons.1 h).1.symm
    rw [List.cons_append, closeComment, if_neg hpre]
    exact ih fun y hy ↦ hs y (List.mem_cons_of_mem x hy)

theorem dropWhile_behind :
    (s ++ " ''\n;".toList).dropWhile (· != '\n') = "\n;".toList := by
  rw [List.dropWhile_append_of_pos fun x hx ↦ bne_iff_ne.2 fun heq ↦ ?_]
  · rfl
  · exact absurd (hs x hx) (heq ▸ by decide)

theorem closeLiteral_behind : closeLiteral (s ++ " ''\n;".toList) = some "'\n;".toList := by
  induction s with
  | nil => decide
  | cons x s ih =>
    have hquote : x ≠ '\'' := fun heq ↦ absurd (hs x List.mem_cons_self) (heq ▸ by decide)
    have hback : x ≠ '\\' := fun heq ↦ absurd (hs x List.mem_cons_self) (heq ▸ by decide)
    rw [List.cons_append, closeLiteral_other hquote hback]
    exact ih fun y hy ↦ hs y (List.mem_cons_of_mem x hy)

end Behind

/-- A text in which no comment can begin. -/
theorem settled_of_notMem {s : Text} (h : '/' ∉ s) :
    Settled afterComment s ∧ Settled afterLine s := by
  have hpre : ∀ x t, t ≠ [] → t <:+ s → ∀ w, ¬ ['/', x] <+: t ++ w := by
    intro x t ht hsuffix w hpre
    rcases t with _ | ⟨y, t⟩
    · exact ht rfl
    · obtain rfl : '/' = y := (List.cons_prefix_cons.1 hpre).1
      exact h (hsuffix.subset List.mem_cons_self)
  constructor
  · exact Settled.of_forall fun t ht hsuffix w ↦
      afterComment_of_not_isPrefix (hpre _ t ht hsuffix w)
  · exact Settled.of_forall fun t ht hsuffix w ↦
      afterLine_of_not_isPrefix (hpre _ t ht hsuffix w)

/-- **The ending ends itself.** -/
theorem closed_ending : Closed ending := by
  have hcomments : noComments ending = " ''\n;".toList := by decide +kernel
  have hlines : noLines " ''\n;".toList = " ''\n;".toList := by decide +kernel
  refine ⟨?_, ?_, ?_, by decide +kernel⟩
  · have hclose : closeComment "*/''\n;".toList = some "''\n;".toList := by decide
    show Settled afterComment ('/' :: '*' :: "*/''\n;".toList)
    exact Settled.found hclose (stable_afterComment hclose) (settled_of_notMem (by decide)).1
  · rw [hcomments]
    exact (settled_of_notMem (by decide)).2
  · rw [hcomments, hlines]
    have hrest : Quiet "\n;".toList := ⟨by decide, by decide, by decide, by decide⟩
    have hliteral : Stable afterLiteral ('\'' :: '\'' :: "\n;".toList) := fun w ↦
      closeLiteral_quote ("\n;".toList ++ w)
    have hfound : Settled afterLiteral ('\'' :: '\'' :: "\n;".toList) :=
      Settled.found (closeLiteral_quote _) hliteral hrest.settled_literals
    show Settled afterLiteral (' ' :: '\'' :: '\'' :: "\n;".toList)
    exact hfound.skip rfl fun w ↦ rfl

/-! ### What is taken -/

section Taken

variable {a s : Text}

/-- The last character stays at the end of what is left to look at. -/
theorem getLast?_of_suffix {u : Text} (hu : u ≠ []) (hsuffix : u <:+ a) :
    u.getLast? = a.getLast? := by
  obtain ⟨l, rfl⟩ := hsuffix
  rw [List.getLast?_append_of_ne_nil _ hu]

/-- An open comment takes all up to `*/`. -/
theorem count_of_open_comment (hlast : a.getLast? = some '}') (hopen : ¬ Settled afterComment a)
    (hs : ∀ x ∈ s, isNameChar x = true) :
    (noComments (a ++ (s ++ ending))).count 'z' ≤ a.count 'z' := by
  obtain ⟨p, u, hu, hsuffix, hunstable, hcount, hsub⟩ :=
    Settled.exists_unstable finds_blockComment hopen [' '] (x := 'z') (by decide)
  have hfind : afterComment (u ++ (s ++ ending)) = some "''\n;".toList := by
    rw [afterComment_of_unstable hu (getLast?_of_suffix hu hsuffix ▸ hlast) hunstable,
      closeComment_behind hs]
  have hrest : noComments (a ++ (s ++ ending)) = p ++ " ''\n;".toList := by
    rw [noComments, hsub, finds_blockComment.sub_found hfind]
    exact congrArg _ (show noComments " ''\n;".toList = _ by decide +kernel)
  rw [hrest, List.count_append]
  exact hcount

/-- A line comment takes the rest of the line. -/
theorem count_of_open_line (hlast : a.getLast? = some '}') (hopen : ¬ Settled afterLine a)
    (hs : ∀ x ∈ s, isNameChar x = true) :
    (noLines (a ++ (s ++ " ''\n;".toList))).count 'z' ≤ a.count 'z' := by
  obtain ⟨p, u, hu, hsuffix, hunstable, hcount, hsub⟩ :=
    Settled.exists_unstable finds_lineComment hopen [' '] (x := 'z') (by decide)
  have hfind : afterLine (u ++ (s ++ " ''\n;".toList)) = some "\n;".toList := by
    rw [afterLine_of_unstable hu (getLast?_of_suffix hu hsuffix ▸ hlast) hunstable,
      dropWhile_behind hs]
  have hrest : noLines (a ++ (s ++ " ''\n;".toList)) = p ++ " \n;".toList := by
    rw [noLines, hsub, finds_lineComment.sub_found hfind]
    exact congrArg _ (show noLines " \n;".toList = _ by decide +kernel)
  rw [hrest, List.count_append]
  exact hcount

/-- An open literal takes all up to the next quote. -/
theorem count_of_open_literal (hlast : a.getLast? = some '}') (hopen : ¬ Settled afterLiteral a)
    (hs : ∀ x ∈ s, isNameChar x = true) :
    (noLiterals (a ++ (s ++ " ''\n;".toList))).count 'z' ≤ a.count 'z' := by
  obtain ⟨p, u, hu, hsuffix, hunstable, hcount, hsub⟩ :=
    Settled.exists_unstable finds_charLiteral hopen [' '] (x := 'z') (by decide)
  have hfind : afterLiteral (u ++ (s ++ " ''\n;".toList)) = some "'\n;".toList := by
    rw [afterLiteral_of_unstable hu (getLast?_of_suffix hu hsuffix ▸ hlast) hunstable,
      closeLiteral_behind hs]
  have hrest : noLiterals (a ++ (s ++ " ''\n;".toList)) = p ++ " '\n;".toList := by
    rw [noLiterals, hsub, finds_charLiteral.sub_found hfind]
    exact congrArg _ (show noLiterals " '\n;".toList = _ by decide +kernel)
  rw [hrest, List.count_append]
  exact hcount

/-- An open brace takes all that is left. -/
theorem count_of_open_brace (hopen : depthFrom 0 a ≠ 0) (hs : ∀ x ∈ s, isNameChar x = true) :
    (stripBraces (a ++ (s ++ "  \n;".toList))).count 'z' ≤ a.count 'z' := by
  have hclose : ∀ x ∈ s ++ "  \n;".toList, x ≠ '}' := by
    intro x hx
    rcases List.mem_append.1 hx with hx | hx
    · exact (isPlain_of_isNameChar (hs x hx)).2.2.2
    · exact fun heq ↦ absurd (heq ▸ hx) (by decide)
  rw [stripBraces, stripFrom_append, stripFrom_of_pos hclose hopen, List.append_nil]
  exact count_stripFrom_le 'z' 0 a

/-- The last character of a block stays the last one. -/
theorem getLast?_noComments (hlast : a.getLast? = some '}') (h : Settled afterComment a) :
    (noComments a).getLast? = some '}' := by
  rw [← hlast]
  refine h.getLast?_sub finds_blockComment [' '] fun t hsuffix _ ↦ ?_
  rcases t with _ | ⟨x, t⟩
  · exact fun h ↦ by cases h
  · exact afterComment_ne_nil (getLast?_of_suffix (List.cons_ne_nil x t) hsuffix ▸ hlast)

theorem getLast?_noLines (hlast : a.getLast? = some '}') (h : Settled afterLine a) :
    (noLines a).getLast? = some '}' := by
  rw [← hlast]
  exact h.getLast?_sub finds_lineComment [' '] fun t _ hstable ↦ afterLine_ne_nil hstable

/-- **A block that is not closed takes the text behind it**: no more letters are left than there
were in the block. -/
theorem count_passes_block_le (hlast : a.getLast? = some '}') (hopen : ¬ Closed a)
    (hs : ∀ x ∈ s, isNameChar x = true) :
    (passes (a ++ (s ++ ending))).count 'z' ≤ a.count 'z' := by
  have hz : 'z' ≠ ' ' := by decide
  rw [passes]
  -- the first pass that is in the middle of something takes the text, and the others add nothing
  by_cases hcomments : Settled afterComment a
  · have hfirst : noComments (a ++ (s ++ ending)) = noComments a ++ (s ++ " ''\n;".toList) :=
      (hcomments.sub_append finds_blockComment _ _).trans (congrArg _ (noComments_behind hs))
    have hlast₁ := getLast?_noComments hlast hcomments
    rw [hfirst]
    refine Nat.le_trans ?_ (count_noComments_le hz a)
    by_cases hlines : Settled afterLine (noComments a)
    · have hsecond : noLines (noComments a ++ (s ++ " ''\n;".toList)) =
          noLines (noComments a) ++ (s ++ " ''\n;".toList) :=
        (hlines.sub_append finds_lineComment _ _).trans (congrArg _ (noLines_behind hs))
      have hlast₂ := getLast?_noLines hlast₁ hlines
      rw [hsecond]
      refine Nat.le_trans ?_ (count_noLines_le hz _)
      by_cases hliterals : Settled afterLiteral (noLines (noComments a))
      · have hthird : noLiterals (noLines (noComments a) ++ (s ++ " ''\n;".toList)) =
            noLiterals (noLines (noComments a)) ++ (s ++ "  \n;".toList) :=
          (hliterals.sub_append finds_charLiteral _ _).trans (congrArg _ (noLiterals_behind hs))
        rw [hthird]
        have hdepth : depthFrom 0 (noLiterals (noLines (noComments a))) ≠ 0 := fun hzero ↦
          hopen ⟨hcomments, hlines, hliterals, hzero⟩
        exact (count_of_open_brace hdepth hs).trans (count_noLiterals_le hz _)
      · exact (count_stripFrom_le 'z' 0 _).trans (count_of_open_literal hlast₂ hliterals hs)
    · exact ((count_stripFrom_le 'z' 0 _).trans (count_noLiterals_le hz _)).trans
        (count_of_open_line hlast₁ hlines hs)
  · exact (((count_stripFrom_le 'z' 0 _).trans (count_noLiterals_le hz _)).trans
      (count_noLines_le hz _)).trans (count_of_open_comment hlast hcomments hs)

end Taken

end FirebirdSamples.Grammar
