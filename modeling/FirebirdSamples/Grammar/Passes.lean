import FirebirdSamples.Grammar.Braces

/-!
# The passes, piece by piece

Three of the four passes substitute. What each of them finds in front of a text is a small function
of the text: `afterComment`, `afterLine`, `afterLiteral`. The fourth pass counts braces.

A grammar is put together from pieces, such as action blocks and the texts between them. A piece is
`Closed` if no pass is in the middle of something at its end: there is no open comment, no line
comment on the last line, no open character literal and no open brace. Closed pieces can be passed
one by one (`passes_flatten`), which is how everything about the whole section is proved.
-/

namespace FirebirdSamples.Grammar

open Regex

/-! ### Block comments -/

/-- The text behind the first `*/`. -/
def closeComment : Text → Option Text
  | [] => none
  | x :: t => if ['*', '/'] <+: x :: t then some t.tail else closeComment t

/-- The text behind a block comment. -/
def afterComment : Text → Option Text
  | '/' :: '*' :: t => closeComment t
  | _ => none

theorem closeComment_suffix {s u : Text} (h : closeComment s = some u) : u <:+ s := by
  induction s with
  | nil => cases h
  | cons x t ih =>
    rw [closeComment] at h
    split_ifs at h with hpre
    · obtain rfl := Option.some.inj h
      exact (List.tail_suffix t).trans (List.suffix_cons x t)
    · exact (ih h).trans (List.suffix_cons x t)

theorem afterComment_of_not_isPrefix {s : Text} (h : ¬ ['/', '*'] <+: s) :
    afterComment s = none := by
  rw [afterComment.eq_def]
  split
  · exact absurd ⟨_, rfl⟩ h
  · rfl

/-- The lazy part of the expression goes to the first `*/`. -/
theorem head?_closeComment (b : Bool) (s : Text) (g : List Text) :
    (((run (lazy any) ⟨b, s, g⟩).flatMap (run (text ['*', '/']))).head?).map Pos.rest =
      closeComment s := by
  induction s generalizing b with
  | nil =>
    rw [run_lazy_any_nil rfl, List.flatMap_singleton, run_text_of_not_isPrefix (by simp)]
    rfl
  | cons x t ih =>
    rw [run_lazy_any_cons rfl, List.flatMap_cons, closeComment]
    split_ifs with hpre
    · obtain ⟨u, hu⟩ := hpre
      obtain ⟨b', hb'⟩ := run_text_append ['*', '/'] b u g
      rw [← hu, hb', (List.cons.inj hu).2.symm]
      rfl
    · rw [run_text_of_not_isPrefix hpre, List.nil_append]
      exact ih _

theorem finds_blockComment : Finds blockComment afterComment where
  head?_rest := by
    intro b s
    rw [blockComment, run_seq]
    by_cases hpre : ['/', '*'] <+: s
    · obtain ⟨t, rfl⟩ := hpre
      obtain ⟨b', hb'⟩ := run_text_append ['/', '*'] b t []
      rw [hb', List.flatMap_singleton, run_seq]
      exact head?_closeComment b' t []
    · rw [run_text_of_not_isPrefix hpre, afterComment_of_not_isPrefix hpre]
      rfl
  exists_append := by
    intro s u h
    by_cases hpre : ['/', '*'] <+: s
    · obtain ⟨t, rfl⟩ := hpre
      obtain ⟨m, rfl⟩ := closeComment_suffix h
      exact ⟨['/', '*'] ++ m, by simp, by simp⟩
    · rw [afterComment_of_not_isPrefix hpre] at h
      cases h

/-! ### Line comments -/

/-- The text behind a line comment. -/
def afterLine : Text → Option Text
  | '/' :: '/' :: t => some (t.dropWhile (· != '\n'))
  | _ => none

theorem afterLine_of_not_isPrefix {s : Text} (h : ¬ ['/', '/'] <+: s) : afterLine s = none := by
  rw [afterLine.eq_def]
  split
  · exact absurd ⟨_, rfl⟩ h
  · rfl

theorem finds_lineComment : Finds lineComment afterLine where
  head?_rest := by
    intro b s
    rw [lineComment, run_seq]
    by_cases hpre : ['/', '/'] <+: s
    · obtain ⟨t, rfl⟩ := hpre
      obtain ⟨b', hb'⟩ := run_text_append ['/', '/'] b t []
      obtain ⟨b'', hb''⟩ := head?_run_star_one (· != '\n') ⟨b', t, []⟩
      rw [hb', List.flatMap_singleton, hb'']
      rfl
    · rw [run_text_of_not_isPrefix hpre, afterLine_of_not_isPrefix hpre]
      rfl
  exists_append := by
    intro s u h
    by_cases hpre : ['/', '/'] <+: s
    · obtain ⟨t, rfl⟩ := hpre
      obtain rfl := Option.some.inj h
      obtain ⟨m, hm⟩ := List.dropWhile_suffix (fun x : Char ↦ x != '\n') (l := t)
      exact ⟨['/', '/'] ++ m, by simp, by rw [List.append_assoc]; exact congrArg _ hm.symm⟩
    · rw [afterLine_of_not_isPrefix hpre] at h
      cases h

/-! ### Character literals -/

/-- The text behind the quote that closes a literal. -/
def closeLiteral : Text → Option Text
  | [] => none
  | x :: t =>
    if x = '\'' then some t
    else if x = '\\' then
      match t with
      | [] => none
      | y :: t' => if y = '\n' then none else closeLiteral t'
    else closeLiteral t

/-- The text behind a character literal. -/
def afterLiteral : Text → Option Text
  | '\'' :: t => closeLiteral t
  | _ => none

theorem afterLiteral_of_head? {s : Text} (h : s.head? ≠ some '\'') : afterLiteral s = none := by
  rw [afterLiteral.eq_def]
  split
  · exact absurd rfl h
  · rfl

theorem closeLiteral_quote (t : Text) : closeLiteral ('\'' :: t) = some t := by
  rw [closeLiteral.eq_def]
  simp

theorem closeLiteral_escape {y : Char} (hy : y ≠ '\n') (t : Text) :
    closeLiteral ('\\' :: y :: t) = closeLiteral t := by
  rw [closeLiteral.eq_def]
  simp [hy]

theorem closeLiteral_stuck (t : Text) : closeLiteral ('\\' :: '\n' :: t) = none := by
  rw [closeLiteral.eq_def]
  simp

theorem closeLiteral_other {x : Char} (hx : x ≠ '\'') (hx' : x ≠ '\\') (t : Text) :
    closeLiteral (x :: t) = closeLiteral t := by
  rw [closeLiteral.eq_def]
  simp [hx, hx']

theorem closeLiteral_suffix {s u : Text} (h : closeLiteral s = some u) : u <:+ s := by
  induction s using closeLiteral.induct with
  | case1 => cases h
  | case2 t =>
    rw [closeLiteral_quote] at h
    obtain rfl := Option.some.inj h
    exact List.suffix_cons _ _
  | case3 => cases h
  | case4 t => rw [closeLiteral_stuck] at h; cases h
  | case5 y t hy _ ih =>
    rw [closeLiteral_escape hy] at h
    exact (ih h).trans ((List.suffix_cons _ _).trans (List.suffix_cons _ _))
  | case6 x t hx hx' ih =>
    rw [closeLiteral_other hx hx'] at h
    exact (ih h).trans (List.suffix_cons _ _)

theorem run_literalChar_cons {x : Char} (hx : x ≠ '\'') (hx' : x ≠ '\\') (b : Bool) (t : Text)
    (g : List Text) : run literalChar ⟨b, x :: t, g⟩ = [⟨x == '\n', t, g⟩] := by
  have hlit : run (lit '\\') ⟨b, x :: t, g⟩ = [] :=
    run_lit_of_ne (by simpa using hx') b g
  rw [literalChar, run_alt, run_seq, hlit, run_one_cons rfl, if_pos (by simp [hx, hx'])]
  rfl

theorem run_literalChar_escape {y : Char} (hy : y ≠ '\n') (b : Bool) (t : Text) (g : List Text) :
    run literalChar ⟨b, '\\' :: y :: t, g⟩ = [⟨y == '\n', t, g⟩] := by
  rw [literalChar, run_alt, run_seq, run_lit_cons, run_one_cons rfl, if_neg (by decide),
    List.flatMap_singleton, run_one_cons rfl, if_pos (by simpa using hy)]
  rfl

/-- Neither a quote, nor a backslash at the end of a line or of the text. -/
theorem run_literalChar_stop {s : Text} (hs : ∀ x t, s = x :: t → x = '\'' ∨
      x = '\\' ∧ ∀ y u, t = y :: u → y = '\n') (b : Bool) (g : List Text) :
    run literalChar ⟨b, s, g⟩ = [] := by
  rw [literalChar, run_alt, run_seq]
  rcases s with _ | ⟨x, t⟩
  · rw [run_one_nil rfl, run_lit_of_ne (by simp)]
    rfl
  · rcases hs x t rfl with rfl | ⟨rfl, ht⟩
    · rw [run_one_cons rfl, if_neg (by decide), run_lit_of_ne (by simp)]
      rfl
    · rw [run_one_cons rfl, if_neg (by decide), run_lit_cons, List.flatMap_singleton]
      rcases t with _ | ⟨y, u⟩
      · rw [run_one_nil rfl]
        rfl
      · rw [run_one_cons rfl, ht y u rfl, if_neg (by decide)]
        rfl

/-- The repeated part of the expression goes to the quote that closes the literal: no other way to
stop has a quote behind it. -/
theorem head?_closeLiteral (b : Bool) (s : Text) (g : List Text) :
    (((run (star literalChar) ⟨b, s, g⟩).flatMap (run (lit '\''))).head?).map Pos.rest =
      closeLiteral s := by
  induction s using closeLiteral.induct generalizing b with
  | case1 =>
    rw [run_star, run_literalChar_stop (by simp), List.flatMap_nil, List.nil_append,
      List.flatMap_singleton, run_lit_of_ne (by simp)]
    rfl
  | case2 t =>
    rw [run_star, run_literalChar_stop (by simp), List.flatMap_nil, List.nil_append,
      List.flatMap_singleton, run_lit_cons, closeLiteral_quote]
    rfl
  | case3 =>
    rw [run_star, run_literalChar_stop (by simp), List.flatMap_nil, List.nil_append,
      List.flatMap_singleton, run_lit_of_ne (by simp)]
    rfl
  | case4 t =>
    rw [run_star, run_literalChar_stop (by simp), List.flatMap_nil, List.nil_append,
      List.flatMap_singleton, run_lit_of_ne (by simp), closeLiteral_stuck]
    rfl
  | case5 y t hy _ ih =>
    have hlt : t.length < ('\\' :: y :: t).length := Nat.lt_succ_of_lt (Nat.lt_succ_self _)
    rw [run_star, run_literalChar_escape hy, List.flatMap_singleton, if_pos hlt,
      List.flatMap_append, List.flatMap_singleton, run_lit_of_ne (by simp), List.append_nil,
      closeLiteral_escape hy]
    exact ih _
  | case6 x t hx hx' ih =>
    have hlt : t.length < (x :: t).length := Nat.lt_succ_self _
    rw [run_star, run_literalChar_cons hx hx', List.flatMap_singleton, if_pos hlt,
      List.flatMap_append, List.flatMap_singleton, run_lit_of_ne (by simpa using hx),
      List.append_nil, closeLiteral_other hx hx']
    exact ih _

theorem finds_charLiteral : Finds charLiteral afterLiteral where
  head?_rest := by
    intro b s
    rw [charLiteral, run_seq]
    by_cases hs : s.head? = some '\''
    · obtain ⟨t, rfl⟩ := List.head?_eq_some_iff.1 hs
      rw [run_lit_cons, List.flatMap_singleton, run_seq]
      exact head?_closeLiteral _ t []
    · rw [run_lit_of_ne hs, afterLiteral_of_head? hs]
      rfl
  exists_append := by
    intro s u h
    by_cases hs : s.head? = some '\''
    · obtain ⟨t, rfl⟩ := List.head?_eq_some_iff.1 hs
      obtain ⟨m, rfl⟩ := closeLiteral_suffix h
      exact ⟨'\'' :: m, List.cons_ne_nil _ _, rfl⟩
    · rw [afterLiteral_of_head? hs] at h
      cases h

/-! ### Closed pieces -/

/-- **A closed piece**: no pass is in the middle of something at its end. -/
structure Closed (t : Text) : Prop where
  /-- No comment is open. -/
  comments : Settled afterComment t
  /-- No line comment goes on. -/
  lines : Settled afterLine (noComments t)
  /-- No character literal is open. -/
  literals : Settled afterLiteral (noLines (noComments t))
  /-- No brace is open. -/
  braces : depthFrom 0 (noLiterals (noLines (noComments t))) = 0

theorem Closed.nil : Closed [] :=
  ⟨Settled.nil, Settled.nil, Settled.nil, rfl⟩

/-- **A closed piece is passed by itself.** -/
theorem Closed.passes_append {t : Text} (h : Closed t) (w : Text) :
    passes (t ++ w) = passes t ++ passes w := by
  have hcomments : noComments (t ++ w) = noComments t ++ noComments w :=
    h.comments.sub_append finds_blockComment _ _
  have hlines : noLines (noComments t ++ noComments w) =
      noLines (noComments t) ++ noLines (noComments w) :=
    h.lines.sub_append finds_lineComment _ _
  have hliterals : noLiterals (noLines (noComments t) ++ noLines (noComments w)) =
      noLiterals (noLines (noComments t)) ++ noLiterals (noLines (noComments w)) :=
    h.literals.sub_append finds_charLiteral _ _
  rw [passes, hcomments, hlines, hliterals, stripBraces, stripFrom_append, h.braces]
  rfl

theorem Closed.append {s t : Text} (hs : Closed s) (ht : Closed t) : Closed (s ++ t) := by
  have hcomments : noComments (s ++ t) = noComments s ++ noComments t :=
    hs.comments.sub_append finds_blockComment _ _
  have hlines : noLines (noComments s ++ noComments t) =
      noLines (noComments s) ++ noLines (noComments t) :=
    hs.lines.sub_append finds_lineComment _ _
  have hliterals : noLiterals (noLines (noComments s) ++ noLines (noComments t)) =
      noLiterals (noLines (noComments s)) ++ noLiterals (noLines (noComments t)) :=
    hs.literals.sub_append finds_charLiteral _ _
  refine ⟨hs.comments.append ht.comments, ?_, ?_, ?_⟩
  · rw [hcomments]
    exact hs.lines.append ht.lines
  · rw [hcomments, hlines]
    exact hs.literals.append ht.literals
  · rw [hcomments, hlines, hliterals, depthFrom_append, hs.braces]
    exact ht.braces

/-- A closed piece, and what the passes leave of it. -/
structure PassesTo (t u : Text) : Prop where
  /-- The piece is closed. -/
  closed : Closed t
  /-- What is left. -/
  passes_eq : passes t = u

namespace PassesTo

variable {s t u v : Text}

theorem nil : PassesTo [] [] :=
  ⟨Closed.nil, rfl⟩

/-- **The passes, piece by piece.** -/
theorem append (hs : PassesTo s u) (ht : PassesTo t v) : PassesTo (s ++ t) (u ++ v) := by
  refine ⟨hs.closed.append ht.closed, ?_⟩
  rw [hs.closed.passes_append, hs.passes_eq, ht.passes_eq]

theorem flatMap {α : Type} {f g : α → Text} {l : List α} (h : ∀ a ∈ l, PassesTo (f a) (g a)) :
    PassesTo (l.flatMap f) (l.flatMap g) := by
  induction l with
  | nil => exact nil
  | cons a l ih =>
    rw [List.flatMap_cons, List.flatMap_cons]
    exact (h a List.mem_cons_self).append (ih fun b hb ↦ h b (List.mem_cons_of_mem a hb))

end PassesTo

/-! ### Texts without comments and literals -/

/-- Two characters with which a text does not begin, even if it goes on. -/
theorem not_prefix_append {t : Text} {x y : Char} (h : ¬ [x, y] <+: t) (ht : t ≠ [])
    (hlast : t.getLast? ≠ some x) (w : Text) : ¬ [x, y] <+: t ++ w := by
  rintro ⟨v, hv⟩
  rcases t with _ | ⟨a, _ | ⟨b, t⟩⟩
  · exact ht rfl
  · obtain ⟨rfl, -⟩ := List.cons.inj hv
    exact hlast rfl
  · obtain ⟨hx, hv⟩ := List.cons.inj hv
    obtain ⟨hy, -⟩ := List.cons.inj hv
    exact h ⟨t, by simp [hx, hy]⟩

/-- Two characters that a text does not have, even if it goes on. -/
theorem not_isPrefix_of_not_isInfix {s t : Text} {x y : Char} (h : ¬ [x, y] <:+: s)
    (hlast : s.getLast? ≠ some x) (ht : t ≠ []) (hsuffix : t <:+ s) (w : Text) :
    ¬ [x, y] <+: t ++ w := by
  refine not_prefix_append (fun hpre ↦ h (hpre.isInfix.trans hsuffix.isInfix)) ht ?_ w
  obtain ⟨r, rfl⟩ := hsuffix
  rwa [List.getLast?_append_of_ne_nil _ ht] at hlast

/-- **A text that the first three passes leave alone.** -/
structure Quiet (s : Text) : Prop where
  /-- No comment begins. -/
  no_comment : ¬ ['/', '*'] <:+: s
  /-- No line comment begins. -/
  no_line : ¬ ['/', '/'] <:+: s
  /-- None could begin at the end. -/
  getLast? : s.getLast? ≠ some '/'
  /-- No literal begins. -/
  no_quote : '\'' ∉ s

namespace Quiet

variable {s : Text}

theorem settled_comments (h : Quiet s) : Settled afterComment s :=
  Settled.of_forall fun _ ht hsuffix w ↦ afterComment_of_not_isPrefix
    (not_isPrefix_of_not_isInfix h.no_comment h.getLast? ht hsuffix w)

theorem settled_lines (h : Quiet s) : Settled afterLine s :=
  Settled.of_forall fun _ ht hsuffix w ↦ afterLine_of_not_isPrefix
    (not_isPrefix_of_not_isInfix h.no_line h.getLast? ht hsuffix w)

theorem settled_literals (h : Quiet s) : Settled afterLiteral s := by
  refine Settled.of_forall fun t ht hsuffix w ↦ afterLiteral_of_head? ?_
  rcases t with _ | ⟨x, t⟩
  · exact absurd rfl ht
  · exact fun hx ↦ h.no_quote (hsuffix.subset (Option.some.inj hx ▸ List.mem_cons_self))

theorem noComments_eq (h : Quiet s) : noComments s = s :=
  finds_blockComment.sub_eq_self _ fun _ hsuffix ↦ afterComment_of_not_isPrefix
    fun hpre ↦ h.no_comment (hpre.isInfix.trans hsuffix.isInfix)

theorem noLines_eq (h : Quiet s) : noLines s = s :=
  finds_lineComment.sub_eq_self _ fun _ hsuffix ↦ afterLine_of_not_isPrefix
    fun hpre ↦ h.no_line (hpre.isInfix.trans hsuffix.isInfix)

theorem noLiterals_eq (h : Quiet s) : noLiterals s = s :=
  finds_charLiteral.sub_eq_self _ fun _ hsuffix ↦ afterLiteral_of_head? fun ht ↦
    h.no_quote (hsuffix.subset (List.mem_of_mem_head? ht))

/-- Of such a text the braces decide. -/
theorem passesTo (h : Quiet s) (hdepth : depthFrom 0 s = 0) : PassesTo s (stripBraces s) where
  closed := by
    refine ⟨h.settled_comments, ?_, ?_, ?_⟩
    · rw [h.noComments_eq]
      exact h.settled_lines
    · rw [h.noComments_eq, h.noLines_eq]
      exact h.settled_literals
    · rw [h.noComments_eq, h.noLines_eq, h.noLiterals_eq, hdepth]
  passes_eq := by
    rw [passes, h.noComments_eq, h.noLines_eq, h.noLiterals_eq]

end Quiet

/-- A character that no pass looks at. -/
def IsPlain (x : Char) : Prop :=
  x ≠ '/' ∧ x ≠ '\'' ∧ x ≠ '{' ∧ x ≠ '}'

theorem isPlain_of_isNameChar {x : Char} (h : isNameChar x = true) : IsPlain x := by
  refine ⟨?_, ?_, ?_, ?_⟩ <;> rintro rfl <;> exact absurd h (by decide)

theorem quiet_of_plain {s : Text} (h : ∀ x ∈ s, IsPlain x) : Quiet s where
  no_comment := fun hin ↦ (h '/' (hin.subset List.mem_cons_self)).1 rfl
  no_line := fun hin ↦ (h '/' (hin.subset List.mem_cons_self)).1 rfl
  getLast? := fun hlast ↦ (h '/' (List.mem_of_mem_getLast? hlast)).1 rfl
  no_quote := fun hquote ↦ (h '\'' hquote).2.1 rfl

theorem stripFrom_of_plain {s : Text} (h : ∀ x ∈ s, IsPlain x) :
    stripFrom 0 s = s ∧ depthFrom 0 s = 0 := by
  induction s with
  | nil => exact ⟨rfl, rfl⟩
  | cons x s ih =>
    obtain ⟨-, -, hopen, hclose⟩ := h x List.mem_cons_self
    obtain ⟨hstrip, hdepth⟩ := ih fun y hy ↦ h y (List.mem_cons_of_mem x hy)
    rw [stripFrom, if_neg hopen, if_neg hclose, if_pos rfl, hstrip, depthFrom, if_neg hopen,
      if_neg hclose, hdepth]
    exact ⟨rfl, rfl⟩

/-- **A plain text is passed as it is.** -/
theorem passesTo_of_plain {s : Text} (h : ∀ x ∈ s, IsPlain x) : PassesTo s s := by
  obtain ⟨hstrip, hdepth⟩ := stripFrom_of_plain h
  have := (quiet_of_plain h).passesTo hdepth
  rwa [stripBraces, hstrip] at this

end FirebirdSamples.Grammar
