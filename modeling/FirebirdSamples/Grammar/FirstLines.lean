import FirebirdSamples.Grammar.Parse

/-!
# What the token expression captures

The expression for the tokens looks for `%token` at the beginnings of lines, in the text of the file
as it is. What it captures is one line: the one on which, behind `%token` and perhaps a tag, the
next thing that is no white space stands. `firstLines` are these lines, read off the text without an
expression, and `captures_tokenLine` says that they are what the search captures.

So the tokens are the words of the first lines that look like the name of a token
(`mem_parseTokens`).
-/

namespace FirebirdSamples.Grammar

open Regex Words

/-! ### Names of tokens -/

/-- `[A-Z]`. -/
def isTokenStart (x : Char) : Bool :=
  'A' ≤ x && x ≤ 'Z'

/-- `[A-Z0-9_]`. -/
def isTokenChar (x : Char) : Bool :=
  ('A' ≤ x && x ≤ 'Z') || ('0' ≤ x && x ≤ '9') || x == '_'

/-- The name of a token in capitals, `[A-Z][A-Z0-9_]*`. -/
def IsTokenName : Text → Prop
  | [] => False
  | x :: t => isTokenStart x = true ∧ ∀ y ∈ t, isTokenChar y = true

instance : DecidablePred IsTokenName
  | [] => inferInstanceAs (Decidable False)
  | x :: t => inferInstanceAs (Decidable (isTokenStart x = true ∧ ∀ y ∈ t, isTokenChar y = true))

theorem tokenName_eq : tokenName = seq (one isTokenStart) (star (one isTokenChar)) := rfl

theorem fullmatch_tokenName {n : Text} : fullmatch tokenName n = true ↔ IsTokenName n := by
  rcases n with _ | ⟨x, t⟩
  · rw [fullmatch, tokenName_eq, run_seq, run_one_nil rfl]
    exact iff_of_false (by decide) (by exact id)
  · rw [fullmatch, tokenName_eq, run_seq, run_one_cons rfl, IsTokenName]
    by_cases hx : isTokenStart x = true
    · rw [if_pos hx, List.flatMap_singleton, any_run_star_one, and_iff_right hx]
      exact List.all_eq_true
    · rw [if_neg hx]
      exact iff_of_false (by decide) fun h ↦ hx h.1

/-! ### First lines -/

/-- What separates words: white space and commas. -/
def isSeparator (x : Char) : Bool :=
  isSpace x || x == ','

/-- No line end. -/
def isInLine (x : Char) : Bool :=
  x != '\n'

/-- No end of a tag. -/
def isInTag (x : Char) : Bool :=
  x != '>'

/-- The rest of a line, and the text from the end of the line on. -/
def restOfLine (t : Text) : Text × Text :=
  (t.takeWhile isInLine, t.dropWhile isInLine)

/-- The next line with anything on it but white space. The white space in front is passed over; if
there is nothing else up to the end of the text, the last blank that is no line end is the line. -/
def lineFrom : Text → Option (Text × Text)
  | [] => none
  | x :: t =>
    if isSpace x then
      (lineFrom t).or (if x = '\n' then none else some (restOfLine (x :: t)))
    else
      some (restOfLine (x :: t))

/-- The same, behind at least one blank. -/
def nextLine : Text → Option (Text × Text)
  | [] => none
  | x :: t => if isSpace x then lineFrom t else none

/-- The text behind a tag in angle brackets, if there is one. -/
def behindBrackets : Text → Option Text
  | [] => none
  | x :: u => if x = '<' ∧ '>' ∈ u then some (u.dropWhile isInTag).tail else none

/-- The same, behind at least one blank. -/
def behindTag : Text → Option Text
  | [] => none
  | x :: t => if isSpace x then behindBrackets (t.dropWhile isSpace) else none

/-- The line behind `%token`. A tag does not belong to it, unless there is no line behind the
tag. -/
def lineBehind (t : Text) : Option (Text × Text) :=
  ((behindTag t).bind nextLine).or (nextLine t)

/-- `%token`. -/
def tokenKeyword : Text :=
  "%token".toList

/-- The first line of a `%token` that begins a line. -/
def firstLineAt (b : Bool) (s : Text) : Option (Text × Text) :=
  if b = true ∧ tokenKeyword <+: s then lineBehind (s.drop tokenKeyword.length) else none

/-- **The first lines** of all `%token` that begin a line. The search for the next one goes on where
a first line ends. -/
def firstLines (src : Text) : List Text :=
  captured firstLineAt true src

/-- A word stands on a first line. -/
def OnFirstLine (src w : Text) : Prop :=
  ∃ l ∈ firstLines src, w ∈ words isSeparator l

/-! ### The token expression -/

/-- `(.+)$`. -/
def lineGroup : Regex :=
  seq (group (plus (one isInLine))) eol

/-- `\s+<[^>]*>`. -/
def tag : Regex :=
  seq (plus space) (seq (lit '<') (seq (star (one isInTag)) (lit '>')))

theorem tokenLine_eq : tokenLine =
    seq bol (seq (text tokenKeyword) (seq (opt tag) (seq (plus space) lineGroup))) := rfl

/-- Where the preferred match ends that captures a line. -/
def lineEnd (g : List Text) (p : Text × Text) : Pos :=
  ⟨false, p.2, g ++ [p.1]⟩

/-- What is passed over in a text. -/
theorem take_length_sub_dropWhile (p : Char → Bool) (s : Text) :
    s.take (s.length - (s.dropWhile p).length) = s.takeWhile p := by
  have hlen : s.length = (s.takeWhile p).length + (s.dropWhile p).length := by
    rw [← List.length_append, List.takeWhile_append_dropWhile]
  rw [hlen, Nat.add_sub_cancel]
  exact (List.prefix_iff_eq_take.1 (List.takeWhile_prefix p)).symm

/-- A line ends where its characters do. -/
theorem run_eol_restOfLine (t : Text) (g : List Text) :
    run eol ⟨false, t.dropWhile isInLine, g⟩ = [⟨false, t.dropWhile isInLine, g⟩] := by
  refine if_pos ?_
  rcases hrest : t.dropWhile isInLine with _ | ⟨y, u⟩
  · exact Or.inl rfl
  · have hy : y = '\n' := by
      simpa [isInLine] using eq_false_of_dropWhile_eq_cons hrest
    exact Or.inr (congrArg some hy)

/-- A line is captured up to its end. -/
theorem head?_run_lineGroup (b : Bool) (x : Char) (t : Text) (g : List Text) :
    (run lineGroup ⟨b, x :: t, g⟩).head? =
      if x = '\n' then none else some (lineEnd g (restOfLine (x :: t))) := by
  rw [lineGroup, run_seq, run_group, plus, run_seq, run_one_cons rfl]
  by_cases hx : x = '\n'
  · have hin : ¬ isInLine x = true := by simp [isInLine, hx]
    rw [if_neg hin, if_pos hx]
    rfl
  · have hin : isInLine x = true := by simp [isInLine, hx]
    have hbol : (x == '\n') = false := beq_eq_false_iff_ne.2 hx
    have hdrop : (x :: t).dropWhile isInLine = t.dropWhile isInLine :=
      List.dropWhile_cons_of_pos hin
    -- the longest line is the preferred one, and it ends at the end of a line
    obtain ⟨others, hothers⟩ := List.head?_eq_some_iff.1
      (head?_run_star_one_of_lineEnd (p := isInLine) rfl t g)
    rw [if_pos hin, if_neg hx, List.flatMap_singleton, Pos.advance, hbol, hothers, List.map_cons,
      List.flatMap_cons, Pos.capture]
    dsimp only
    rw [run_eol_restOfLine, ← hdrop, take_length_sub_dropWhile]
    rfl

theorem head?_run_lineFrom (b : Bool) (t : Text) (g : List Text) :
    (run (seq (star space) lineGroup) ⟨b, t, g⟩).head? = (lineFrom t).map (lineEnd g) := by
  induction t generalizing b with
  | nil =>
    rw [run_seq, space, run_star_one_stop (by simp), List.flatMap_singleton]
    rfl
  | cons x t ih =>
    rw [run_seq, space, lineFrom]
    by_cases hx : isSpace x = true
    · have hih := ih (x == '\n')
      rw [run_seq, space] at hih
      rw [run_star_one_cons rfl hx, List.flatMap_append, List.flatMap_singleton,
        List.head?_append, Pos.advance, hih, head?_run_lineGroup, if_pos hx]
      rcases lineFrom t with _ | p
      · split_ifs <;> rfl
      · rfl
    · have hne : x ≠ '\n' := fun heq ↦ hx (by rw [heq]; decide)
      rw [run_star_one_stop (by rintro y u ⟨⟩; exact Bool.eq_false_iff.2 hx),
        List.flatMap_singleton, head?_run_lineGroup, if_neg hx, if_neg hne]
      rfl

theorem head?_run_nextLine (b : Bool) (t : Text) (g : List Text) :
    (run (seq (plus space) lineGroup) ⟨b, t, g⟩).head? = (nextLine t).map (lineEnd g) := by
  have hassoc (c : Pos) : run (seq (plus space) lineGroup) c =
      (run space c).flatMap (run (seq (star space) lineGroup)) := by
    rw [run_seq, plus, run_seq, List.flatMap_assoc]
    rfl
  rw [hassoc, space]
  rcases t with _ | ⟨x, t⟩
  · rw [run_one_nil rfl]
    rfl
  · rw [run_one_cons rfl, nextLine]
    split_ifs with hx
    · rw [List.flatMap_singleton]
      exact head?_run_lineFrom _ t g
    · rfl

/-- The brackets of a tag can be matched in one way only, and not behind anything else. -/
theorem run_brackets (b : Bool) (t : Text) (g : List Text) :
    run (seq (lit '<') (seq (star (one isInTag)) (lit '>'))) ⟨b, t, g⟩ =
      (behindBrackets t).toList.map fun u ↦ ⟨false, u, g⟩ := by
  rw [run_seq]
  rcases t with _ | ⟨x, t⟩
  · rw [run_lit_of_ne (by simp)]
    rfl
  rw [behindBrackets]
  rcases eq_or_ne x '<' with rfl | hx
  · -- what is in the brackets goes up to the first closing one
    obtain ⟨b', hb'⟩ := flatMap_run_star_one_dropWhile (f := run (lit '>')) (p := isInTag)
      (fun c y u hrest hy ↦ by
        obtain ⟨b, s, g⟩ := c
        obtain rfl : s = y :: u := hrest
        exact run_lit_of_ne (by simpa [isInTag] using hy) _ _) ('<' == '\n') t g
    rw [run_lit_cons, List.flatMap_singleton, run_seq, hb']
    rcases hrest : t.dropWhile isInTag with _ | ⟨z, v⟩
    · have hmem : '>' ∉ t := fun hmem ↦ by
        have := List.dropWhile_eq_nil_iff.1 hrest '>' hmem
        cases this
      rw [run_lit_of_ne (by simp), if_neg fun h ↦ hmem h.2]
      rfl
    · obtain rfl : z = '>' := by
        simpa [isInTag] using eq_false_of_dropWhile_eq_cons hrest
      have hmem : '>' ∈ t :=
        (List.dropWhile_suffix isInTag).subset (hrest ▸ List.mem_cons_self)
      rw [run_lit_cons, if_pos ⟨rfl, hmem⟩]
      rfl
  · rw [run_lit_of_ne (by simpa using hx), if_neg fun h ↦ hx h.1]
    rfl

/-- A tag can be matched in one way only. -/
theorem run_tag (b : Bool) (t : Text) (g : List Text) :
    run tag ⟨b, t, g⟩ = (behindTag t).toList.map fun u ↦ ⟨false, u, g⟩ := by
  rw [tag, run_seq, plus, run_seq, space]
  rcases t with _ | ⟨x, t⟩
  · rw [run_one_nil rfl]
    rfl
  rw [run_one_cons rfl, behindTag]
  split_ifs with hx
  · -- the white space goes up to the angle bracket
    obtain ⟨b', hb'⟩ := flatMap_run_star_one_dropWhile
      (f := run (seq (lit '<') (seq (star (one isInTag)) (lit '>')))) (p := isSpace)
      (fun c y u hrest hy ↦ by
        obtain ⟨b, s, g⟩ := c
        obtain rfl : s = y :: u := hrest
        have hne : y ≠ '<' := fun heq ↦ by
          rw [heq] at hy
          cases hy
        rw [run_seq, run_lit_of_ne (by simpa using hne)]
        rfl) (x == '\n') t g
    rw [List.flatMap_singleton, Pos.advance, hb', run_brackets]
  · rfl

/-- What follows `%token`. -/
theorem head?_run_lineBehind (b : Bool) (t : Text) (g : List Text) :
    (run (seq (opt tag) (seq (plus space) lineGroup)) ⟨b, t, g⟩).head? =
      (lineBehind t).map (lineEnd g) := by
  rw [run_seq, opt, run_alt, run_empty, List.flatMap_append, List.flatMap_singleton,
    List.head?_append, head?_run_nextLine, run_tag, lineBehind]
  rcases behindTag t with _ | u
  · rfl
  · rw [Option.toList_some, List.map_singleton, List.flatMap_singleton, head?_run_nextLine,
      Option.bind_some]
    rcases nextLine u with _ | p <;> rfl

/-- **What the token expression captures** is a first line. -/
theorem captures_tokenLine : Captures tokenLine firstLineAt where
  head?_eq := by
    intro b s
    rw [tokenLine_eq, run_seq, firstLineAt]
    rcases b with _ | _
    · rw [if_neg (by simp)]
      rfl
    · by_cases hkey : tokenKeyword <+: s
      · obtain ⟨t, rfl⟩ := hkey
        obtain ⟨b', hb'⟩ := run_text_append tokenKeyword true t []
        rw [run, if_pos rfl, List.flatMap_singleton, run_seq, hb', List.flatMap_singleton,
          head?_run_lineBehind, if_pos ⟨rfl, List.prefix_append _ _⟩, List.drop_left]
        rfl
      · rw [run, if_pos rfl, List.flatMap_singleton, run_seq, run_text_of_not_isPrefix hkey,
          if_neg fun h ↦ hkey h.2]
        rfl
  length_lt := by
    intro b s l u h
    rw [firstLineAt] at h
    split_ifs at h with hkey
    obtain ⟨t, rfl⟩ := hkey.2
    have hrun := head?_run_lineBehind true t []
    rw [List.drop_left] at h
    rw [h] at hrun
    have hsuffix := suffix_of_mem_run (List.mem_of_mem_head? hrun)
    have hlen := hsuffix.length_le
    rw [List.length_append]
    exact Nat.lt_of_le_of_lt hlen (Nat.lt_add_of_pos_left (by decide))

/-! ### The tokens -/

theorem words_strip (s : Text) : words isSeparator (strip s) = words isSeparator s := by
  have hsep : ∀ x, isSpace x = true → isSeparator x = true := fun x hx ↦ by
    rw [isSeparator, hx]
    rfl
  exact (words_rdropWhile hsep _).trans (words_dropWhile hsep s)

/-- **The tokens** are the words of the first lines that are names of tokens. -/
theorem mem_parseTokens {src n : Text} :
    n ∈ parseTokens src ↔ OnFirstLine src n ∧ IsTokenName n := by
  have hwords : ∀ l, IsTokenName n →
      (n ∈ Regex.split blanks (strip l) ↔ n ∈ words isSeparator l) := by
    intro l hn
    have hne : n ≠ [] := fun hnil ↦ by
      rw [hnil] at hn
      exact hn
    rw [← words_strip, ← filter_split_run, List.mem_filter, and_iff_left (by simpa using hne)]
    rfl
  rw [parseTokens, captures_tokenLine.groups_finditer, List.mem_toFinset, List.mem_filter,
    List.mem_flatMap, fullmatch_tokenName, and_congr_left_iff]
  intro hn
  exact exists_congr fun l ↦ and_congr_right' (hwords l hn)

example : parseTokens "%token <t> FOO 1 BAR // two\n  BAZ\n".toList =
    {"FOO".toList, "BAR".toList} := by
  decide +kernel

end FirebirdSamples.Grammar
