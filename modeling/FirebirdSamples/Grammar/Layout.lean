import FirebirdSamples.Grammar.Declared

/-!
# Layouts that are read

The layout for which the token table is exact: every `%token` begins a line and has all its parts on
that line with blanks between them, aliases and comments on the line have no words in capitals, and
no other line of the file begins with `%token` (`tokensExact_of_laidOut`).

Outside the declarations of tokens the search captures nothing (`captured_append_of_noKeyword`), and
at each of them it captures the rest of the line, without the tag if there is one in front
(`firstLineAt_token`).
-/

namespace FirebirdSamples.Grammar

open Regex Words

/-! ### Texts in which nothing is captured -/

/-- Whether what follows begins a line. -/
def endsLine (b : Bool) (u : Text) : Bool :=
  u.getLast?.elim b (· == '\n')

/-- No line in it begins with `%token`, whatever follows. -/
def NoKeyword : Bool → Text → Prop
  | _, [] => True
  | b, x :: t =>
    (b = true → ¬ tokenKeyword <+: x :: t ∧ ¬ x :: t <+: tokenKeyword) ∧ NoKeyword (x == '\n') t

theorem firstLineAt_of_not {b : Bool} {s : Text} (h : b = true → ¬ tokenKeyword <+: s) :
    firstLineAt b s = none :=
  if_neg fun hkey ↦ h hkey.1 hkey.2

theorem endsLine_cons (b : Bool) (x : Char) (t : Text) :
    endsLine b (x :: t) = endsLine (x == '\n') t := by
  rw [endsLine, List.getLast?_cons, endsLine]
  rcases t.getLast? with _ | y <;> rfl

/-- **Nothing is captured** where no line begins with `%token`. -/
theorem captured_append_of_noKeyword {b : Bool} {u : Text} (hu : NoKeyword b u) (v : Text) :
    captured firstLineAt b (u ++ v) = captured firstLineAt (endsLine b u) v := by
  induction u generalizing b with
  | nil => rfl
  | cons x u ih =>
    obtain ⟨hx, hu⟩ := hu
    have hnone : firstLineAt b (x :: (u ++ v)) = none := by
      -- `%token` might also begin in `u` and end in `v`
      refine firstLineAt_of_not fun hb hkey ↦ ?_
      rcases List.prefix_or_prefix_of_prefix hkey (List.prefix_append (x :: u) v) with h | h
      · exact (hx hb).1 h
      · exact (hx hb).2 h
    rw [List.cons_append, Captures.captured_skip hnone, ih hu, endsLine_cons]

/-- Within a line nothing is captured. -/
theorem captured_dropWhile_isInLine (v : Text) :
    captured firstLineAt false (v.dropWhile isInLine) = captured firstLineAt false v := by
  induction v with
  | nil => rfl
  | cons x v ih =>
    by_cases hx : isInLine x = true
    · have hne : (x == '\n') = false := by simpa [isInLine] using hx
      rw [List.dropWhile_cons_of_pos hx, ih,
        Captures.captured_skip (firstLineAt_of_not (by simp)), hne]
    · rw [List.dropWhile_cons_of_neg hx]

/-! ### Declarations on one line -/

/-- A text within a line without the name of a token. -/
def Silent (u : Text) : Prop :=
  '\n' ∉ u ∧ ∀ w ∈ words isSeparator u, ¬ IsTokenName w

/-- A part that shows no names but its own. -/
def Part.Modest : Part → Prop
  | tag t _ => ∀ x ∈ t, isSeparator x = false ∧ x ≠ '>'
  | name _ _ => True
  | number _ _ => True
  | string b s hs => Silent (string b s hs).text
  | literal s hs => Silent (literal s hs).text
  | code c hc => Silent (code c hc).text

/-- The parts of a declaration stand on one line, with blanks in front of each. -/
structure OneLine (parts : List (List Filler × Part)) : Prop where
  /-- There are blanks in front of each part, and no comments or line ends. -/
  blanks : ∀ p ∈ parts, gapText p.1 ≠ [] ∧ ∀ x ∈ gapText p.1, isSpace x = true ∧ x ≠ '\n'
  /-- The parts show no names but their own. -/
  modest : ∀ p ∈ parts, p.2.Modest

/-- What follows a declaration on its line: it does not go on with a word, and there is no name of a
token in it. -/
def LineTail (v : Text) : Prop :=
  (∀ x ∈ v.head?, isSeparator x = true) ∧ Silent (v.takeWhile isInLine)

/-- **Declarations as the tool expects them**, before a text `u`; `b` says whether a line begins
in front of them. -/
def LaidOut : Bool → List (List Filler × Declaration) → Text → Prop
  | b, [], u => NoKeyword b u
  | b, (gap, .token parts _) :: declarations, u =>
    NoKeyword b (gapText gap) ∧ endsLine b (gapText gap) = true ∧ OneLine parts ∧
      names parts ≠ [] ∧ LineTail (declarationsText declarations ++ u) ∧
      LaidOut false declarations u
  | b, (gap, d) :: declarations, u =>
    NoKeyword b (gapText gap ++ d.text) ∧
      LaidOut (endsLine b (gapText gap ++ d.text)) declarations u

/-! ### Parts -/

theorem isDigit_iff {x : Char} : x.isDigit = true ↔ 48 ≤ x.toNat ∧ x.toNat ≤ 57 := by
  simp only [Char.isDigit, Bool.and_eq_true, decide_eq_true_eq]
  rfl

theorem isAlphanum_iff {x : Char} :
    x.isAlphanum = true ↔ ((65 ≤ x.toNat ∧ x.toNat ≤ 90) ∨ 97 ≤ x.toNat ∧ x.toNat ≤ 122) ∨
      48 ≤ x.toNat ∧ x.toNat ≤ 57 := by
  simp only [Char.isAlphanum, Char.isAlpha, Char.isUpper, Char.isLower, Char.isDigit,
    Bool.or_eq_true, Bool.and_eq_true, decide_eq_true_eq]
  rfl

theorem isSpace_of_isAlphanum {x : Char} (h : x.isAlphanum = true) : isSpace x = false := by
  rw [isAlphanum_iff] at h
  simp only [isSpace, Bool.or_eq_false_iff, Bool.and_eq_false_iff, decide_eq_false_iff_not,
    beq_eq_false_iff_ne]
  omega

theorem isSeparator_of_isIdChar {x : Char} (h : isIdChar x = true) : isSeparator x = false := by
  simp only [isIdChar, Bool.or_eq_true, beq_iff_eq] at h
  rcases h with ((halpha | rfl) | rfl) | rfl
  · have hne : x ≠ ',' := by
      rintro rfl
      cases halpha
    rw [isSeparator, isSpace_of_isAlphanum halpha, Bool.false_or]
    exact beq_eq_false_iff_ne.2 hne
  · decide
  · decide
  · decide

/-- A text without separators is no more than a line. -/
theorem lineEnd_notMem {t : Text} (h : ∀ x ∈ t, isSeparator x = false) : '\n' ∉ t := by
  intro hmem
  cases h '\n' hmem

theorem IsId.char_of_mem {n : Text} (h : IsId n) {x : Char} (hx : x ∈ n) :
    isIdChar x = true := by
  rcases n with _ | ⟨y, t⟩
  · cases hx
  · rcases List.mem_cons.1 hx with rfl | hx
    · have hstart := h.1
      simp only [isIdStart, Bool.or_eq_true] at hstart
      simp only [isIdChar, Char.isAlphanum, Bool.or_eq_true]
      tauto
    · exact h.2 x hx

theorem IsNumber.char_of_mem {n : Text} (h : IsNumber n) {x : Char} (hx : x ∈ n) :
    isIdChar x = true := by
  rcases n with _ | ⟨y, t⟩
  · cases hx
  · have halpha : x.isAlphanum = true := by
      rcases List.mem_cons.1 hx with rfl | hx
      · rw [Char.isAlphanum, h.1, Bool.or_true]
      · exact h.2 x hx
    rw [isIdChar, halpha]
    rfl

/-- A number does not look like the name of a token. -/
theorem IsNumber.not_isTokenName {n : Text} (h : IsNumber n) : ¬ IsTokenName n := by
  rcases n with _ | ⟨x, t⟩
  · exact id
  · intro hname
    have hdigit := isDigit_iff.1 h.1
    have hupper := hname.1
    simp only [isTokenStart, Bool.and_eq_true, decide_eq_true_eq, char_le_iff,
      Char.reduceToNat] at hupper
    omega

/-- A tag. -/
def Part.isTag : Part → Bool
  | tag _ _ => true
  | _ => false

/-- The first character of an identifier or a number. -/
theorem exists_eq_cons_of_isIdChar {n : Text} (hne : n ≠ [])
    (h : ∀ x ∈ n, isIdChar x = true) : ∃ x t, n = x :: t ∧ isSpace x = false ∧ x ≠ '<' := by
  obtain ⟨x, t, rfl⟩ := List.exists_cons_of_ne_nil hne
  have hchar := h x List.mem_cons_self
  have hsep := isSeparator_of_isIdChar hchar
  rw [isSeparator, Bool.or_eq_false_iff] at hsep
  refine ⟨x, t, rfl, hsep.1, ?_⟩
  rintro rfl
  cases hchar

theorem IsId.ne_nil {n : Text} (h : IsId n) : n ≠ [] := by
  rintro rfl
  exact h

theorem IsNumber.ne_nil {n : Text} (h : IsNumber n) : n ≠ [] := by
  rintro rfl
  exact h

/-- A part begins with a character that is no white space, and with `<` only if it is a tag. -/
theorem Part.exists_text_eq_cons (p : Part) :
    ∃ x t, p.text = x :: t ∧ isSpace x = false ∧ (x = '<' → p.isTag = true) := by
  cases p with
  | tag t ht => exact ⟨'<', _, rfl, rfl, fun _ ↦ rfl⟩
  | name n hn =>
    obtain ⟨x, t, hcons, hspace, hlt⟩ :=
      exists_eq_cons_of_isIdChar hn.ne_nil fun _ ↦ hn.char_of_mem
    exact ⟨x, t, hcons, hspace, fun h ↦ absurd h hlt⟩
  | number n hn =>
    obtain ⟨x, t, hcons, hspace, hlt⟩ :=
      exists_eq_cons_of_isIdChar hn.ne_nil fun _ ↦ hn.char_of_mem
    exact ⟨x, t, hcons, hspace, fun h ↦ absurd h hlt⟩
  | string b s hs =>
    rcases b with _ | _
    · exact ⟨'"', _, rfl, rfl, fun h ↦ absurd h (by decide)⟩
    · exact ⟨'_', _, rfl, rfl, fun h ↦ absurd h (by decide)⟩
  | literal s hs => exact ⟨'\'', _, rfl, rfl, fun h ↦ absurd h (by decide)⟩
  | code c hc => exact ⟨'{', _, rfl, rfl, fun h ↦ absurd h (by decide)⟩

theorem exists_tag {p : Part} (h : p.isTag = true) : ∃ t ht, p = .tag t ht := by
  cases p with
  | tag t ht => exact ⟨t, ht, rfl⟩
  | _ => cases h

theorem Part.Modest.lineEnd_notMem {p : Part} (h : p.Modest) : '\n' ∉ p.text := by
  cases p with
  | tag t ht =>
    have ht : '\n' ∉ t := Grammar.lineEnd_notMem fun x hx ↦ (h x hx).1
    simpa [Part.text] using ht
  | name n hn =>
    exact Grammar.lineEnd_notMem fun x hx ↦ isSeparator_of_isIdChar (hn.char_of_mem hx)
  | number n hn =>
    exact Grammar.lineEnd_notMem fun x hx ↦ isSeparator_of_isIdChar (hn.char_of_mem hx)
  | string b s hs => exact h.1
  | literal s hs => exact h.1
  | code c hc => exact h.1

/-- **The names a part shows.** -/
theorem Part.Modest.mem_words {p : Part} (h : p.Modest) {n : Text} (hn : IsTokenName n) :
    n ∈ words isSeparator p.text ↔ p.name? = some n := by
  have hsilent : Silent p.text → p.name? = none →
      (n ∈ words isSeparator p.text ↔ p.name? = some n) := by
    intro hs hnone
    rw [hnone]
    exact iff_of_false (fun hmem ↦ hs.2 n hmem hn) nofun
  cases p with
  | tag t ht =>
    have hsep : ∀ x ∈ '<' :: (t ++ ['>']), isSeparator x = false := by
      intro x hx
      rcases List.mem_cons.1 hx with rfl | hx
      · rfl
      · rcases List.mem_append.1 hx with hx | hx
        · exact (h x hx).1
        · rw [List.mem_singleton.1 hx]
          rfl
    rw [Part.text, words_eq_singleton (List.cons_ne_nil _ _) hsep, List.mem_singleton]
    refine iff_of_false ?_ nofun
    rintro rfl
    cases hn.1
  | name m hm =>
    rw [Part.text,
      words_eq_singleton hm.ne_nil fun x hx ↦ isSeparator_of_isIdChar (hm.char_of_mem hx),
      List.mem_singleton, Part.name?, Option.some_inj]
    exact eq_comm
  | number m hm =>
    rw [Part.text,
      words_eq_singleton hm.ne_nil fun x hx ↦ isSeparator_of_isIdChar (hm.char_of_mem hx),
      List.mem_singleton]
    refine iff_of_false ?_ nofun
    rintro rfl
    exact hm.not_isTokenName hn
  | string b s hs => exact hsilent h rfl
  | literal s hs => exact hsilent h rfl
  | code c hc => exact hsilent h rfl

/-! ### One declaration -/

theorem isSeparator_of_isSpace {x : Char} (h : isSpace x = true) : isSeparator x = true := by
  rw [isSeparator, h]
  rfl

theorem partsText_cons_append (gap : List Filler) (p : Part) (parts : List (List Filler × Part))
    (v : Text) : partsText ((gap, p) :: parts) ++ v =
      gapText gap ++ (p.text ++ (partsText parts ++ v)) := by
  rw [partsText, List.flatMap_cons, ← partsText, List.append_assoc, List.append_assoc]

namespace OneLine

variable {parts : List (List Filler × Part)} {gap : List Filler} {p : Part}

theorem of_cons {q : List Filler × Part} (h : OneLine (q :: parts)) : OneLine parts where
  blanks := fun r hr ↦ h.blanks r (List.mem_cons_of_mem q hr)
  modest := fun r hr ↦ h.modest r (List.mem_cons_of_mem q hr)

theorem separators (h : OneLine parts) :
    ∀ p ∈ parts, ∀ x ∈ gapText p.1, isSeparator x = true :=
  fun p hp x hx ↦ isSeparator_of_isSpace ((h.blanks p hp).2 x hx).1

theorem lineEnd_notMem (h : OneLine parts) : '\n' ∉ partsText parts := by
  intro hmem
  obtain ⟨p, hp, hmem⟩ := List.mem_flatMap.1 hmem
  rcases List.mem_append.1 hmem with hmem | hmem
  · exact ((h.blanks p hp).2 '\n' hmem).2 rfl
  · exact (h.modest p hp).lineEnd_notMem hmem

/-- No part goes on in what follows. -/
theorem head?_append (h : OneLine parts) {v : Text} (hv : ∀ x ∈ v.head?, isSeparator x = true) :
    ∀ x ∈ (partsText parts ++ v).head?, isSeparator x = true := by
  rcases parts with _ | ⟨⟨gap, p⟩, parts⟩
  · exact hv
  · obtain ⟨x, g, hg⟩ := List.exists_cons_of_ne_nil (h.blanks _ List.mem_cons_self).1
    have hx := h.separators _ List.mem_cons_self x (hg ▸ List.mem_cons_self)
    intro y hy
    rw [partsText, List.flatMap_cons, hg] at hy
    rwa [← Option.some.inj hy]

/-- **The names on the line** of a declaration. -/
theorem mem_words (h : OneLine parts) {v n : Text} (hv : ∀ x ∈ v.head?, isSeparator x = true)
    (hsilent : ∀ w ∈ words isSeparator v, ¬ IsTokenName w) (hn : IsTokenName n) :
    n ∈ words isSeparator (partsText parts ++ v) ↔ n ∈ names parts := by
  induction parts with
  | nil => exact iff_of_false (fun hmem ↦ hsilent n hmem hn) List.not_mem_nil
  | cons q parts ih =>
    have hrest := h.of_cons
    have hnames : n ∈ names (q :: parts) ↔ q.2.name? = some n ∨ n ∈ names parts := by
      rw [names, List.filterMap_cons, ← names]
      rcases q.2.name? with _ | m
      · exact (or_iff_right nofun).symm
      · rw [List.mem_cons, Option.some_inj, eq_comm]
    rw [partsText_cons_append, words_append_of_forall (h.separators q List.mem_cons_self),
      words_append (hrest.head?_append hv), List.mem_append, hnames, ih hrest,
      (h.modest q List.mem_cons_self).mem_words hn]

/-- The text of a part and of those behind it, up to the end of the line. -/
theorem restOfLine_eq (h : OneLine ((gap, p) :: parts)) (v : Text) :
    restOfLine (p.text ++ (partsText parts ++ v)) =
      (p.text ++ (partsText parts ++ v.takeWhile isInLine), v.dropWhile isInLine) := by
  have hp : ∀ x ∈ p.text, isInLine x = true := by
    intro x hx
    refine bne_iff_ne.2 ?_
    rintro rfl
    exact (h.modest _ List.mem_cons_self).lineEnd_notMem hx
  have hparts : ∀ x ∈ partsText parts, isInLine x = true := by
    intro x hx
    refine bne_iff_ne.2 ?_
    rintro rfl
    exact h.of_cons.lineEnd_notMem hx
  rw [restOfLine, List.takeWhile_append_of_pos hp, List.takeWhile_append_of_pos hparts,
    List.dropWhile_append_of_pos hp, List.dropWhile_append_of_pos hparts]

/-- The next line is that of the parts. -/
theorem nextLine_eq (h : OneLine ((gap, p) :: parts)) (v : Text) :
    nextLine (partsText ((gap, p) :: parts) ++ v) =
      some (p.text ++ (partsText parts ++ v.takeWhile isInLine), v.dropWhile isInLine) := by
  obtain ⟨hne, hblank⟩ := h.blanks _ List.mem_cons_self
  obtain ⟨y, t, hp, hy, -⟩ := p.exists_text_eq_cons
  have hline : ∀ g : Text, (∀ x ∈ g, isSpace x = true) →
      lineFrom (g ++ (p.text ++ (partsText parts ++ v))) =
        some (restOfLine (p.text ++ (partsText parts ++ v))) := by
    intro g hg
    induction g with
    | nil =>
      rw [List.nil_append, hp, List.cons_append, lineFrom, hy]
      rfl
    | cons x g ih =>
      rw [List.cons_append, lineFrom, if_pos (hg x List.mem_cons_self),
        ih fun z hz ↦ hg z (List.mem_cons_of_mem x hz)]
      rfl
  obtain ⟨x, g, hg⟩ := List.exists_cons_of_ne_nil hne
  rw [partsText_cons_append, hg, List.cons_append, nextLine,
    if_pos (hblank x (hg ▸ List.mem_cons_self)).1,
    hline g fun z hz ↦ (hblank z (hg ▸ List.mem_cons_of_mem x hz)).1, h.restOfLine_eq]

/-- Behind a tag come the parts behind it; other parts are not taken for a tag. -/
theorem behindTag_eq (h : OneLine ((gap, p) :: parts)) (v : Text) :
    behindTag (partsText ((gap, p) :: parts) ++ v) =
      if p.isTag then some (partsText parts ++ v) else none := by
  obtain ⟨hne, hblank⟩ := h.blanks _ List.mem_cons_self
  obtain ⟨y, t, hp, hy, htag⟩ := p.exists_text_eq_cons
  obtain ⟨x, g, hg⟩ := List.exists_cons_of_ne_nil hne
  have hdrop : (g ++ (p.text ++ (partsText parts ++ v))).dropWhile isSpace =
      p.text ++ (partsText parts ++ v) := by
    rw [List.dropWhile_append_of_pos fun z hz ↦ (hblank z (hg ▸ List.mem_cons_of_mem x hz)).1,
      hp, List.cons_append, List.dropWhile_cons_of_neg (by rw [hy]; exact Bool.false_ne_true)]
  rw [partsText_cons_append, hg, List.cons_append, behindTag,
    if_pos (hblank x (hg ▸ List.mem_cons_self)).1, hdrop]
  split_ifs with hcase
  · obtain ⟨s, hs, rfl⟩ := exists_tag hcase
    have hin : ∀ z ∈ s, isInTag z = true := fun z hz ↦
      bne_iff_ne.2 ((h.modest _ List.mem_cons_self) z hz).2
    have hbehind : s ++ ['>'] ++ (partsText parts ++ v) = s ++ '>' :: (partsText parts ++ v) :=
      List.append_assoc _ _ _
    rw [Part.text, List.cons_append, behindBrackets, hbehind,
      if_pos ⟨rfl, List.mem_append_right s List.mem_cons_self⟩, List.dropWhile_append_of_pos hin]
    rfl
  · rw [hp, List.cons_append, behindBrackets, if_neg fun hlt ↦ hcase (htag hlt.1)]

/-- **The line of a declaration** has its names. -/
theorem exists_lineBehind (h : OneLine parts) (hne : names parts ≠ []) {v : Text}
    (hv : LineTail v) :
    ∃ l, lineBehind (partsText parts ++ v) = some (l, v.dropWhile isInLine) ∧
      ∀ n, IsTokenName n → (n ∈ words isSeparator l ↔ n ∈ names parts) := by
  have hhead : ∀ x ∈ (v.takeWhile isInLine).head?, isSeparator x = true := by
    intro x hx
    rcases v with _ | ⟨y, v⟩
    · cases hx
    · by_cases hy : isInLine y = true
      · rw [List.takeWhile_cons_of_pos hy] at hx
        exact hv.1 x hx
      · rw [List.takeWhile_cons_of_neg hy] at hx
        cases hx
  -- from any part on, the line has the names of the parts that are left
  have hnext : ∀ gap p ps, OneLine ((gap, p) :: ps) →
      ∃ l, nextLine (partsText ((gap, p) :: ps) ++ v) = some (l, v.dropWhile isInLine) ∧
        ∀ n, IsTokenName n → (n ∈ words isSeparator l ↔ n ∈ names ((gap, p) :: ps)) := by
    intro gap p ps hps
    refine ⟨_, hps.nextLine_eq v, fun n hn ↦ ?_⟩
    rw [← hps.mem_words hhead hv.2.2 hn, partsText_cons_append,
      words_append_of_forall (hps.separators _ List.mem_cons_self)]
  rcases parts with _ | ⟨⟨gap, p⟩, parts⟩
  · exact absurd rfl hne
  rw [lineBehind, h.behindTag_eq]
  -- a tag in front is left out, and there is another part behind it, as there is a name
  split_ifs with hcase
  · obtain ⟨t, ht, rfl⟩ := exists_tag hcase
    rcases parts with _ | ⟨⟨gap', p'⟩, parts⟩
    · exact absurd rfl hne
    obtain ⟨l, hl, hwords⟩ := hnext gap' p' parts h.of_cons
    refine ⟨l, ?_, hwords⟩
    rw [Option.bind_some, hl]
    rfl
  · obtain ⟨l, hl, hwords⟩ := hnext gap p parts h
    exact ⟨l, hl, hwords⟩

end OneLine

/-! ### The file -/

/-- The search at a declaration of tokens. -/
theorem exists_captured_token {parts : List (List Filler × Part)} (h : OneLine parts)
    (hne : names parts ≠ []) {v : Text} (hv : LineTail v) :
    ∃ l, captured firstLineAt true (tokenKeyword ++ (partsText parts ++ v)) =
        l :: captured firstLineAt false v ∧
      ∀ n, IsTokenName n → (n ∈ words isSeparator l ↔ n ∈ names parts) := by
  obtain ⟨l, hl, hwords⟩ := h.exists_lineBehind hne hv
  refine ⟨l, ?_, hwords⟩
  -- behind the line, the search goes on within the same line
  rw [captures_tokenLine.captured_found (l := l) (u := v.dropWhile isInLine),
    captured_dropWhile_isInLine]
  rw [firstLineAt, if_pos ⟨rfl, List.prefix_append _ _⟩, List.drop_left, hl]

/-- The words of the lines captured in declarations. -/
theorem mem_words_captured {b : Bool} {declarations : List (List Filler × Declaration)} {u n : Text}
    (h : LaidOut b declarations u) (hn : IsTokenName n) :
    (∃ l ∈ captured firstLineAt b (declarationsText declarations ++ u), n ∈ words isSeparator l) ↔
      n ∈ declarations.flatMap fun p ↦ p.2.tokens := by
  induction declarations generalizing b with
  | nil =>
    have hnone := captured_append_of_noKeyword h []
    rw [List.append_nil] at hnone
    rw [declarationsText, List.flatMap_nil, List.nil_append, hnone]
    exact iff_of_false (fun ⟨l, hl, _⟩ ↦ by cases hl) List.not_mem_nil
  | cons q declarations ih =>
    obtain ⟨gap, d⟩ := q
    have htext : declarationsText ((gap, d) :: declarations) ++ u =
        gapText gap ++ d.text ++ (declarationsText declarations ++ u) := by
      rw [declarationsText, List.flatMap_cons, ← declarationsText, List.append_assoc]
    have hother : NoKeyword b (gapText gap ++ d.text) →
        LaidOut (endsLine b (gapText gap ++ d.text)) declarations u → d.tokens = [] →
        ((∃ l ∈ captured firstLineAt b (declarationsText ((gap, d) :: declarations) ++ u),
            n ∈ words isSeparator l) ↔
          n ∈ ((gap, d) :: declarations).flatMap fun p ↦ p.2.tokens) := by
      intro hquiet hrest htokens
      rw [htext, captured_append_of_noKeyword hquiet, ih hrest, List.flatMap_cons, htokens,
        List.nil_append]
    cases d with
    | token parts apart =>
      obtain ⟨hquiet, hbegins, hline, hne, htail, hrest⟩ := h
      obtain ⟨l, hl, hwords⟩ := exists_captured_token hline hne htail
      rw [htext, List.append_assoc, captured_append_of_noKeyword hquiet, hbegins,
        Declaration.text, List.append_assoc, hl, List.flatMap_cons, List.mem_append,
        List.exists_mem_cons_iff, hwords n hn, ih hrest]
      rfl
    | other keyword hchar hkey parts apart => exact hother h.1 h.2 rfl
    | prologue code hcode => exact hother h.1 h.2 rfl
    | semicolon => exact hother h.1 h.2 rfl

/-- **The layout for which the token table is exact.** -/
theorem tokensExact_of_laidOut {file : BisonFile}
    (h : LaidOut true file.declarations (gapText file.trail ++ '%' :: '%' :: file.rest)) :
    TokensExact file := by
  intro n
  show n ∈ parseTokens file.text ↔ _
  rw [mem_parseTokens, and_congr_left_iff]
  exact mem_words_captured h

example : TokensExact
    { declarations :=
        [([], .token [([.blank ' ' rfl], .name ['F', 'O', 'O'] (by decide)),
          ([.blank ' ' rfl], .name ['B', 'A', 'R'] (by decide))]
          ⟨fun _ _ ↦ List.cons_ne_nil _ _, fun _ _ ↦ List.cons_ne_nil _ _, trivial⟩)]
      trail := [.blank '\n' rfl]
      rest := ['\n'] } := by
  refine tokensExact_of_laidOut ⟨trivial, rfl, ⟨?_, ?_⟩, by decide, ⟨?_, by decide, ?_⟩, ?_⟩
  · simp [gapText, Filler.text, isSpace]
  · simp [Part.Modest]
  · rintro x ⟨⟩
    rfl
  · rintro w ⟨⟩
  · exact ⟨nofun, fun _ ↦ ⟨by decide, by decide⟩, nofun, nofun, trivial⟩

end FirebirdSamples.Grammar
