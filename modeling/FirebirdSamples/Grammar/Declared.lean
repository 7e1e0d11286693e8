import FirebirdSamples.Grammar.FirstLines
import FirebirdSamples.Grammar.Invisible

/-!
# Declared tokens

The declarations of a Bison file on paper. A `%token` declaration names tokens, each perhaps with a
number and a string alias, and may carry tags; it goes on until the next declaration, over as many
lines as it likes, and comments may stand wherever white space may. The types carry what makes the
parts of a declaration readable; in which order they come is left open, and Bison accepts some
orders only.

**The token table.** The tool should return the declared names that are written in capitals. It
returns the words of the first lines instead. So the table is exact if the declared names stand on
first lines, as words of their own, and nothing else there looks like one (`tokensExact_iff`). A
name on a line that continues a declaration is not found (`not_tokensExact_of_continued`).
-/

namespace FirebirdSamples.Grammar

/-! ### Declarations on paper -/

/-- White space of Bison, which reads a comma as such. -/
def isFiller (x : Char) : Bool :=
  x ∈ [' ', '\t', '\n', '\r', '\x0b', '\x0c', ',']

/-- What may stand between the parts of a declaration. -/
inductive Filler where
  | blank (x : Char) (hx : isFiller x = true)
  | comment (c : Text) (hc : ¬ ['*', '/'] <:+: c ++ ['*'])
  | lineComment (c : Text) (hc : '\n' ∉ c)

/-- `[a-zA-Z_.]`. -/
def isIdStart (x : Char) : Bool :=
  x.isAlpha || x == '_' || x == '.'

/-- `[a-zA-Z0-9_.-]`. -/
def isIdChar (x : Char) : Bool :=
  x.isAlphanum || x == '_' || x == '.' || x == '-'

/-- An identifier of Bison. -/
def IsId : Text → Prop
  | [] => False
  | x :: t => isIdStart x = true ∧ ∀ y ∈ t, isIdChar y = true

instance : DecidablePred IsId
  | [] => inferInstanceAs (Decidable False)
  | x :: t => inferInstanceAs (Decidable (isIdStart x = true ∧ ∀ y ∈ t, isIdChar y = true))

/-- A number, decimal or hexadecimal: digits and letters behind a digit. -/
def IsNumber : Text → Prop
  | [] => False
  | x :: t => x.isDigit = true ∧ ∀ y ∈ t, y.isAlphanum = true

/-- The inside of a tag: angle brackets balance, those of arrows set aside. -/
inductive TagText : Text → Prop
  | nil : TagText []
  | char {x : Char} {t : Text} (hx : x ≠ '<' ∧ x ≠ '>') (ht : TagText t) : TagText (x :: t)
  | arrow {t : Text} (ht : TagText t) : TagText ('-' :: '>' :: t)
  | nested {s t : Text} (hs : TagText s) (ht : TagText t) : TagText ('<' :: (s ++ '>' :: t))

/-- A part of a declaration. -/
inductive Part where
  | tag (t : Text) (ht : TagText t)
  | name (n : Text) (hn : IsId n)
  | number (n : Text) (hn : IsNumber n)
  /-- A string alias, which may be marked for translation. -/
  | string (translated : Bool) (s : Text) (hs : Literal '"' s)
  | literal (s : Text) (hs : Literal '\'' s)
  /-- C code in braces. -/
  | code (c : Text) (hc : Code c)

/-- The part begins and ends with a letter or a digit. -/
def Part.isWord : Part → Bool
  | name _ _ | number _ _ => true
  | _ => false

/-- There is something between neighbouring words; `b` says whether a word is in front. -/
def Apart : Bool → List (List Filler × Part) → Prop
  | _, [] => True
  | b, (gap, p) :: parts => (b = true → p.isWord = true → gap ≠ []) ∧ Apart p.isWord parts

/-- A declaration. -/
inductive Declaration where
  /-- `%token`. -/
  | token (parts : List (List Filler × Part)) (apart : Apart true parts)
  /-- Any other keyword behind a percent sign. -/
  | other (keyword : Text) (hchar : ∀ x ∈ keyword, isIdChar x = true)
    (hne : keyword ≠ "token".toList) (parts : List (List Filler × Part))
    (apart : Apart true parts)
  /-- C code between `%{` and `%}`. -/
  | prologue (code : Text) (hcode : ¬ ['%', '}'] <:+: code ++ ['%'])
  | semicolon

/-- **A Bison file**: declarations, and what follows the first `%%`. -/
structure BisonFile where
  /-- The declarations, with what stands in front of each. -/
  declarations : List (List Filler × Declaration)
  /-- What stands behind the last one. -/
  trail : List Filler
  /-- The rules and the epilogue. -/
  rest : Text

/-! ### Printing -/

/-- White space and comments as they stand. -/
def Filler.text : Filler → Text
  | blank x _ => [x]
  | comment c _ => '/' :: '*' :: (c ++ ['*', '/'])
  | lineComment c _ => '/' :: '/' :: (c ++ ['\n'])

/-- What stands between two parts. -/
def gapText (gap : List Filler) : Text :=
  gap.flatMap Filler.text

/-- A part as it stands. -/
def Part.text : Part → Text
  | tag t _ => '<' :: (t ++ ['>'])
  | name n _ => n
  | number n _ => n
  | string false s _ => '"' :: (s ++ ['"'])
  | string true s _ => '_' :: '(' :: '"' :: (s ++ ['"', ')'])
  | literal s _ => '\'' :: (s ++ ['\''])
  | code c _ => '{' :: (c ++ ['}'])

/-- The parts of a declaration as they stand. -/
def partsText (parts : List (List Filler × Part)) : Text :=
  parts.flatMap fun p ↦ gapText p.1 ++ p.2.text

/-- A declaration as it stands. -/
def Declaration.text : Declaration → Text
  | token parts _ => tokenKeyword ++ partsText parts
  | other keyword _ _ parts _ => '%' :: (keyword ++ partsText parts)
  | prologue code _ => '%' :: '{' :: (code ++ ['%', '}'])
  | semicolon => [';']

/-- The text of declarations. -/
def declarationsText (declarations : List (List Filler × Declaration)) : Text :=
  declarations.flatMap fun p ↦ gapText p.1 ++ p.2.text

/-- The text of the file. -/
def BisonFile.text (file : BisonFile) : Text :=
  declarationsText file.declarations ++ (gapText file.trail ++ '%' :: '%' :: file.rest)

/-! ### The token table -/

/-- The part, if it is a name. -/
def Part.name? : Part → Option Text
  | name n _ => some n
  | _ => none

/-- The names among the parts of a declaration. -/
def names (parts : List (List Filler × Part)) : List Text :=
  parts.filterMap fun p ↦ p.2.name?

/-- The tokens that a declaration declares. -/
def Declaration.tokens : Declaration → List Text
  | token parts _ => names parts
  | _ => []

/-- The tokens declared in a file. -/
def BisonFile.declared (file : BisonFile) : List Text :=
  file.declarations.flatMap fun p ↦ p.2.tokens

/-- **The token table is exact**: it has the declared names in capitals and no others. -/
def TokensExact (file : BisonFile) : Prop :=
  ∀ n, n ∈ (parseGrammar file.text).2 ↔ n ∈ file.declared ∧ IsTokenName n

/-- **When the token table is exact**: the declared names in capitals stand on first lines as words
of their own, and they are the only words in capitals there. -/
theorem tokensExact_iff (file : BisonFile) :
    TokensExact file ↔
      (∀ n ∈ file.declared, IsTokenName n → OnFirstLine file.text n) ∧
        ∀ n, OnFirstLine file.text n → IsTokenName n → n ∈ file.declared := by
  have htable : TokensExact file ↔
      ∀ n, OnFirstLine file.text n ∧ IsTokenName n ↔ n ∈ file.declared ∧ IsTokenName n :=
    forall_congr' fun n ↦ iff_congr mem_parseTokens Iff.rfl
  rw [htable]
  constructor
  · intro h
    exact ⟨fun n hn hname ↦ ((h n).2 ⟨hn, hname⟩).1, fun n hn hname ↦ ((h n).1 ⟨hn, hname⟩).1⟩
  · rintro ⟨hfound, honly⟩ n
    exact ⟨fun h ↦ ⟨honly n h.1 h.2, h.2⟩, fun h ↦ ⟨hfound n h.1 h.2, h.2⟩⟩

/-- A declaration over two lines. -/
def continued : BisonFile where
  declarations :=
    [([], .token [([.blank ' ' rfl], .name ['F', 'O', 'O'] (by decide)),
      ([.blank '\n' rfl, .blank ' ' rfl], .name ['B', 'A', 'R'] (by decide))]
      ⟨fun _ _ ↦ List.cons_ne_nil _ _, fun _ _ ↦ List.cons_ne_nil _ _, trivial⟩)]
  trail := [.blank '\n' rfl]
  rest := "\na: FOO BAR;\n".toList

/-- **The second line is not read.** -/
theorem not_tokensExact_of_continued : ¬ TokensExact continued := by
  intro h
  have hmem := (h ['B', 'A', 'R']).2 (by decide)
  revert hmem
  decide +kernel

end FirebirdSamples.Grammar
