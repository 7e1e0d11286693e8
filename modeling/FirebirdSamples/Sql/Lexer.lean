import FirebirdSamples.Library.Scanner
import FirebirdSamples.Grammar.Rules

/-!
# Tokens of SQL

The lexical part of SQL that the samples' statements use: words, string literals between
apostrophes, delimited identifiers between double quotes, symbols, blanks and comments. An
apostrophe in a string literal is written twice, and likewise a double quote in a delimited
identifier.

`scan_literal` says how a string literal is read, and `exists_literal` that there is no other way.
So a text between apostrophes is the literal of this very text exactly if it has no apostrophe
(`scan_paste_iff`).
-/

namespace FirebirdSamples.Sql

open Grammar (Text)
open Scanner (double)

/-- A token. -/
inductive Token where
  /-- A keyword, a name or a number. -/
  | word (w : Text)
  /-- A string literal, with the text it denotes. -/
  | literal (t : Text)
  /-- A delimited identifier, with the name it denotes. -/
  | delimited (t : Text)
  /-- Any other character. -/
  | symbol (x : Char)
  deriving DecidableEq

/-- What the lexer is in the middle of. -/
inductive Mode where
  | start
  | word (w : Text)
  | literal (t : Text)
  /-- Behind an apostrophe in a literal, which ends it unless another one follows. -/
  | literalEnd (t : Text)
  | delimited (t : Text)
  | delimitedEnd (t : Text)
  /-- Behind a minus. -/
  | dash
  | lineComment
  /-- Behind a slash. -/
  | slash
  | comment
  /-- Behind an asterisk in a comment. -/
  | commentStar
  deriving DecidableEq

/-- A blank. -/
def isBlank (x : Char) : Bool :=
  x == ' ' || x == '\t' || x == '\n' || x == '\r'

/-- A character of a word. -/
def isWordChar (x : Char) : Bool :=
  x.isAlphanum || x == '_' || x == '$'

/-- What a character begins. -/
def enter (x : Char) : List Token × Mode :=
  if isBlank x then ([], .start)
  else if x = '\'' then ([], .literal [])
  else if x = '"' then ([], .delimited [])
  else if x = '-' then ([], .dash)
  else if x = '/' then ([], .slash)
  else if isWordChar x then ([], .word [x])
  else ([.symbol x], .start)

/-- A character behind a token that is complete. -/
def emitEnter (t : Token) (x : Char) : List Token × Mode :=
  (t :: (enter x).1, (enter x).2)

/-- One character of the text. -/
def step : Mode → Char → List Token × Mode
  | .start, x => enter x
  | .word w, x => if isWordChar x then ([], .word (w ++ [x])) else emitEnter (.word w) x
  | .literal t, x => if x = '\'' then ([], .literalEnd t) else ([], .literal (t ++ [x]))
  | .literalEnd t, x => if x = '\'' then ([], .literal (t ++ [x])) else emitEnter (.literal t) x
  | .delimited t, x => if x = '"' then ([], .delimitedEnd t) else ([], .delimited (t ++ [x]))
  | .delimitedEnd t, x =>
    if x = '"' then ([], .delimited (t ++ [x])) else emitEnter (.delimited t) x
  | .dash, x => if x = '-' then ([], .lineComment) else emitEnter (.symbol '-') x
  | .lineComment, x => if x = '\n' then ([], .start) else ([], .lineComment)
  | .slash, x => if x = '*' then ([], .comment) else emitEnter (.symbol '/') x
  | .comment, x => if x = '*' then ([], .commentStar) else ([], .comment)
  | .commentStar, x =>
    if x = '/' then ([], .start) else if x = '*' then ([], .commentStar) else ([], .comment)

/-- The end of the text, which no literal, delimited identifier or comment may be open at. -/
def finish : Mode → Option (List Token)
  | .start | .lineComment => some []
  | .word w => some [.word w]
  | .literalEnd t => some [.literal t]
  | .delimitedEnd t => some [.delimited t]
  | .dash => some [.symbol '-']
  | .slash => some [.symbol '/']
  | .literal _ | .delimited _ | .comment | .commentStar => none

/-- The lexer. -/
def lexer : Scanner Mode Char Token where
  step := step
  finish := finish

/-- The tokens of a statement; `none` if it ends within a literal, a delimited identifier or a
comment. -/
def lex (s : Text) : Option (List Token) :=
  lexer.scan .start s

/-! ### String literals -/

theorem scan_literal_cons {x : Char} (hx : x ≠ '\'') (t s : Text) :
    lexer.scan (.literal t) (x :: s) = lexer.scan (.literal (t ++ [x])) s := by
  have hstep : lexer.step (.literal t) x = ([], .literal (t ++ [x])) := if_neg hx
  exact lexer.scan_cons_of_step hstep s

theorem scan_literal_quote (t s : Text) :
    lexer.scan (.literal t) ('\'' :: s) = lexer.scan (.literalEnd t) s := by
  have hstep : lexer.step (.literal t) '\'' = ([], .literalEnd t) := rfl
  exact lexer.scan_cons_of_step hstep s

theorem scan_literalEnd_quote (t s : Text) :
    lexer.scan (.literalEnd t) ('\'' :: s) = lexer.scan (.literal (t ++ ['\''])) s := by
  have hstep : lexer.step (.literalEnd t) '\'' = ([], .literal (t ++ ['\''])) := rfl
  exact lexer.scan_cons_of_step hstep s

/-- A literal ends at an apostrophe that no other one follows. -/
theorem scan_literalEnd {s : Text} (hs : s.head? ≠ some '\'') (t : Text) :
    lexer.scan (.literalEnd t) s = (lexer.scan .start s).map (.literal t :: ·) := by
  rcases s with _ | ⟨x, s⟩
  · rfl
  · have hx : x ≠ '\'' := fun h ↦ hs (congrArg some h)
    have hstep : lexer.step (.literalEnd t) x = emitEnter (.literal t) x := if_neg hx
    rw [Scanner.scan_cons, Scanner.scan_cons, hstep, Option.map_map]
    rfl

/-- **How a string literal is read.** -/
theorem scan_literal {s : Text} (hs : s.head? ≠ some '\'') (t u : Text) :
    lexer.scan (.literal u) (double '\'' t ++ '\'' :: s) =
      (lexer.scan .start s).map (.literal (u ++ t) :: ·) := by
  induction t generalizing u with
  | nil => rw [Scanner.double_nil, List.nil_append, List.append_nil, scan_literal_quote,
      scan_literalEnd hs]
  | cons x t ih =>
    rcases eq_or_ne x '\'' with rfl | hx
    · rw [Scanner.double_cons_self, List.cons_append, List.cons_append, scan_literal_quote,
        scan_literalEnd_quote, ih, List.append_assoc]
      rfl
    · rw [Scanner.double_cons_of_ne hx, List.cons_append, scan_literal_cons hx, ih,
        List.append_assoc]
      rfl

/-- A text that can be read from within a literal has the end of the literal. -/
theorem exists_literal {s u : Text} (h : lexer.scan (.literal u) s ≠ none) :
    ∃ t s', s = double '\'' t ++ '\'' :: s' ∧ s'.head? ≠ some '\'' := by
  -- two apostrophes are read at once, so the induction is on the length
  induction hn : s.length using Nat.strongRecOn generalizing s u with
  | ind n ih =>
    rcases s with _ | ⟨x, s⟩
    · exact absurd rfl h
    rw [List.length_cons] at hn
    rcases eq_or_ne x '\'' with rfl | hx
    · rcases s with _ | ⟨y, s⟩
      · exact ⟨[], [], rfl, nofun⟩
      rcases eq_or_ne y '\'' with rfl | hy
      · rw [scan_literal_quote, scan_literalEnd_quote] at h
        rw [List.length_cons] at hn
        obtain ⟨t, s', rfl, hs'⟩ := ih s.length (by omega) h rfl
        exact ⟨'\'' :: t, s', by rw [Scanner.double_cons_self]; rfl, hs'⟩
      · exact ⟨[], y :: s, rfl, fun heq ↦ hy (Option.some.inj heq)⟩
    · rw [scan_literal_cons hx] at h
      obtain ⟨t, s', rfl, hs'⟩ := ih s.length (by omega) h rfl
      exact ⟨x :: t, s', by rw [Scanner.double_cons_of_ne hx]; rfl, hs'⟩

/-- **A text between apostrophes** is the literal of this text exactly if it has no apostrophe. -/
theorem scan_paste_iff {s : Text} (hs : s.head? ≠ some '\'') (t : Text) (ts : List Token) :
    lexer.scan (.literal []) (t ++ '\'' :: s) = some (.literal t :: ts) ↔
      '\'' ∉ t ∧ lexer.scan .start s = some ts := by
  have hpaste : '\'' ∉ t → lexer.scan (.literal []) (t ++ '\'' :: s) =
      (lexer.scan .start s).map (.literal t :: ·) := by
    intro ht
    have hread := scan_literal hs t []
    rwa [Scanner.double_eq_self ht] at hread
  constructor
  · intro h
    obtain ⟨t', s', heq, hs'⟩ := exists_literal (h ▸ Option.some_ne_none _)
    have hread := scan_literal hs' t' []
    rw [← heq, h] at hread
    obtain ⟨ts', -, hts'⟩ := Option.map_eq_some_iff.1 hread.symm
    obtain rfl : t' = t := Token.literal.inj (List.cons.inj hts').1
    obtain ⟨-, ht⟩ := Scanner.notMem_of_append_eq_double (n := 0) hs heq
    refine ⟨ht, ?_⟩
    rw [hpaste ht] at h
    obtain ⟨ts'', hscan, hts''⟩ := Option.map_eq_some_iff.1 h
    rw [hscan, (List.cons.inj hts'').2]
  · rintro ⟨ht, hscan⟩
    rw [hpaste ht, hscan]
    rfl

end FirebirdSamples.Sql
