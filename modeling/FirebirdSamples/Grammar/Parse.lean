import FirebirdSamples.Grammar.Rules
import FirebirdSamples.Library.RegexSearch
import Mathlib

/-!
# `parse_grammar`

The tool reads a Bison file with regular expressions. From the rules section, which lies between two
lines `%%`, it removes comments, character literals and action blocks, one kind in a pass over the
whole section, and then picks the rules out of what is left. This file has the tool's functions as
they stand; a text is what `fh.read()` returns.

`parseRules` is what becomes of the rules, and `passes` what the four passes leave of a text. The
passes know nothing of each other, and none of them knows a string literal.
-/

namespace FirebirdSamples.Grammar

open Regex

/-! ### Strings -/

/-- `\s`, which is `str.isspace`. -/
def isSpace (x : Char) : Bool :=
  let n := x.toNat
  (9 ≤ n && n ≤ 13) || (0x1c ≤ n && n ≤ 0x20) || n == 0x85 || n == 0xa0 || n == 0x1680 ||
    (0x2000 ≤ n && n ≤ 0x200a) || n == 0x2028 || n == 0x2029 || n == 0x202f || n == 0x205f ||
    n == 0x3000

/-- `s.strip()`. -/
def strip (s : Text) : Text :=
  ((s.dropWhile isSpace).reverse.dropWhile isSpace).reverse

/-- A text cut at the first place where `sep` stands: what is before it and what is behind it. -/
def cut (sep : Text) : Text → Option (Text × Text)
  | [] => none
  | x :: t =>
    if sep.isPrefixOf (x :: t) then
      some ([], (x :: t).drop sep.length)
    else
      (cut sep t).map fun p ↦ (x :: p.1, p.2)

/-- `s.split(sep)`, with at most `n` cuts. -/
def splitFuel (sep : Text) : ℕ → Text → List Text
  | 0, s => [s]
  | n + 1, s =>
    match cut sep s with
    | some (before, behind) => before :: splitFuel sep n behind
    | none => [s]

/-- `s.split(sep)`. -/
def pySplit (sep s : Text) : List Text :=
  splitFuel sep s.length s

/-! ### The expressions -/

/-- `\s`. -/
def space : Regex :=
  one isSpace

/-- `/\*.*?\*/`, where the dot is any character. -/
def blockComment : Regex :=
  seq (text ['/', '*']) (seq (lazy any) (text ['*', '/']))

/-- `//[^\n]*`. -/
def lineComment : Regex :=
  seq (text ['/', '/']) (star (one (· != '\n')))

/-- `[^'\\]|\\.`. -/
def literalChar : Regex :=
  alt (one fun x ↦ x != '\'' && x != '\\') (seq (lit '\\') (one (· != '\n')))

/-- `'(?:[^'\\]|\\.)*'`. -/
def charLiteral : Regex :=
  seq (lit '\'') (seq (star literalChar) (lit '\''))

/-- `[a-z_][a-zA-Z0-9_]*`. -/
def name : Regex :=
  seq (one isNameStart) (star (one isNameChar))

/-- `(?m)^([a-z_][a-zA-Z0-9_]*)\s*\n?\s*:(.*?);`, where the dot is any character. -/
def rule : Regex :=
  seq bol (seq (group name) (seq (star space) (seq (opt (lit '\n')) (seq (star space)
    (seq (lit ':') (seq (group (lazy any)) (lit ';')))))))

/-- `^%token(?:\s+<[^>]*>)?\s+(.+)$`, where the dot is not a line end. -/
def tokenLine : Regex :=
  seq bol (seq (text "%token".toList)
    (seq (opt (seq (plus space) (seq (lit '<') (seq (star (one (· != '>'))) (lit '>')))))
      (seq (plus space) (seq (group (plus (one (· != '\n')))) eol))))

/-- `[\s,]+`. -/
def blanks : Regex :=
  plus (one fun x ↦ isSpace x || x == ',')

/-- `[A-Z][A-Z0-9_]*`. -/
def tokenName : Regex :=
  seq (one fun x ↦ 'A' ≤ x && x ≤ 'Z')
    (star (one fun x ↦ ('A' ≤ x && x ≤ 'Z') || ('0' ≤ x && x ≤ '9') || x == '_'))

/-! ### `strip_braces` -/

/-- The loop of `strip_braces`, from a depth on. -/
def stripFrom : ℕ → Text → Text
  | _, [] => []
  | depth, ch :: t =>
    if ch = '{' then stripFrom (depth + 1) t
    else if ch = '}' then stripFrom (depth - 1) t
    else if depth = 0 then ch :: stripFrom depth t
    else stripFrom depth t

/-- The depth at the end of the loop. -/
def depthFrom : ℕ → Text → ℕ
  | depth, [] => depth
  | depth, ch :: t =>
    if ch = '{' then depthFrom (depth + 1) t
    else if ch = '}' then depthFrom (depth - 1) t
    else depthFrom depth t

/-- `strip_braces(text)`. -/
def stripBraces (text : Text) : Text :=
  stripFrom 0 text

/-! ### `parse_grammar` -/

/-- A line of its own with two percent signs. -/
def marker : Text :=
  ['\n', '%', '%', '\n']

/-- The rules section. -/
def rulesSection (src : Text) : Text :=
  match pySplit marker src with
  | _ :: body :: _ => body
  | _ => src

/-- What the removal of block comments leaves. -/
def noComments (body : Text) : Text :=
  sub blockComment [' '] body

/-- What the removal of line comments leaves. -/
def noLines (body : Text) : Text :=
  sub lineComment [' '] body

/-- What the removal of character literals leaves. -/
def noLiterals (body : Text) : Text :=
  sub charLiteral [' '] body

/-- What the four passes leave of a text. -/
def passes (body : Text) : Text :=
  stripBraces (noLiterals (noLines (noComments body)))

/-- The loop over the references of one rule. -/
def addRefs (lhs : Text) (rules : Dict Text (List Text)) (refs : List Text) :
    Dict Text (List Text) :=
  refs.foldl (fun rules r ↦
    if r ∈ (rules.get? lhs).getD [] then rules else rules.modify lhs (· ++ [r])) rules

/-- The loop over the rules: one match. -/
def addRule (rules : Dict Text (List Text)) (m : Match) : Dict Text (List Text) :=
  let lhs := m.groups.getD 0 []
  let rhs := m.groups.getD 1 []
  addRefs lhs (rules.setdefault lhs []) (findall name rhs)

/-- Only the references that are rules, and other ones. -/
def keepDefined (rules : Dict Text (List Text)) : Dict Text (List Text) :=
  rules.mapEntries fun lhs refs ↦ refs.filter fun r ↦ decide (r ∈ rules.keys ∧ r ≠ lhs)

/-- The rules in a text that has been through the passes. -/
def collectRules (body : Text) : Dict Text (List Text) :=
  keepDefined ((finditer rule body).foldl addRule .empty)

/-- The first value of `parse_grammar`. -/
def parseRules (src : Text) : Dict Text (List Text) :=
  collectRules (passes (rulesSection src))

/-- The second value of `parse_grammar`. -/
def parseTokens (src : Text) : Finset Text :=
  let lines := (finditer tokenLine src).map fun m ↦ m.groups.getD 0 []
  ((lines.flatMap fun line ↦ Regex.split blanks (strip line)).filter (fullmatch tokenName)).toFinset

/-- `parse_grammar`, on the text of the file. -/
def parseGrammar (src : Text) : Dict Text (List Text) × Finset Text :=
  (parseRules src, parseTokens src)

example : (parseRules "x\n%%\na\n\t: b { c; } | 'd' a\n\t;\nb\n: ;\n%%\n".toList).entries =
    [("a".toList, ["b".toList]), ("b".toList, [])] := by
  decide +kernel

end FirebirdSamples.Grammar
