import FirebirdSamples.Grammar.Blocks
import FirebirdSamples.Grammar.Passes
import FirebirdSamples.Grammar.Section

/-!
# Printed grammars

A grammar on paper: blocks of rules, each with a name on the left and alternatives of symbols and
action blocks on the right. The types carry what makes it one: names are names, the braces of an
action balance, and neighbouring symbols and action blocks have white space between them.
`printFile` is the Bison file with these rules.

**The rule graph of a printed grammar.** `parseRules` has the names on the left for keys, and for
each of them the names on the right of its blocks that are themselves on the left somewhere, each at
its first occurrence (`parseRules_printFile`). The passes leave of each part of a printed block what
it is without actions (`Block.passesTo`), and the rule expression finds the blocks in what is left,
one after the other (`blocksFrom_bare`).

There has to be a block. Without one the two lines `%%` follow each other, the first cut takes away
the beginning of the second line, and the epilogue is read for rules
(`parseRules_printFile_nil_ne`).
-/

namespace FirebirdSamples.Grammar

open Regex (findall findall_nil)

/-! ### Grammars on paper -/

/-- White space. -/
abbrev Space := { w : Text // ∀ x ∈ w, isSpace x = true }

/-- `[A-Z]`. -/
def isUpper (x : Char) : Bool :=
  'A' ≤ x && x ≤ 'Z'

/-- The name of a token, `[A-Z][A-Z0-9]*`. -/
def IsToken : Text → Prop
  | [] => False
  | x :: t => isUpper x = true ∧ ∀ y ∈ t, (isUpper y || ('0' ≤ y && y ≤ '9')) = true

/-- Braces balance, to any depth. -/
inductive Balanced : Text → Prop
  | nil : Balanced []
  | char {x : Char} {t : Text} (hopen : x ≠ '{') (hclose : x ≠ '}') (ht : Balanced t) :
    Balanced (x :: t)
  | block {s t : Text} (hs : Balanced s) (ht : Balanced t) : Balanced ('{' :: (s ++ '}' :: t))

/-- The code between the braces of an action block. -/
structure Action where
  /-- The code. -/
  code : Text
  /-- Its braces balance. -/
  balanced : Balanced code
  /-- There are no quotes in it. -/
  no_quote : '\'' ∉ code ∧ '"' ∉ code
  /-- No comment begins in it. -/
  no_comment : ¬ ['/', '*'] <:+: code ∧ ¬ ['/', '/'] <:+: code
  /-- None of its lines is `%%`. -/
  no_marker : ¬ marker <:+: code

/-- What stands in an alternative. -/
inductive Item where
  /-- The name of a rule. -/
  | name (n : Text) (hn : IsName n)
  /-- The name of a token. -/
  | token (t : Text) (ht : IsToken t)
  /-- An action block. -/
  | action (a : Action)

/-- An alternative: its items, each behind white space, and white space at the end. -/
structure Alternative where
  /-- The items. -/
  items : List (Space × Item)
  /-- There is white space between neighbours. -/
  spaced : ∀ p ∈ items.tail, p.1.1 ≠ []
  /-- What follows the last one. -/
  trail : Space

/-- A block of a rule. -/
structure Block where
  /-- The name of the rule. -/
  lhs : Text
  /-- It is a name. -/
  isName : IsName lhs
  /-- The white space before the colon. -/
  indent : Space
  /-- The alternatives. -/
  alternatives : List Alternative

/-! ### Printing -/

/-- Texts with a character between neighbours. -/
def joined (x : Char) : List Text → Text
  | [] => []
  | [s] => s
  | s :: t :: l => s ++ x :: joined x (t :: l)

/-- An action block. -/
def Action.text (a : Action) : Text :=
  '{' :: (a.code ++ ['}'])

/-- An item as printed. -/
def Item.text : Item → Text
  | name n _ => n
  | token t _ => t
  | action a => a.text

/-- An alternative as printed. -/
def Alternative.text (a : Alternative) : Text :=
  (a.items.flatMap fun p ↦ p.1.1 ++ p.2.text) ++ a.trail.1

/-- A block as printed: name, line end, colon, alternatives with bars between them, semicolon. -/
def Block.text (b : Block) : Text :=
  b.lhs ++ ('\n' :: b.indent.1 ++
    ':' :: (joined '|' (b.alternatives.map Alternative.text) ++ [';']))

/-- The rules: blank lines, if any, and the blocks, each with white space up to the end of a
line. -/
def printRules (lead : Option Space) (blocks : List (Block × Space)) : Text :=
  (match lead with | none => [] | some w => w.1 ++ ['\n']) ++
    blocks.flatMap fun p ↦ p.1.text ++ p.2.1 ++ ['\n']

/-- **The file**: declarations, a line `%%`, the rules, a line `%%`, and an epilogue. -/
def printFile (declarations : Text) (lead : Option Space) (blocks : List (Block × Space))
    (epilogue : Text) : Text :=
  declarations ++ ['\n'] ++ ['%', '%', '\n'] ++ printRules lead blocks ++ ['%', '%', '\n'] ++
    epilogue

/-- The names of an alternative. -/
def Alternative.names (a : Alternative) : List Text :=
  a.items.filterMap fun p ↦ match p.2 with
    | .name n _ => some n
    | _ => none

/-- A block in the abstract: the name on the left and the names on the right. -/
def Block.refs (b : Block) : Refs :=
  (b.lhs, b.alternatives.flatMap Alternative.names)

/-! ### What the passes leave -/

/-- What is left of an item. -/
def Item.bare : Item → Text
  | name n _ => n
  | token t _ => t
  | action _ => []

/-- What is left of an alternative. -/
def Alternative.bare (a : Alternative) : Text :=
  (a.items.flatMap fun p ↦ p.1.1 ++ p.2.bare) ++ a.trail.1

/-- What is left of the right-hand side of a block. -/
def Block.bareRhs (b : Block) : Text :=
  joined '|' (b.alternatives.map Alternative.bare)

/-- What is left of a block. -/
def Block.bare (b : Block) : Text :=
  b.lhs ++ ('\n' :: b.indent.1 ++ ':' :: (b.bareRhs ++ [';']))

theorem isPlain_of_isSpace {x : Char} (h : isSpace x = true) : IsPlain x := by
  refine ⟨?_, ?_, ?_, ?_⟩ <;> rintro rfl <;> exact absurd h (by decide)

theorem IsToken.forall_char {t : Text} (h : IsToken t) :
    ∀ x ∈ t, isNameChar x = true ∧ isNameStart x = false := by
  have hchar : ∀ x : Char, (isUpper x || ('0' ≤ x && x ≤ '9')) = true →
      isNameChar x = true ∧ isNameStart x = false := by
    intro x hx
    simp only [isUpper, Bool.or_eq_true, Bool.and_eq_true, decide_eq_true_eq, char_le_iff,
      Char.reduceToNat] at hx
    rw [isNameChar_iff, Bool.eq_false_iff, ne_eq, isNameStart_iff]
    omega
  rcases t with _ | ⟨y, t⟩
  · exact absurd h (by exact id)
  · intro x hx
    rcases List.mem_cons.1 hx with rfl | hx
    · exact hchar x (by rw [h.1]; rfl)
    · exact hchar x (h.2 x hx)

/-! ### Balanced code -/

theorem Balanced.nesting {t : Text} (h : Balanced t) : Nesting.Balanced '{' '}' t := by
  induction h with
  | nil => exact .nil
  | char hopen hclose _ ih => exact ih.cons hopen hclose
  | @block s t _ _ ihs iht =>
    have hblock := (ihs.block (by decide)).append iht
    rwa [List.cons_append, List.append_assoc] at hblock

theorem Balanced.depthFrom_eq {t : Text} (h : Balanced t) (d : ℕ) : depthFrom d t = d := by
  rw [depthFrom_eq_depth]
  exact Nesting.depth_balanced (by decide) h.nesting d

theorem Balanced.stripFrom_eq_nil {t : Text} (h : Balanced t) (d : ℕ) :
    stripFrom (d + 1) t = [] := by
  rw [stripFrom_eq_outside]
  exact (Nesting.outside_balanced (by decide) h.nesting d).1

/-- What is not about braces is in the code of an action. -/
theorem Action.infix_code (a : Action) {w : Text} (hne : w ≠ []) (hopen : '{' ∉ w)
    (hclose : '}' ∉ w) (h : w <:+: a.text) : w <:+: a.code := by
  have hnil : ¬ w <:+: ([] : Text) := fun hw ↦ hne (List.infix_nil.1 hw)
  have hin := (infix_of_notMem (s := []) hopen h).resolve_left hnil
  exact (infix_of_notMem hclose hin).resolve_right hnil

theorem Action.quiet (a : Action) : Quiet a.text where
  no_comment := fun h ↦ a.no_comment.1
    (a.infix_code (by simp) (by simp) (by simp) h)
  no_line := fun h ↦ a.no_comment.2
    (a.infix_code (by simp) (by simp) (by simp) h)
  getLast? := by
    rw [Action.text, ← List.cons_append, List.getLast?_concat]
    decide
  no_quote := by
    have := a.no_quote.1
    simp [Action.text, this]

/-- **An action block vanishes.** -/
theorem Action.passesTo (a : Action) : PassesTo a.text [] := by
  have hdepth : depthFrom 0 a.text = 0 := by
    rw [Action.text, depthFrom, if_pos rfl, depthFrom_append, a.balanced.depthFrom_eq]
    rfl
  have hstrip : stripBraces a.text = [] := by
    rw [stripBraces, Action.text, stripFrom, if_pos rfl, stripFrom_append,
      a.balanced.stripFrom_eq_nil, a.balanced.depthFrom_eq]
    rfl
  have := a.quiet.passesTo hdepth
  rwa [hstrip] at this

/-! ### What the passes leave of a block -/

theorem Space.passesTo (w : Space) : PassesTo w.1 w.1 :=
  passesTo_of_plain fun x hx ↦ isPlain_of_isSpace (w.2 x hx)

theorem Item.passesTo (i : Item) : PassesTo i.text i.bare := by
  rcases i with ⟨n, hn⟩ | ⟨t, ht⟩ | a
  · exact passesTo_of_plain fun x hx ↦ isPlain_of_isNameChar (hn.char_of_mem hx)
  · exact passesTo_of_plain fun x hx ↦ isPlain_of_isNameChar (ht.forall_char x hx).1
  · exact a.passesTo

theorem Alternative.passesTo (a : Alternative) : PassesTo a.text a.bare :=
  (PassesTo.flatMap fun p _ ↦ (Space.passesTo p.1).append p.2.passesTo).append
    (Space.passesTo a.trail)

theorem PassesTo.char {x : Char} (hx : IsPlain x) {s u : Text} (h : PassesTo s u) :
    PassesTo (x :: s) (x :: u) :=
  (passesTo_of_plain (s := [x]) fun _ hy ↦ (List.mem_singleton.1 hy) ▸ hx).append h

theorem PassesTo.joined {α : Type} {f g : α → Text} {x : Char} (hx : IsPlain x) {l : List α}
    (h : ∀ a ∈ l, PassesTo (f a) (g a)) :
    PassesTo (Grammar.joined x (l.map f)) (Grammar.joined x (l.map g)) := by
  induction l with
  | nil => exact PassesTo.nil
  | cons a l ih =>
    have ha := h a List.mem_cons_self
    have hl := ih fun b hb ↦ h b (List.mem_cons_of_mem a hb)
    rcases l with _ | ⟨b, l⟩
    · exact ha
    · exact ha.append (hl.char hx)

theorem Block.passesTo (b : Block) : PassesTo b.text b.bare := by
  have hlhs : PassesTo b.lhs b.lhs :=
    passesTo_of_plain fun x hx ↦ isPlain_of_isNameChar (b.isName.char_of_mem hx)
  have hend : PassesTo [';'] [';'] := passesTo_of_plain fun x hx ↦ by
    rw [List.mem_singleton.1 hx]
    exact ⟨by decide, by decide, by decide, by decide⟩
  have hrhs : PassesTo (joined '|' (b.alternatives.map Alternative.text)) b.bareRhs :=
    PassesTo.joined ⟨by decide, by decide, by decide, by decide⟩ fun a _ ↦ a.passesTo
  exact hlhs.append (((Space.passesTo b.indent).append ((hrhs.append hend).char
    ⟨by decide, by decide, by decide, by decide⟩)).char
      ⟨by decide, by decide, by decide, by decide⟩)

/-! ### The rules section -/

/-- The rules section: the rules without their last line end. -/
def bodyText (lead : Option Space) (blocks : List (Block × Space)) : Text :=
  (match lead with | none => [] | some w => w.1 ++ ['\n']) ++
    joined '\n' (blocks.map fun p ↦ p.1.text ++ p.2.1)

theorem joined_append_char (x : Char) {l : List Text} (hl : l ≠ []) :
    joined x l ++ [x] = l.flatMap fun s ↦ s ++ [x] := by
  induction l with
  | nil => exact absurd rfl hl
  | cons s l ih =>
    rcases l with _ | ⟨t, l⟩
    · simp [joined]
    · rw [joined, List.append_assoc, List.cons_append, ih (List.cons_ne_nil t l),
        List.flatMap_cons (x := s), List.append_assoc]
      rfl

theorem printRules_eq (lead : Option Space) {blocks : List (Block × Space)} (h : blocks ≠ []) :
    printRules lead blocks = bodyText lead blocks ++ ['\n'] := by
  rw [printRules.eq_def, bodyText.eq_def, List.append_assoc,
    joined_append_char _ (by simpa using h), List.flatMap_map]

/-- A text made of characters other than the percent sign and of action blocks. -/
inductive Unmarked : Text → Prop
  | nil : Unmarked []
  | char {x : Char} {t : Text} (hx : x ≠ '%') (ht : Unmarked t) : Unmarked (x :: t)
  | action (a : Action) {t : Text} (ht : Unmarked t) : Unmarked (a.text ++ t)

namespace Unmarked

variable {s t : Text}

theorem append (hs : Unmarked s) (ht : Unmarked t) : Unmarked (s ++ t) := by
  induction hs with
  | nil => exact ht
  | char hx _ ih => exact char hx ih
  | action a _ ih =>
    rw [List.append_assoc]
    exact action a ih

theorem of_forall (h : ∀ x ∈ t, x ≠ '%') : Unmarked t := by
  induction t with
  | nil => exact nil
  | cons x t ih =>
    exact char (h x List.mem_cons_self) (ih fun y hy ↦ h y (List.mem_cons_of_mem x hy))

theorem flatMap {α : Type} {f : α → Text} {l : List α} (h : ∀ a ∈ l, Unmarked (f a)) :
    Unmarked (l.flatMap f) := by
  induction l with
  | nil => exact nil
  | cons a l ih =>
    rw [List.flatMap_cons]
    exact (h a List.mem_cons_self).append (ih fun b hb ↦ h b (List.mem_cons_of_mem a hb))

theorem joined {x : Char} (hx : x ≠ '%') {l : List Text} (h : ∀ s ∈ l, Unmarked s) :
    Unmarked (Grammar.joined x l) := by
  induction l with
  | nil => exact nil
  | cons s l ih =>
    have hs := h s List.mem_cons_self
    have hl := ih fun t ht ↦ h t (List.mem_cons_of_mem s ht)
    rcases l with _ | ⟨t, l⟩
    · exact hs
    · exact hs.append (hl.char hx)

theorem head?_ne (h : Unmarked t) : (t ++ ['\n']).head? ≠ some '%' := by
  rcases h with _ | ⟨hx, -⟩ | ⟨a, -⟩
  · decide
  · exact fun heq ↦ hx (Option.some.inj heq)
  · exact fun heq ↦ absurd (Option.some.inj heq) (by decide)

/-- **No line is `%%`.** -/
theorem not_isInfix (h : Unmarked t) : ¬ marker <:+: t ++ ['\n'] := by
  induction h with
  | nil => decide
  | @char x t hx ht ih =>
    intro hinfix
    rcases List.infix_cons_iff.1 hinfix with ⟨w, hw⟩ | hinfix
    · refine ht.head?_ne ?_
      have hrest : t ++ ['\n'] = ['%', '%', '\n'] ++ w := (List.cons.inj hw).2.symm
      rw [hrest]
      rfl
    · exact ih hinfix
  | @action a t _ ih =>
    intro hinfix
    have hopen : '{' ∉ marker := by decide
    have hclose : '}' ∉ marker := by decide
    have hshape : a.text ++ t ++ ['\n'] = '{' :: (a.code ++ '}' :: (t ++ ['\n'])) := by
      simp [Action.text]
    rw [hshape] at hinfix
    rcases infix_of_notMem (s := []) hopen hinfix with hinfix | hinfix
    · exact absurd (List.infix_nil.1 hinfix) (by decide)
    · rcases infix_of_notMem hclose hinfix with hinfix | hinfix
      · exact a.no_marker hinfix
      · exact ih hinfix

end Unmarked

theorem unmarked_space (w : Space) : Unmarked w.1 :=
  Unmarked.of_forall fun x hx heq ↦ absurd (heq ▸ w.2 x hx) (by decide)

theorem Item.unmarked (i : Item) : Unmarked i.text := by
  have hname : ∀ {t : Text}, (∀ x ∈ t, isNameChar x = true) → Unmarked t := fun h ↦
    Unmarked.of_forall fun x hx heq ↦ absurd (heq ▸ h x hx) (by decide)
  rcases i with ⟨n, hn⟩ | ⟨t, ht⟩ | a
  · exact hname fun x hx ↦ hn.char_of_mem hx
  · exact hname fun x hx ↦ (ht.forall_char x hx).1
  · have := Unmarked.action a Unmarked.nil
    rwa [List.append_nil] at this

theorem Block.unmarked (b : Block) : Unmarked b.text := by
  have hlhs : Unmarked b.lhs := Unmarked.of_forall fun x hx heq ↦
    absurd (heq ▸ b.isName.char_of_mem hx) (by decide)
  have hrhs : Unmarked (joined '|' (b.alternatives.map Alternative.text)) := by
    refine Unmarked.joined (by decide) fun s hs ↦ ?_
    obtain ⟨a, -, rfl⟩ := List.mem_map.1 hs
    exact (Unmarked.flatMap fun p _ ↦ (unmarked_space p.1).append p.2.unmarked).append
      (unmarked_space a.trail)
  have hend : Unmarked [';'] := Unmarked.nil.char (by decide)
  exact hlhs.append (((unmarked_space b.indent).append ((hrhs.append hend).char
    (by decide))).char (by decide))

theorem bodyText_unmarked (lead : Option Space) (blocks : List (Block × Space)) :
    Unmarked (bodyText lead blocks) := by
  have hblocks : Unmarked (joined '\n' (blocks.map fun p ↦ p.1.text ++ p.2.1)) := by
    refine Unmarked.joined (by decide) fun s hs ↦ ?_
    obtain ⟨p, -, rfl⟩ := List.mem_map.1 hs
    exact p.1.unmarked.append (unmarked_space p.2)
  rcases lead with _ | w
  · exact hblocks
  · exact ((unmarked_space w).append (Unmarked.nil.char (by decide))).append hblocks

/-- The first cut in a text without a line `%%` and a marker behind it. -/
theorem cut_marker {s : Text} (h : ¬ marker <:+: s ++ ['\n']) (t : Text) :
    cut marker (s ++ (marker ++ t)) = some (s, t) := by
  rw [cut_append_of_none, cut_of_prefix (by decide)]
  · simp
  · -- only three characters of a marker at the end would go on with the marker
    rintro u hu ⟨r, rfl⟩ ⟨w, hw⟩
    rcases u with _ | ⟨a, _ | ⟨b, _ | ⟨c, _ | ⟨d, u⟩⟩⟩⟩
    · exact hu rfl
    · simp [marker] at hw
    · simp [marker] at hw
    · simp only [marker, List.cons_append, List.cons.injEq] at hw
      obtain ⟨rfl, rfl, rfl, -⟩ := hw
      exact h ⟨r, [], by simp [marker]⟩
    · simp only [marker, List.cons_append, List.cons.injEq] at hw
      obtain ⟨rfl, rfl, rfl, rfl, -⟩ := hw
      exact h ⟨r, u ++ ['\n'], by simp [marker]⟩

theorem rulesSection_printFile {declarations : Text}
    (hdecl : ¬ marker <:+: '\n' :: declarations ++ ['\n']) (lead : Option Space)
    {blocks : List (Block × Space)} (hblocks : blocks ≠ []) (epilogue : Text) :
    rulesSection (printFile declarations lead blocks epilogue) = bodyText lead blocks := by
  have hshape : printFile declarations lead blocks epilogue =
      declarations ++ (marker ++ (bodyText lead blocks ++ (marker ++ epilogue))) := by
    rw [printFile, printRules_eq lead hblocks]
    simp [marker]
  have hfirst : ¬ marker <:+: declarations ++ ['\n'] := fun h ↦
    hdecl (h.trans (List.suffix_cons _ _).isInfix)
  rw [rulesSection_eq, hshape, cut_marker hfirst]
  dsimp only
  rw [cut_marker (bodyText_unmarked lead blocks).not_isInfix]

/-! ### The names on a right-hand side -/

theorem breaks_items {items : List (Space × Item)} (h : ∀ p ∈ items, p.1.1 ≠ []) {w : Text}
    (hw : Breaks w) : Breaks ((items.flatMap fun p ↦ p.1.1 ++ p.2.bare) ++ w) := by
  rcases items with _ | ⟨p, items⟩
  · exact hw
  · have hne := h p List.mem_cons_self
    rw [List.flatMap_cons, List.append_assoc, List.append_assoc]
    rcases hspace : p.1.1 with _ | ⟨x, v⟩
    · exact absurd hspace hne
    · refine breaks_cons (isNameChar_of_isSpace (p.1.2 x ?_)) _
      rw [hspace]
      exact List.mem_cons_self

theorem findall_items {items : List (Space × Item)} (h : ∀ p ∈ items.tail, p.1.1 ≠ []) {w : Text}
    (hw : Breaks w) :
    findall name ((items.flatMap fun p ↦ p.1.1 ++ p.2.bare) ++ w) =
      (items.filterMap fun p ↦ match p.2 with
        | .name n _ => some n
        | _ => none) ++ findall name w := by
  induction items with
  | nil => rfl
  | cons p items ih =>
    obtain ⟨v, i⟩ := p
    have htail := ih fun q hq ↦ h q (List.mem_of_mem_tail hq)
    have hspace : ∀ x ∈ v.1, isNameStart x = false := fun x hx ↦ isNameStart_of_isSpace (v.2 x hx)
    rw [List.flatMap_cons, List.append_assoc, List.append_assoc, findall_name_skip hspace]
    rcases i with ⟨n, hn⟩ | ⟨t, ht⟩ | a
    · -- a name is found in full, as white space or a bar comes after it
      have hbreaks : Breaks ((items.flatMap fun p ↦ p.1.1 ++ p.2.bare) ++ w) := breaks_items h hw
      show findall name (n ++ _) = n :: _
      rw [findall_name_append hn hbreaks, htail]
      rfl
    · show findall name (t ++ _) = _
      rw [findall_name_skip (fun x hx ↦ (ht.forall_char x hx).2), htail]
      rfl
    · exact htail

theorem findall_alternative (a : Alternative) {w : Text} (hw : Breaks w) :
    findall name (a.bare ++ w) = a.names ++ findall name w := by
  have htrail : ∀ x ∈ a.trail.1, isNameStart x = false := fun x hx ↦
    isNameStart_of_isSpace (a.trail.2 x hx)
  rw [Alternative.bare, List.append_assoc,
    findall_items a.spaced (breaks_of_isSpace a.trail.2 hw), findall_name_skip htrail]
  rfl

theorem findall_bareRhs (b : Block) :
    findall name b.bareRhs = b.alternatives.flatMap Alternative.names := by
  rw [Block.bareRhs]
  induction b.alternatives with
  | nil => rfl
  | cons a l ih =>
    rcases l with _ | ⟨a', l⟩
    · have := findall_alternative a (w := []) fun x u h ↦ by cases h
      rwa [List.append_nil, findall_nil] at this
    · have hbar : Breaks ('|' :: joined '|' ((a' :: l).map Alternative.bare)) :=
        breaks_cons (by decide) _
      have hskip : findall name ('|' :: joined '|' ((a' :: l).map Alternative.bare)) =
          findall name (joined '|' ((a' :: l).map Alternative.bare)) :=
        findall_name_skip (w := ['|']) (by decide) _
      show findall name (a.bare ++ '|' :: joined '|' ((a' :: l).map Alternative.bare)) = _
      rw [findall_alternative a hbar, hskip, ih, List.flatMap_cons (x := a)]

theorem notMem_bareRhs (b : Block) : ';' ∉ b.bareRhs := by
  have hspace : ∀ w : Space, ';' ∉ w.1 := fun w h ↦ absurd (w.2 _ h) (by decide)
  have hitem : ∀ i : Item, ';' ∉ i.bare := by
    rintro (⟨n, hn⟩ | ⟨t, ht⟩ | a) h
    · exact hn.notMem (by decide) h
    · exact absurd (ht.forall_char _ h).1 (by decide)
    · cases h
  have halternative : ∀ a : Alternative, ';' ∉ a.bare := by
    intro a h
    rcases List.mem_append.1 h with h | h
    · obtain ⟨p, -, hp⟩ := List.mem_flatMap.1 h
      rcases List.mem_append.1 hp with hp | hp
      · exact hspace p.1 hp
      · exact hitem p.2 hp
    · exact hspace a.trail h
  rw [Block.bareRhs]
  induction b.alternatives with
  | nil => exact List.not_mem_nil
  | cons a l ih =>
    rcases l with _ | ⟨a', l⟩
    · exact halternative a
    · intro h
      rcases List.mem_append.1 h with h | h
      · exact halternative a h
      · exact ih ((List.mem_cons.1 h).resolve_left (by decide))

/-! ### The blocks -/

/-- What is left of the rules section. -/
def bareText (lead : Option Space) (blocks : List (Block × Space)) : Text :=
  (match lead with | none => [] | some w => w.1 ++ ['\n']) ++
    joined '\n' (blocks.map fun p ↦ p.1.bare ++ p.2.1)

theorem passesTo_bodyText (lead : Option Space) (blocks : List (Block × Space)) :
    PassesTo (bodyText lead blocks) (bareText lead blocks) := by
  have hend : IsPlain '\n' := ⟨by decide, by decide, by decide, by decide⟩
  have hblocks := PassesTo.joined (f := fun p : Block × Space ↦ p.1.text ++ p.2.1)
    (g := fun p ↦ p.1.bare ++ p.2.1) hend (l := blocks)
    fun p _ ↦ p.1.passesTo.append (Space.passesTo p.2)
  rcases lead with _ | w
  · exact hblocks
  · exact ((Space.passesTo w).append (PassesTo.nil.char hend)).append hblocks

theorem blocksFrom_bare (b : Block) (t : Text) :
    blocksFrom true (b.bare ++ t) = b.refs :: blocksFrom false t := by
  have hw : ∀ x ∈ '\n' :: b.indent.1, isSpace x = true := by
    intro x hx
    rcases List.mem_cons.1 hx with rfl | hx
    · decide
    · exact b.indent.2 x hx
  have hshape : b.bare ++ t =
      b.lhs ++ ('\n' :: b.indent.1 ++ ':' :: (b.bareRhs ++ ';' :: t)) := by
    simp [Block.bare]
  rw [hshape, blocksFrom_block b.isName hw (notMem_bareRhs b), findall_bareRhs]
  rfl

/-- **The blocks are found one after the other.** -/
theorem blocksFrom_joined (blocks : List (Block × Space)) :
    blocksFrom true (joined '\n' (blocks.map fun p ↦ p.1.bare ++ p.2.1)) =
      blocks.map fun p ↦ p.1.refs := by
  induction blocks with
  | nil => rfl
  | cons p blocks ih =>
    rcases blocks with _ | ⟨q, blocks⟩
    · show blocksFrom true (p.1.bare ++ p.2.1) = [p.1.refs]
      rw [blocksFrom_bare, blocksFrom_of_isSpace p.2.2]
    · show blocksFrom true ((p.1.bare ++ p.2.1) ++ '\n' :: _) = p.1.refs :: _
      rw [List.append_assoc, blocksFrom_bare, blocksFrom_space p.2.2]
      exact congrArg _ ih

theorem blocksIn_bareText (lead : Option Space) (blocks : List (Block × Space)) :
    blocksIn (bareText lead blocks) = blocks.map fun p ↦ p.1.refs := by
  rw [blocksIn_eq]
  rcases lead with _ | w
  · exact blocksFrom_joined blocks
  · show blocksFrom true ((w.1 ++ ['\n']) ++ _) = _
    rw [List.append_assoc, List.singleton_append, blocksFrom_space w.2]
    exact blocksFrom_joined blocks

/-- The rules read are those of the blocks. -/
theorem parseRules_eq {declarations : Text}
    (hdecl : ¬ marker <:+: '\n' :: declarations ++ ['\n']) (lead : Option Space)
    {blocks : List (Block × Space)} (hblocks : blocks ≠ []) (epilogue : Text) :
    parseRules (printFile declarations lead blocks epilogue) =
      collectRules (bareText lead blocks) := by
  rw [parseRules, rulesSection_printFile hdecl lead hblocks,
    (passesTo_bodyText lead blocks).passes_eq]

/-- The names on the right of the blocks of a rule, in order. -/
def referenced (blocks : List (Block × Space)) (n : Text) : List Text :=
  (blocks.filter fun p ↦ decide (p.1.lhs = n)).flatMap fun p ↦
    p.1.alternatives.flatMap Alternative.names

/-- **The rule graph of a printed grammar.** -/
theorem parseRules_printFile (declarations : Text)
    (hdecl : ¬ marker <:+: '\n' :: declarations ++ ['\n']) (lead : Option Space)
    (blocks : List (Block × Space)) (hblocks : blocks ≠ []) (epilogue : Text) (n : Text) :
    (n ∈ (parseRules (printFile declarations lead blocks epilogue)).keys ↔
      ∃ p ∈ blocks, p.1.lhs = n) ∧
    ∀ p ∈ blocks, p.1.lhs = n →
      (parseRules (printFile declarations lead blocks epilogue)).get? n =
        some ((referenced blocks n).eraseDups.filter fun r ↦
          decide ((∃ q ∈ blocks, q.1.lhs = r) ∧ r ≠ n)) := by
  have hlhs : ∀ m, m ∈ lhsNames (blocks.map fun p ↦ p.1.refs) ↔ ∃ p ∈ blocks, p.1.lhs = m := by
    intro m
    rw [lhsNames, List.map_map, List.mem_map]
    rfl
  have hrhs : rhsNames (blocks.map fun p ↦ p.1.refs) n = referenced blocks n := by
    rw [rhsNames, List.filter_map, List.flatMap_map]
    rfl
  rw [parseRules_eq hdecl lead hblocks, mem_keys_collectRules, blocksIn_bareText, hlhs]
  refine ⟨Iff.rfl, fun p hp hn ↦ ?_⟩
  rw [get?_collectRules, blocksIn_bareText, if_pos ((hlhs n).2 ⟨p, hp, hn⟩), hrhs]
  exact congrArg some (List.filter_congr fun r _ ↦
    decide_eq_decide.2 (and_congr_left' (hlhs r)))

/-- An action with a block and a semicolon inside. -/
def nestedAction : Action where
  code := "if (x) {b;}".toList
  balanced := by
    have hinner : Balanced "b;".toList := Balanced.nil.char (by decide) (by decide) |>.char
      (by decide) (by decide)
    have hblock : Balanced "{b;}".toList := hinner.block Balanced.nil
    exact ((((((hblock.char (by decide) (by decide)).char (by decide) (by decide)).char
      (by decide) (by decide)).char (by decide) (by decide)).char (by decide) (by decide)).char
        (by decide) (by decide)).char (by decide) (by decide)
  no_quote := by decide
  no_comment := by decide
  no_marker := by decide

/-- Two rules, the first one of which refers to the second behind an action. -/
def twoBlocks : List (Block × Space) :=
  [(⟨['a'], by decide, ⟨['\t'], by decide⟩,
      [⟨[(⟨[], by decide⟩, .action nestedAction), (⟨[' '], by decide⟩, .name ['b'] (by decide))],
        by decide, ⟨[], by decide⟩⟩]⟩, ⟨[], by decide⟩),
    (⟨['b'], by decide, ⟨[], by decide⟩, []⟩, ⟨[], by decide⟩)]

theorem parseRules_printFile_twoBlocks :
    (parseRules (printFile ['x'] none twoBlocks ['y'])).get? ['a'] = some [['b']] := by
  have h := (parseRules_printFile ['x'] (by decide) none twoBlocks (by decide) ['y'] ['a']).2 _
    List.mem_cons_self rfl
  rw [h]
  decide

/-- Without a block, the rules of the file need not be those of the grammar: here the epilogue has
one. -/
theorem parseRules_printFile_nil_ne :
    ¬ ∀ (declarations : Text) (lead : Option Space) (blocks : List (Block × Space))
      (epilogue n : Text), ¬ marker <:+: '\n' :: declarations ++ ['\n'] →
        (n ∈ (parseRules (printFile declarations lead blocks epilogue)).keys ↔
          ∃ p ∈ blocks, p.1.lhs = n) := by
  intro h
  have hkey := h ['x'] none [] "foo\n:;\n".toList ['f', 'o', 'o'] (by decide)
  have hmem : ['f', 'o', 'o'] ∈ (parseRules (printFile ['x'] none [] "foo\n:;\n".toList)).keys := by
    decide +kernel
  obtain ⟨p, hp, -⟩ := hkey.1 hmem
  exact absurd hp List.not_mem_nil

end FirebirdSamples.Grammar
