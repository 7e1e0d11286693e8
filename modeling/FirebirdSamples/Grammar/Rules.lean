import FirebirdSamples.Library.Dict
import FirebirdSamples.Library.BreadthFirst

/-!
# Rule maps

The tool that draws the SQL grammar works on a map from the name of each rule to the names of the
rules it refers to. A `RuleMap` is such a map: a dictionary in insertion order, in which no rule has
a reference twice. `Rules` adds the other promises that the tool's parser keeps: rules have names,
and their references are rules of the map.

The map is the directed graph of the grammar. `RuleMap.distance` is its distance, in steps from a
rule to a reference.
-/

namespace FirebirdSamples.Grammar

/-- A string. -/
abbrev Text := List Char

/-- Equal texts are the same text. -/
instance lawfulBEqText : LawfulBEq Text :=
  inferInstance

/-- What holds of all characters of a text is decided on these, not on all the characters there
are. -/
instance (priority := high) decidableForallMem {p : Char → Prop} [DecidablePred p] (t : Text) :
    Decidable (∀ x ∈ t, p x) :=
  List.decidableBAll p t

/-- `[a-z_]`. -/
def isNameStart (x : Char) : Bool :=
  ('a' ≤ x && x ≤ 'z') || x == '_'

/-- `[a-zA-Z0-9_]`. -/
def isNameChar (x : Char) : Bool :=
  ('a' ≤ x && x ≤ 'z') || ('A' ≤ x && x ≤ 'Z') || ('0' ≤ x && x ≤ '9') || x == '_'

/-- The name of a rule, `[a-z_][a-zA-Z0-9_]*`. -/
def IsName : Text → Prop
  | [] => False
  | x :: t => isNameStart x = true ∧ ∀ y ∈ t, isNameChar y = true

instance : DecidablePred IsName
  | [] => inferInstanceAs (Decidable False)
  | x :: t => inferInstanceAs (Decidable (isNameStart x = true ∧ ∀ y ∈ t, isNameChar y = true))

theorem char_le_iff (x y : Char) : x ≤ y ↔ x.toNat ≤ y.toNat :=
  Iff.rfl

theorem eq_underscore_iff {x : Char} : x = '_' ↔ x.toNat = 95 := by
  rw [← Char.toNat_inj]
  rfl

/-- The codes of the first characters of names. -/
theorem isNameStart_iff {x : Char} :
    isNameStart x = true ↔ (97 ≤ x.toNat ∧ x.toNat ≤ 122) ∨ x.toNat = 95 := by
  simp only [isNameStart, Bool.or_eq_true, Bool.and_eq_true, decide_eq_true_eq, beq_iff_eq,
    char_le_iff, eq_underscore_iff, Char.reduceToNat]

/-- The codes of the other ones. -/
theorem isNameChar_iff {x : Char} :
    isNameChar x = true ↔ (((97 ≤ x.toNat ∧ x.toNat ≤ 122) ∨ 65 ≤ x.toNat ∧ x.toNat ≤ 90) ∨
      48 ≤ x.toNat ∧ x.toNat ≤ 57) ∨ x.toNat = 95 := by
  simp only [isNameChar, Bool.or_eq_true, Bool.and_eq_true, decide_eq_true_eq, beq_iff_eq,
    char_le_iff, eq_underscore_iff, Char.reduceToNat]

theorem isNameChar_of_isNameStart {x : Char} (h : isNameStart x = true) : isNameChar x = true := by
  rw [isNameStart_iff] at h
  rw [isNameChar_iff]
  omega

theorem IsName.char_of_mem {n : Text} (h : IsName n) {x : Char} (hx : x ∈ n) :
    isNameChar x = true := by
  rcases n with _ | ⟨y, t⟩
  · exact absurd hx List.not_mem_nil
  · rcases List.mem_cons.1 hx with rfl | hx
    · exact isNameChar_of_isNameStart h.1
    · exact h.2 x hx

/-- A character that no name has. -/
theorem IsName.notMem {n : Text} (h : IsName n) {x : Char} (hx : isNameChar x = false) : x ∉ n := by
  intro hmem
  rw [h.char_of_mem hmem] at hx
  cases hx

/-- **A rule map.** -/
structure RuleMap where
  /-- Each rule with its references. -/
  map : Dict Text (List Text)
  /-- No rule has a reference twice. -/
  nodup_refs : ∀ n refs, map.get? n = some refs → refs.Nodup

namespace RuleMap

variable (rules : RuleMap)

/-- The names of the rules. -/
def names : List Text :=
  rules.map.keys

/-- `rules.get(cur, [])`. -/
def refs (cur : Text) : List Text :=
  (rules.map.get? cur).getD []

/-- The number of steps from a rule to another, along references. -/
noncomputable def distance (root n : Text) : ℕ∞ :=
  BreadthFirst.edist rules.refs root n

/-- All that the map speaks of: its rules and their references. -/
def mentioned : List Text :=
  rules.names ++ rules.names.flatMap rules.refs

theorem nodup_refs_of (cur : Text) : (rules.refs cur).Nodup := by
  rw [refs]
  rcases hget : rules.map.get? cur with _ | l
  · exact List.nodup_nil
  · exact rules.nodup_refs cur l hget

/-- Only rules have references. -/
theorem mem_names_of_mem_refs_of {cur r : Text} (h : r ∈ rules.refs cur) : cur ∈ rules.names := by
  by_contra hcur
  rw [refs, Dict.get?_eq_none_iff.2 hcur] at h
  cases h

/-- Every walk from a rule stays within what the map speaks of. -/
theorem mem_mentioned_of_walk {n : ℕ} {root a : Text} (hroot : root ∈ rules.names)
    (h : BreadthFirst.Walk rules.refs n root a) : a ∈ rules.mentioned := by
  rcases h with _ | ⟨-, hc⟩
  · exact List.mem_append_left _ hroot
  · exact List.mem_append_right _ (List.mem_flatMap.2 ⟨_, rules.mem_names_of_mem_refs_of hc, hc⟩)

end RuleMap

/-- **The rule map of a grammar.** -/
structure Rules extends RuleMap where
  /-- Rules have names. -/
  isName : ∀ n ∈ map.keys, IsName n
  /-- References are rules. -/
  refs_mem : ∀ n refs, map.get? n = some refs → ∀ r ∈ refs, r ∈ map.keys

namespace Rules

variable (rules : Rules)

theorem mem_names_of_mem_refs {cur r : Text} (h : r ∈ rules.refs cur) : r ∈ rules.names := by
  rw [RuleMap.refs] at h
  rcases hget : rules.map.get? cur with _ | l
  · rw [hget] at h
    cases h
  · rw [hget] at h
    exact rules.refs_mem cur l hget r h

/-- Every walk from a rule stays within the map. -/
theorem mem_names_of_walk {n : ℕ} {root a : Text} (hroot : root ∈ rules.names)
    (h : BreadthFirst.Walk rules.refs n root a) : a ∈ rules.names := by
  induction h with
  | refl => exact hroot
  | snoc _ hc _ => exact rules.mem_names_of_mem_refs hc

end Rules

end FirebirdSamples.Grammar
