import FirebirdSamples.Grammar.Parse

/-!
# The dictionary of the rules

The loops that fill the dictionary, said without a loop. A rule may come in several blocks; its
references are those of all its blocks, in order and each at its first occurrence, and of these the
ones that are rules themselves, and not the rule itself (`get?_collectRules`).

`fill` is the dictionary before the last loop, and `Filled` says of which blocks it is the
dictionary. Adding a block to the dictionary adds it to the blocks (`Filled.addRule`).
-/

namespace FirebirdSamples.Grammar

open Regex

/-! ### First occurrences -/

theorem eraseDups_concat (l : List Text) (r : Text) :
    (l ++ [r]).eraseDups = if r ∈ l then l.eraseDups else l.eraseDups ++ [r] := by
  rw [List.eraseDups_append]
  split_ifs with h <;> simp [List.removeAll, List.eraseDups_cons, h]

/-! ### Blocks -/

/-- A block of a rule: the name on the left and the names on the right. -/
abbrev Refs := Text × List Text

/-- The names of the rules that have a block. -/
def lhsNames (blocks : List Refs) : List Text :=
  blocks.map Prod.fst

/-- The names on the right of all the blocks of a rule. -/
def rhsNames (blocks : List Refs) (n : Text) : List Text :=
  (blocks.filter fun b ↦ decide (b.1 = n)).flatMap Prod.snd

/-- The block that a match of the rule expression captures. -/
def blockOf (m : Match) : Refs :=
  (m.groups.getD 0 [], findall name (m.groups.getD 1 []))

/-- A dictionary of blocks: each rule with the first occurrences of its references. -/
def Filled (rules : Dict Text (List Text)) (blocks : List Refs) : Prop :=
  ∀ n, rules.get? n =
    if n ∈ lhsNames blocks then some (rhsNames blocks n).eraseDups else none

theorem Filled.mem_keys {rules : Dict Text (List Text)} {blocks : List Refs}
    (h : Filled rules blocks) {n : Text} : n ∈ rules.keys ↔ n ∈ lhsNames blocks := by
  have hnone := Dict.get?_eq_none_iff (d := rules) (k := n)
  rw [h n] at hnone
  by_cases hn : n ∈ lhsNames blocks
  · rw [if_pos hn] at hnone
    exact iff_of_true (not_not.1 fun hkey ↦ Option.some_ne_none _ (hnone.2 hkey)) hn
  · rw [if_neg hn] at hnone
    exact iff_of_false (hnone.1 rfl) hn

theorem filled_empty : Filled .empty [] := by
  intro n
  rfl

theorem lhsNames_concat (blocks : List Refs) (b : Refs) :
    lhsNames (blocks ++ [b]) = lhsNames blocks ++ [b.1] :=
  List.map_append

theorem rhsNames_concat (blocks : List Refs) (b : Refs) (n : Text) :
    rhsNames (blocks ++ [b]) n = rhsNames blocks n ++ if b.1 = n then b.2 else [] := by
  rw [rhsNames, List.filter_append, List.flatMap_append]
  split_ifs with h <;> simp [rhsNames, h]

theorem rhsNames_of_notMem {blocks : List Refs} {n : Text} (h : n ∉ lhsNames blocks) :
    rhsNames blocks n = [] := by
  have hnone : blocks.filter (fun b ↦ decide (b.1 = n)) = [] := by
    refine List.filter_eq_nil_iff.2 fun b hb heq ↦ h ?_
    exact List.mem_map.2 ⟨b, hb, of_decide_eq_true heq⟩
  rw [rhsNames, hnone, List.flatMap_nil]

/-- The left-hand side alone. -/
theorem Filled.setdefault {rules : Dict Text (List Text)} {blocks : List Refs}
    (h : Filled rules blocks) (lhs : Text) :
    Filled (rules.setdefault lhs []) (blocks ++ [(lhs, [])]) := by
  intro n
  rw [Dict.get?_setdefault, h n, lhsNames_concat, rhsNames_concat]
  by_cases hn : n = lhs
  · obtain rfl := hn
    rw [if_pos rfl, if_pos (List.mem_append_right _ (List.mem_singleton.2 rfl)), ite_self,
      List.append_nil]
    split_ifs with hmem
    · rfl
    · rw [rhsNames_of_notMem hmem]
      rfl
  · have hmem : n ∈ lhsNames blocks ++ [lhs] ↔ n ∈ lhsNames blocks := by
      simp [hn]
    rw [if_neg hn, ite_self, List.append_nil]
    simp only [hmem]

/-- One more reference of the last block. -/
theorem Filled.addRef {rules : Dict Text (List Text)} {blocks : List Refs} {lhs : Text}
    {refs : List Text} (h : Filled rules (blocks ++ [(lhs, refs)])) (r : Text) :
    Filled (if r ∈ (rules.get? lhs).getD [] then rules else rules.modify lhs (· ++ [r]))
      (blocks ++ [(lhs, refs ++ [r])]) := by
  have hlhs : lhs ∈ lhsNames (blocks ++ [(lhs, refs)]) := by
    rw [lhsNames_concat]
    exact List.mem_append_right _ (List.mem_singleton.2 rfl)
  have hkeys : lhsNames (blocks ++ [(lhs, refs ++ [r])]) = lhsNames (blocks ++ [(lhs, refs)]) := by
    rw [lhsNames_concat, lhsNames_concat]
  have hself : rhsNames (blocks ++ [(lhs, refs ++ [r])]) lhs =
      rhsNames (blocks ++ [(lhs, refs)]) lhs ++ [r] := by
    rw [rhsNames_concat, rhsNames_concat, if_pos rfl, if_pos rfl, List.append_assoc]
  have hother : ∀ n, n ≠ lhs → rhsNames (blocks ++ [(lhs, refs ++ [r])]) n =
      rhsNames (blocks ++ [(lhs, refs)]) n := by
    intro n hn
    rw [rhsNames_concat, rhsNames_concat, if_neg (Ne.symm hn), if_neg (Ne.symm hn)]
  have hold : (rules.get? lhs).getD [] = (rhsNames (blocks ++ [(lhs, refs)]) lhs).eraseDups := by
    rw [h lhs, if_pos hlhs]
    rfl
  intro n
  rw [hkeys]
  simp only [hold, List.mem_eraseDups]
  by_cases hn : n = lhs
  · obtain rfl := hn
    rw [if_pos hlhs, hself, eraseDups_concat]
    split_ifs with hr
    · rw [h n, if_pos hlhs]
    · rw [Dict.get?_modify, if_pos rfl, h n, if_pos hlhs]
      rfl
  · rw [hother n hn]
    split_ifs with hr hmem hmem
    · rw [h n, if_pos hmem]
    · rw [h n, if_neg hmem]
    · rw [Dict.get?_modify, if_neg hn, h n, if_pos hmem]
    · rw [Dict.get?_modify, if_neg hn, h n, if_neg hmem]

theorem Filled.addRefs {rules : Dict Text (List Text)} {blocks : List Refs} {lhs : Text}
    {refs : List Text} (h : Filled rules (blocks ++ [(lhs, refs)])) (more : List Text) :
    Filled (addRefs lhs rules more) (blocks ++ [(lhs, refs ++ more)]) := by
  induction more generalizing rules refs with
  | nil => rwa [List.append_nil]
  | cons r more ih =>
    have := ih (h.addRef r)
    rwa [List.append_assoc] at this

/-- **A block is added to the dictionary.** -/
theorem Filled.addRule {rules : Dict Text (List Text)} {blocks : List Refs}
    (h : Filled rules blocks) (m : Match) :
    Filled (addRule rules m) (blocks ++ [blockOf m]) := by
  have := (h.setdefault (m.groups.getD 0 [])).addRefs (findall name (m.groups.getD 1 []))
  rwa [List.nil_append] at this

theorem filled_foldl (ms : List Match) :
    Filled (ms.foldl Grammar.addRule .empty) (ms.map blockOf) := by
  induction ms using List.reverseRecOn with
  | nil => exact filled_empty
  | append_singleton ms m ih =>
    rw [List.foldl_append, List.map_append]
    exact ih.addRule m

/-! ### The result -/

/-- The blocks in a text that has been through the passes. -/
def blocksIn (body : Text) : List Refs :=
  (finditer rule body).map blockOf

theorem mem_keys_collectRules {body n : Text} :
    n ∈ (collectRules body).keys ↔ n ∈ lhsNames (blocksIn body) := by
  rw [collectRules, keepDefined, Dict.keys_mapEntries]
  exact (filled_foldl _).mem_keys

/-- **The references of a rule.** -/
theorem get?_collectRules (body n : Text) :
    (collectRules body).get? n =
      if n ∈ lhsNames (blocksIn body) then
        some ((rhsNames (blocksIn body) n).eraseDups.filter fun r ↦
          decide (r ∈ lhsNames (blocksIn body) ∧ r ≠ n))
      else none := by
  have hfilled := filled_foldl (finditer rule body)
  rw [collectRules, keepDefined, Dict.get?_mapEntries, hfilled n]
  have hkeep : ∀ r, r ∈ ((finditer rule body).foldl addRule .empty).keys ∧ r ≠ n ↔
      r ∈ lhsNames (blocksIn body) ∧ r ≠ n := fun r ↦ and_congr_left' hfilled.mem_keys
  show Option.map _ (if n ∈ lhsNames (blocksIn body) then _ else none) = _
  split_ifs
  · exact congrArg some (List.filter_congr fun r _ ↦ decide_eq_decide.2 (hkeep r))
  · rfl

end FirebirdSamples.Grammar
