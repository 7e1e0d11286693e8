import FirebirdSamples.Grammar.Printed

/-!
# Normal forms of grammar files

Whatever the text, `parseRules` returns the rules of a grammar (`parsed`): the rule expression
captures names only, a rule has no reference twice, and its references are rules, and not the rule
itself. The rules come in the order of their first blocks (`keys_collectRules`).

`normalText` prints a rule map as a file, one block for each rule and one alternative for each
reference. The parser reads from it what was printed (`parseRules_normalText`), so that a file and
the normal form of what the parser makes of it have the same rules
(`parseRules_normalText_parsed`).
-/

namespace FirebirdSamples.Grammar

open Regex

/-! ### First occurrences -/

theorem nodup_eraseDups (l : List Text) : l.eraseDups.Nodup := by
  induction l using List.reverseRecOn with
  | nil => exact List.nodup_nil
  | append_singleton l r ih =>
    rw [eraseDups_concat]
    split_ifs with hr
    · exact ih
    · refine List.nodup_append'.2 ⟨ih, List.nodup_singleton r, ?_⟩
      exact List.disjoint_singleton.2 fun h ↦ hr (List.mem_eraseDups.1 h)

theorem eraseDups_eq_self {l : List Text} (h : l.Nodup) : l.eraseDups = l := by
  induction l using List.reverseRecOn with
  | nil => rfl
  | append_singleton l r ih =>
    obtain ⟨hl, -, hr⟩ := List.nodup_append'.1 h
    rw [eraseDups_concat, if_neg (List.disjoint_singleton.1 hr), ih hl]

/-! ### What the parser returns -/

/-- The rule expression captures a name first. -/
theorem isName_of_mem_finditer {body : Text} {m : Match} (h : m ∈ finditer rule body) :
    IsName (blockOf m).1 := by
  obtain ⟨o, ho, hright⟩ := List.mem_filterMap.1 h
  obtain rfl := Sum.getRight?_eq_some_iff.1 hright
  obtain ⟨l, u, b, d, hd, -, hgroups⟩ := mem_scan ho
  rw [rule_eq] at hd
  obtain ⟨c, hc, hd⟩ := List.mem_flatMap.1 hd
  obtain ⟨e, he, hd⟩ := List.mem_flatMap.1 hd
  obtain ⟨o, hname, v, hv, hrest, hcapture⟩ := mem_run_group he
  have hstart : c.groups = [] := groups_of_mem_run (by rfl) hc
  obtain ⟨t, ht⟩ : [v] <+: d.groups := by
    have := groups_isPrefix_of_mem_run hd
    rwa [hcapture, groups_of_mem_run (by rfl) hname, hstart] at this
  obtain ⟨o', hfirst, hstar⟩ := List.mem_flatMap.1 hname
  obtain ⟨x, s, hs, hx, rfl⟩ := mem_run_one.1 hfirst
  obtain ⟨w, hw, hchars⟩ := exists_of_mem_run_star_one hstar
  -- the group is what stands between the place of the match and the end of the name
  have hsplit : v ++ e.rest = (x :: w) ++ e.rest := by
    rw [← hv, hs, ← hrest]
    exact congrArg (x :: ·) hw
  obtain rfl := List.append_cancel_right hsplit
  rw [blockOf, hgroups, ← ht]
  exact ⟨hx, hchars⟩

theorem isName_of_mem_lhsNames {body n : Text} (h : n ∈ lhsNames (blocksIn body)) : IsName n := by
  obtain ⟨b, hb, rfl⟩ := List.mem_map.1 h
  obtain ⟨m, hm, rfl⟩ := List.mem_map.1 hb
  exact isName_of_mem_finditer hm

theorem keys_addRefs (lhs : Text) (rules : Dict Text (List Text)) (refs : List Text) :
    (addRefs lhs rules refs).keys = rules.keys := by
  induction refs generalizing rules with
  | nil => rfl
  | cons r refs ih =>
    show (addRefs lhs (if r ∈ (rules.get? lhs).getD [] then rules
      else rules.modify lhs (· ++ [r])) refs).keys = rules.keys
    rw [ih]
    split_ifs
    · rfl
    · exact Dict.keys_modify _ _ _

/-- **The order of the rules** is that of their first blocks. -/
theorem keys_collectRules (body : Text) :
    (collectRules body).keys = (lhsNames (blocksIn body)).eraseDups := by
  rw [collectRules, keepDefined, Dict.keys_mapEntries, blocksIn]
  induction finditer rule body using List.reverseRecOn with
  | nil => rfl
  | append_singleton ms m ih =>
    rw [List.foldl_append, List.map_append]
    show (addRule (ms.foldl addRule .empty) m).keys =
      (lhsNames (ms.map blockOf ++ [blockOf m])).eraseDups
    have hmem := (filled_foldl ms).mem_keys (n := (blockOf m).1)
    rw [lhsNames_concat, eraseDups_concat, addRule, keys_addRefs, Dict.keys_setdefault, ← ih]
    by_cases hm : (blockOf m).1 ∈ lhsNames (ms.map blockOf)
    · rw [if_pos hm]
      exact if_pos (hmem.2 hm)
    · rw [if_neg hm]
      exact if_neg fun h ↦ hm (hmem.1 h)

/-- **The rules of a file**, with all that the parser promises of them. -/
def parsed (src : Text) : Rules where
  map := parseRules src
  nodup_refs := by
    intro n refs h
    rw [parseRules, get?_collectRules] at h
    split_ifs at h
    obtain rfl := Option.some.inj h
    exact (nodup_eraseDups _).filter _
  isName := by
    intro n h
    exact isName_of_mem_lhsNames (mem_keys_collectRules.1 h)
  refs_mem := by
    intro n refs h r hr
    rw [parseRules, get?_collectRules] at h
    split_ifs at h
    obtain rfl := Option.some.inj h
    exact mem_keys_collectRules.2 (of_decide_eq_true (List.mem_filter.1 hr).2).1

theorem parsed_map (src : Text) : (parsed src).map = parseRules src := rfl

/-- No rule of a file refers to itself. -/
theorem notMem_refs_parsed (src n : Text) : n ∉ (parsed src).refs n := by
  intro h
  rw [RuleMap.refs, parsed_map, parseRules, get?_collectRules] at h
  split_ifs at h
  · rw [Option.getD_some] at h
    exact (of_decide_eq_true (List.mem_filter.1 h).2).2 rfl
  · rw [Option.getD_none] at h
    exact List.not_mem_nil h

/-! ### Normal forms -/

theorem isSpace_nil : ∀ x ∈ ([] : Text), isSpace x = true := by decide

theorem isSpace_blank : ∀ x ∈ [' '], isSpace x = true := by decide

/-- The line of an alternative that is one name. -/
def nameAlternative (r : Text) (hr : IsName r) : Alternative where
  items := [(⟨[' '], isSpace_blank⟩, .name r hr)]
  spaced := fun _ hp ↦ absurd hp List.not_mem_nil
  trail := ⟨['\n', ' ', ' '], by decide⟩

/-- The block of a rule: a line for each reference. -/
def normalBlock (n : Text) (hn : IsName n) (refs : List { r : Text // IsName r }) : Block where
  lhs := n
  isName := hn
  indent := ⟨[' ', ' '], by decide⟩
  alternatives := refs.map fun r ↦ nameAlternative r.1 r.2

/-- The blocks of a rule map. -/
def normalBlocks (rules : Rules) : List (Block × Space) :=
  rules.map.entries.attach.map fun e ↦
    (normalBlock e.1.1 (rules.isName _ (List.mem_map_of_mem e.2))
      (e.1.2.attach.map fun r ↦
        ⟨r.1, rules.isName _ (rules.refs_mem _ _ (Dict.get?_eq_some_iff.2 e.2) _ r.2)⟩),
      ⟨[], isSpace_nil⟩)

/-- **The normal form of a grammar file.** -/
def normalText (rules : Rules) : Text :=
  printFile [] none (normalBlocks rules) []

theorem names_nameAlternative (r : Text) (hr : IsName r) : (nameAlternative r hr).names = [r] := rfl

theorem refs_normalBlock (n : Text) (hn : IsName n) (refs : List { r : Text // IsName r }) :
    (normalBlock n hn refs).refs = (n, refs.map Subtype.val) := by
  have hnames : (refs.map fun r ↦ nameAlternative r.1 r.2).flatMap Alternative.names =
      refs.map Subtype.val := by
    rw [List.flatMap_map]
    simp only [names_nameAlternative]
    exact List.flatMap_pure_eq_map _ _
  exact congrArg _ hnames

/-- The blocks printed are the entries of the map. -/
theorem refs_normalBlocks (rules : Rules) :
    (normalBlocks rules).map (fun p ↦ p.1.refs) = rules.map.entries := by
  rw [normalBlocks, List.map_map]
  have hentry : ∀ e : { e // e ∈ rules.map.entries }, e ∈ rules.map.entries.attach →
      ((fun p : Block × Space ↦ p.1.refs) ∘ fun e : { e // e ∈ rules.map.entries } ↦
        (normalBlock e.1.1 (rules.isName _ (List.mem_map_of_mem e.2))
          (e.1.2.attach.map fun r ↦
            ⟨r.1, rules.isName _ (rules.refs_mem _ _ (Dict.get?_eq_some_iff.2 e.2) _ r.2)⟩),
          (⟨[], isSpace_nil⟩ : Space))) e = e.1 := by
    intro e _
    show (normalBlock _ _ _).refs = e.1
    rw [refs_normalBlock, List.map_map]
    exact congrArg (e.1.1, ·) (List.attach_map_subtype_val _)
  rw [List.map_congr_left hentry]
  exact List.attach_map_subtype_val _

/-- With distinct names, the names on the right of the blocks of a rule are those of its block. -/
theorem rhsNames_entries (rules : Dict Text (List Text)) {n : Text} {refs : List Text}
    (h : (n, refs) ∈ rules.entries) : rhsNames rules.entries n = refs := by
  have hfilter : rules.entries.filter (fun b ↦ decide (b.1 = n)) = [(n, refs)] := by
    obtain ⟨l, l', hsplit⟩ := List.append_of_mem h
    have hnodup := rules.nodup_keys
    rw [hsplit, List.map_append, List.nodup_append'] at hnodup
    obtain ⟨-, htail, hdisjoint⟩ := hnodup
    have hleft : l.filter (fun b ↦ decide (b.1 = n)) = [] :=
      List.filter_eq_nil_iff.2 fun b hb heq ↦
        hdisjoint (List.mem_map_of_mem hb) (by simp [of_decide_eq_true heq])
    have hright : l'.filter (fun b ↦ decide (b.1 = n)) = [] :=
      List.filter_eq_nil_iff.2 fun b hb heq ↦ (List.nodup_cons.1 htail).1
        (List.mem_map.2 ⟨b, hb, of_decide_eq_true heq⟩)
    rw [hsplit, List.filter_append, hleft, List.nil_append,
      List.filter_cons, if_pos (decide_eq_true rfl), hright]
  rw [rhsNames, hfilter, List.flatMap_singleton]

/-- **The parser reads from a normal form what was printed.** -/
theorem parseRules_normalText (rules : Rules) (hne : rules.names ≠ [])
    (hself : ∀ n, n ∉ rules.refs n) : parseRules (normalText rules) = rules.map := by
  have hblocks : normalBlocks rules ≠ [] := by
    intro hnil
    have := refs_normalBlocks rules
    rw [hnil] at this
    exact hne (congrArg (List.map Prod.fst) this.symm)
  have hin : blocksIn (bareText none (normalBlocks rules)) = rules.map.entries := by
    rw [blocksIn_bareText, refs_normalBlocks]
  have hlhs : lhsNames rules.map.entries = rules.names := rfl
  rw [normalText, parseRules_eq (by decide) none hblocks []]
  refine Dict.ext_get? ?_ fun n ↦ ?_
  · rw [keys_collectRules, hin, hlhs]
    exact eraseDups_eq_self rules.map.nodup_keys
  · rw [get?_collectRules, hin, hlhs]
    split_ifs with hn
    · obtain ⟨⟨n, refs⟩, he, rfl⟩ := List.mem_map.1 hn
      have hget : rules.map.get? n = some refs := Dict.get?_eq_some_iff.2 he
      rw [rhsNames_entries rules.map he, eraseDups_eq_self (rules.nodup_refs n refs hget), hget]
      refine congrArg some (List.filter_eq_self.2 fun r hr ↦ decide_eq_true ⟨?_, ?_⟩)
      · exact rules.refs_mem n refs hget r hr
      · rintro rfl
        refine hself r ?_
        rw [RuleMap.refs, hget]
        exact hr
    · exact (Dict.get?_eq_none_iff.2 hn).symm

end FirebirdSamples.Grammar
