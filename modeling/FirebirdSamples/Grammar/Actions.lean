import FirebirdSamples.Grammar.Passes
import FirebirdSamples.Grammar.Section

/-!
# Action blocks

A grammar file with its action blocks told apart is a `File`. Two files differ in their actions only
if their `texts` are the same. The passes do not know action blocks: what they make of one is
decided by its characters, and they may take the text behind it for a part of it.

A block is `Clean` if, run over the block alone, the passes leave nothing of it and are done with it
at its end. Clean blocks are invisible: the rules section of a file goes through the passes piece by
piece, and only the texts are left (`File.passes_text`), so that files with the same texts have the
same rules (`parseRules_eq_of_clean`).
-/

namespace FirebirdSamples.Grammar

/-! ### Files -/

/-- A file, with its action blocks told from the texts between them. -/
structure File where
  /-- The text before the first action. -/
  head : Text
  /-- The actions, each with the text behind it. -/
  rest : List (Text × Text)

namespace File

/-- The file as it is written. -/
def text (f : File) : Text :=
  f.head ++ f.rest.flatMap fun p ↦ p.1 ++ p.2

/-- The action blocks. -/
def actions (f : File) : List Text :=
  f.rest.map Prod.fst

/-- The texts between the action blocks. -/
def texts (f : File) : List Text :=
  f.head :: f.rest.map Prod.snd

/-- The first cut of a file, by its first text and the rest. -/
def cutTexts : Text → List (Text × Text) → Option (File × File)
  | t, [] => (cut marker t).map fun p ↦ (⟨p.1, []⟩, ⟨p.2, []⟩)
  | t, (a, t') :: rest =>
    match cut marker t with
    | some (u, v) => some (⟨u, []⟩, ⟨v, (a, t') :: rest⟩)
    | none => (cutTexts t' rest).map fun p ↦ (⟨t, (a, p.1.head) :: p.1.rest⟩, p.2)

/-- A file cut at the first line `%%` of its texts. -/
def cut (f : File) : Option (File × File) :=
  cutTexts f.head f.rest

/-- The rules section, with its action blocks told apart. -/
def rules (f : File) : File :=
  match f.cut with
  | none => f
  | some (_, behind) =>
    match behind.cut with
    | none => behind
    | some (body, _) => body

end File

/-- A text in braces. -/
def IsBlock (a : Text) : Prop :=
  ∃ c, a = '{' :: (c ++ ['}'])

/-! ### The rules section of a file -/

/-- No line `%%` is in a text and a block behind it, nor goes over its end. -/
theorem not_prefix_of_block {t a w : Text} (ht : ¬ marker <:+: t) (ha : IsBlock a)
    (hmark : ¬ marker <:+: a) {u : Text} (hu : u ≠ []) (hsuffix : u <:+ t ++ a) :
    ¬ marker <+: u ++ w := by
  intro hpre
  obtain ⟨c, rfl⟩ := ha
  have hshape : t ++ '{' :: (c ++ ['}']) = (t ++ '{' :: c) ++ ['}'] := by simp
  rw [hshape, List.suffix_concat_iff] at hsuffix
  obtain ⟨v, rfl, hv⟩ := hsuffix.resolve_left hu
  rw [List.append_assoc, List.singleton_append] at hpre
  have hin := (prefix_of_notMem (by decide) hpre).isInfix.trans hv.isInfix
  rcases infix_of_notMem (by decide) hin with hin | hin
  · exact ht hin
  · exact hmark (hin.trans ⟨['{'], ['}'], by simp⟩)

namespace File

/-- A text, a block and the rest of the file. -/
theorem text_cons (t a t' : Text) (rest : List (Text × Text)) :
    text ⟨t, (a, t') :: rest⟩ = (t ++ a) ++ text ⟨t', rest⟩ := by
  simp [text]

theorem cut_text_of_parts {t : Text} {rest : List (Text × Text)}
    (h : ∀ a ∈ rest.map Prod.fst, IsBlock a ∧ ¬ marker <:+: a) :
    Grammar.cut marker (text ⟨t, rest⟩) =
      (cutTexts t rest).map fun p ↦ (p.1.text, p.2.text) := by
  induction rest generalizing t with
  | nil =>
    have htext : ∀ s, text ⟨s, []⟩ = s := fun s ↦ List.append_nil s
    rw [htext, cutTexts, Option.map_map]
    simp only [Function.comp_def, htext]
    exact Option.map_id_apply.symm
  | cons p rest ih =>
    obtain ⟨a, t'⟩ := p
    obtain ⟨hblock, hmark⟩ := h a List.mem_cons_self
    rw [text_cons, cutTexts]
    rcases hcut : Grammar.cut marker t with _ | ⟨u, v⟩
    · have ht : ¬ marker <:+: t := (cut_eq_none_iff (by decide)).1 hcut
      rw [cut_append_of_none fun u hu hsuffix ↦ not_prefix_of_block ht hblock hmark hu hsuffix,
        ih fun b hb ↦ h b (List.mem_cons_of_mem _ hb), Option.map_map, Option.map_map]
      congr 1
      funext q
      exact Prod.ext (text_cons t a q.1.head q.1.rest).symm rfl
    · have hcut' := cut_append_of_some (cut_append_of_some hcut a) (text ⟨t', rest⟩)
      rw [hcut']
      refine congrArg some (Prod.ext (List.append_nil u).symm ?_)
      exact (text_cons v a t' rest).symm

/-- The text of a file is cut where the file is. -/
theorem cut_text {f : File} (h : ∀ a ∈ f.actions, IsBlock a ∧ ¬ marker <:+: a) :
    Grammar.cut marker f.text = f.cut.map fun p ↦ (p.1.text, p.2.text) :=
  cut_text_of_parts h

theorem actions_of_cutTexts {t : Text} {rest : List (Text × Text)} {f g : File}
    (h : cutTexts t rest = some (f, g)) : f.actions ++ g.actions = rest.map Prod.fst := by
  induction rest generalizing t f g with
  | nil =>
    obtain ⟨p, -, heq⟩ := Option.map_eq_some_iff.1 h
    obtain ⟨rfl, rfl⟩ := Prod.mk.inj heq
    rfl
  | cons p rest ih =>
    obtain ⟨a, t'⟩ := p
    rw [cutTexts] at h
    rcases hcut : Grammar.cut marker t with _ | ⟨u, v⟩
    · rw [hcut] at h
      obtain ⟨⟨f', g'⟩, hrest, heq⟩ := Option.map_eq_some_iff.1 h
      obtain ⟨rfl, rfl⟩ := Prod.mk.inj heq
      exact congrArg (a :: ·) (ih hrest)
    · rw [hcut] at h
      obtain ⟨rfl, rfl⟩ := Prod.mk.inj (Option.some.inj h)
      rfl

/-- Cutting a file leaves its action blocks as they are. -/
theorem actions_of_cut {f before behind : File} (h : f.cut = some (before, behind)) :
    before.actions ++ behind.actions = f.actions :=
  actions_of_cutTexts h

theorem actions_rules_subset (f : File) : f.rules.actions ⊆ f.actions := by
  rw [rules]
  rcases hcut : f.cut with _ | ⟨before, behind⟩
  · exact List.Subset.refl _
  · have hbehind : behind.actions ⊆ f.actions := by
      rw [← actions_of_cut hcut]
      exact List.subset_append_right _ _
    dsimp only
    rcases hcut' : behind.cut with _ | ⟨body, tail⟩
    · exact hbehind
    · refine List.Subset.trans ?_ hbehind
      rw [← actions_of_cut hcut']
      exact List.subset_append_left _ _

/-- **The rules section of a file** is that of its texts, with the action blocks in it. -/
theorem rulesSection_text {f : File} (h : ∀ a ∈ f.actions, IsBlock a ∧ ¬ marker <:+: a) :
    rulesSection f.text = f.rules.text := by
  rw [rulesSection_eq, rules, cut_text h]
  rcases hcut : f.cut with _ | ⟨before, behind⟩
  · rfl
  · have hbehind : ∀ a ∈ behind.actions, IsBlock a ∧ ¬ marker <:+: a := by
      refine fun a ha ↦ h a ?_
      rw [← actions_of_cut hcut]
      exact List.mem_append_right _ ha
    rw [Option.map_some]
    dsimp only
    rw [cut_text hbehind]
    rcases behind.cut with _ | ⟨body, tail⟩ <;> rfl

theorem texts_cutTexts {t : Text} {rest rest' : List (Text × Text)}
    (h : rest.map Prod.snd = rest'.map Prod.snd) :
    (cutTexts t rest).map (fun p ↦ (p.1.texts, p.2.texts)) =
      (cutTexts t rest').map fun p ↦ (p.1.texts, p.2.texts) := by
  induction rest generalizing t rest' with
  | nil =>
    obtain rfl : rest' = [] := List.map_eq_nil_iff.1 h.symm
    rfl
  | cons p rest ih =>
    rcases rest' with _ | ⟨p', rest'⟩
    · cases h
    · obtain ⟨a, s⟩ := p
      obtain ⟨a', s'⟩ := p'
      obtain ⟨hs, hrest⟩ := List.cons.inj h
      obtain rfl : s = s' := hs
      rw [cutTexts, cutTexts]
      rcases Grammar.cut marker t with _ | ⟨u, v⟩
      · have := congrArg (Option.map fun q : List Text × List Text ↦ (t :: q.1, q.2))
          (ih (t := s) hrest)
        rw [Option.map_map, Option.map_map] at this
        rw [Option.map_map, Option.map_map]
        exact this
      · simp [texts, hrest]

/-- The texts of the parts of a file do not depend on its actions. -/
theorem texts_cut {f g : File} (h : f.texts = g.texts) :
    f.cut.map (fun p ↦ (p.1.texts, p.2.texts)) = g.cut.map fun p ↦ (p.1.texts, p.2.texts) := by
  obtain ⟨t, rest⟩ := f
  obtain ⟨t', rest'⟩ := g
  obtain ⟨ht, hrest⟩ := List.cons.inj h
  obtain rfl : t = t' := ht
  exact texts_cutTexts hrest

theorem texts_rules {f g : File} (h : f.texts = g.texts) : f.rules.texts = g.rules.texts := by
  have hcut := texts_cut h
  rw [rules, rules]
  revert hcut
  rcases f.cut with _ | ⟨before, behind⟩ <;> rcases g.cut with _ | ⟨before', behind'⟩ <;> intro hcut
  · exact h
  · cases hcut
  · cases hcut
  · have hbehind : behind.texts = behind'.texts := (Prod.mk.inj (Option.some.inj hcut)).2
    have hcut' := texts_cut hbehind
    dsimp only
    revert hcut'
    rcases behind.cut with _ | ⟨body, tail⟩ <;> rcases behind'.cut with _ | ⟨body', tail'⟩ <;>
      intro hcut'
    · exact hbehind
    · cases hcut'
    · cases hcut'
    · exact (Prod.mk.inj (Option.some.inj hcut')).1

end File

/-! ### Clean blocks -/

/-- **A clean block**: run over it alone, the passes leave nothing, and are done at its end. -/
structure Clean (a : Text) : Prop where
  /-- No pass is in the middle of something at the end of the block. -/
  closed : Closed a
  /-- Nothing is left of the block. -/
  vanishes : passes a = []
  /-- None of its lines is `%%`. -/
  no_marker : ¬ marker <:+: a

theorem Clean.passesTo {a : Text} (h : Clean a) : PassesTo a [] :=
  ⟨h.closed, h.vanishes⟩

/-- **Clean blocks are not seen**: what the passes leave of a file is what they leave of its
texts. -/
theorem File.passes_text {f : File} (htexts : ∀ t ∈ f.texts, Closed t)
    (hactions : ∀ a ∈ f.actions, Clean a) : passes f.text = f.texts.flatMap passes := by
  have hhead : PassesTo f.head (passes f.head) := ⟨htexts _ List.mem_cons_self, rfl⟩
  have hrest : PassesTo (f.rest.flatMap fun p ↦ p.1 ++ p.2)
      (f.rest.flatMap fun p ↦ passes p.2) := by
    refine PassesTo.flatMap fun p hp ↦ ?_
    have ha := (hactions p.1 (List.mem_map.2 ⟨p, hp, rfl⟩)).passesTo
    exact ha.append ⟨htexts p.2 (List.mem_cons_of_mem _ (List.mem_map.2 ⟨p, hp, rfl⟩)), rfl⟩
  rw [File.text, (hhead.append hrest).passes_eq, File.texts, List.flatMap_cons, List.flatMap_map]

/-- **Files that differ in clean blocks only have the same rules.** -/
theorem parseRules_eq_of_clean {f g : File} (htexts : f.texts = g.texts)
    (hclosed : ∀ t ∈ f.rules.texts, Closed t)
    (hf : ∀ a ∈ f.actions, IsBlock a ∧ Clean a) (hg : ∀ a ∈ g.actions, IsBlock a ∧ Clean a) :
    parseRules f.text = parseRules g.text := by
  have hsame := File.texts_rules htexts
  have hpasses : ∀ e : File, (∀ t ∈ e.rules.texts, Closed t) →
      (∀ a ∈ e.actions, IsBlock a ∧ Clean a) →
      passes (rulesSection e.text) = e.rules.texts.flatMap passes := by
    intro e hclosed he
    rw [File.rulesSection_text fun a ha ↦ ⟨(he a ha).1, (he a ha).2.no_marker⟩]
    exact File.passes_text hclosed fun a ha ↦ (he a (e.actions_rules_subset ha)).2
  rw [parseRules, parseRules, hpasses f hclosed hf, hpasses g (hsame ▸ hclosed) hg, hsame]

end FirebirdSamples.Grammar
