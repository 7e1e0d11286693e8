import FirebirdSamples.Grammar.Blocks
import FirebirdSamples.Grammar.Overrun

/-!
# When action code is invisible

Action code should not show in the rule graph. It does not where the blocks are clean, and it does
where they are not: for every class of blocks, files with blocks of the class have the rules that
their texts give them exactly if all the blocks of the class are clean (`invisible_iff`). Valid C is
not enough (`not_invisible_action`), as a string literal may hold a brace.

**A block that is not clean shows somewhere.** The probe is a rule whose only reference, a long
name, is written in two halves with the block between them. If the passes are in the middle of
something at the end of the block, they take the second half with them, and too few characters are
left for the name. If they leave something of the block, it stands between the halves. In neither
case is the name on the right-hand side of the rule (`Probe`).
-/

namespace FirebirdSamples.Grammar

open Regex

/-! ### C code -/

/-- The inside of a literal in quotes `q`. -/
inductive Literal (q : Char) : Text → Prop
  | nil : Literal q []
  | char {x : Char} {s : Text} (hx : x ≠ q ∧ x ≠ '\\' ∧ x ≠ '\n') (hs : Literal q s) :
    Literal q (x :: s)
  | escape (x : Char) {s : Text} (hs : Literal q s) : Literal q ('\\' :: x :: s)

/-- **C code**: its braces balance once string literals, character literals and comments are set
aside. -/
inductive Code : Text → Prop
  | nil : Code []
  | char {x : Char} {t : Text} (hx : x ∉ ['{', '}', '"', '\'', '/']) (ht : Code t) : Code (x :: t)
  | slash {t : Text} (hslash : t.head? ≠ some '/' ∧ t.head? ≠ some '*') (ht : Code t) :
    Code ('/' :: t)
  | string {s t : Text} (hs : Literal '"' s) (ht : Code t) : Code ('"' :: (s ++ '"' :: t))
  | literal {s t : Text} (hs : Literal '\'' s) (ht : Code t) : Code ('\'' :: (s ++ '\'' :: t))
  | comment {s t : Text} (hs : ¬ ['*', '/'] <:+: s ++ ['*']) (ht : Code t) :
    Code ('/' :: '*' :: (s ++ '*' :: '/' :: t))
  | line {s t : Text} (hs : '\n' ∉ s) (ht : Code t) : Code ('/' :: '/' :: (s ++ '\n' :: t))
  | block {s t : Text} (hs : Code s) (ht : Code t) : Code ('{' :: (s ++ '}' :: t))

/-- An action block: C code in braces. -/
def IsAction (a : Text) : Prop :=
  ∃ c, Code c ∧ a = '{' :: (c ++ ['}'])

/-- **Action code is invisible**, for blocks of a class and texts on which the passes come to an
end: files that differ in their blocks only have the same rules. -/
def Invisible (allowed : Text → Prop) : Prop :=
  ∀ f g : File, f.texts = g.texts → (∀ t ∈ f.rules.texts, Closed t) →
    (∀ a ∈ f.actions, allowed a) → (∀ a ∈ g.actions, allowed a) →
      parseRules f.text = parseRules g.text

/-! ### Where references come from -/

/-- The tail of a rule captures a part of the text. -/
theorem exists_of_mem_run_ruleTail {c d : Pos} (h : d ∈ run ruleTail c) :
    ∃ m, m <:+: c.rest ∧ d.groups = c.groups ++ [m] := by
  obtain ⟨c₁, h₁, h⟩ := List.mem_flatMap.1 h
  obtain ⟨c₂, h₂, h⟩ := List.mem_flatMap.1 h
  obtain ⟨c₃, h₃, h⟩ := List.mem_flatMap.1 h
  obtain ⟨c₄, h₄, h⟩ := List.mem_flatMap.1 h
  obtain ⟨c₅, h₅, h⟩ := List.mem_flatMap.1 h
  have hsuffix : c₄.rest <:+ c.rest :=
    (((suffix_of_mem_run h₄).trans (suffix_of_mem_run h₃)).trans (suffix_of_mem_run h₂)).trans
      (suffix_of_mem_run h₁)
  have hgroups : c₄.groups = c.groups := by
    rw [groups_of_mem_run (by rfl) h₄, groups_of_mem_run (by rfl) h₃, groups_of_mem_run (by rfl) h₂,
      groups_of_mem_run (by rfl) h₁]
  obtain ⟨e, he, m, hm, -, hcapture⟩ := mem_run_group h₅
  refine ⟨m, List.IsInfix.trans ⟨[], c₅.rest, hm.symm⟩ hsuffix.isInfix, ?_⟩
  rw [groups_of_mem_run (by rfl) h, hcapture, groups_of_mem_run (by rfl) he, hgroups]

/-- **A reference of a rule stands behind its name.** -/
theorem exists_of_mem_rhsNames {body n r : Text} (h : r ∈ rhsNames (blocksIn body) n) :
    ∃ l v, body = l ++ (n ++ v) ∧ r <:+: v := by
  obtain ⟨b, hb, hr⟩ := List.mem_flatMap.1 h
  obtain ⟨hb, hname⟩ := List.mem_filter.1 hb
  obtain ⟨m, hm, rfl⟩ := List.mem_map.1 hb
  obtain ⟨o, ho, hright⟩ := List.mem_filterMap.1 hm
  obtain rfl := Sum.getRight?_eq_some_iff.1 hright
  obtain ⟨l, u, b, d, hd, rfl, hgroups⟩ := mem_scan ho
  rw [rule_eq] at hd
  obtain ⟨c, hc, hd⟩ := List.mem_flatMap.1 hd
  obtain ⟨e, he, hd⟩ := List.mem_flatMap.1 hd
  obtain ⟨o, ho, v, hv, -, hcapture⟩ := mem_run_group he
  obtain ⟨w, hw, htail⟩ := exists_of_mem_run_ruleTail hd
  obtain rfl : c = ⟨b, u, []⟩ := by
    rw [run] at hc
    split_ifs at hc
    · exact List.mem_singleton.1 hc
    · cases hc
  obtain rfl : u = v ++ e.rest := hv
  have hcaptured : m.groups = [v, w] := by
    rw [hgroups, htail, hcapture, groups_of_mem_run (by rfl) ho]
    rfl
  obtain rfl : v = n := by
    rw [blockOf, hcaptured] at hname
    exact of_decide_eq_true hname
  rw [blockOf, hcaptured] at hr
  exact ⟨l, e.rest, rfl, (finds_name.infix_of_mem_findall hr).trans hw⟩

/-- What the references of a rule are in the result. -/
theorem mem_get?_collectRules {body n r : Text} :
    (∃ l, (collectRules body).get? n = some l ∧ r ∈ l) ↔
      r ∈ rhsNames (blocksIn body) n ∧ r ∈ lhsNames (blocksIn body) ∧ r ≠ n := by
  rw [get?_collectRules]
  constructor
  · rintro ⟨l, hl, hr⟩
    split_ifs at hl
    obtain rfl := Option.some.inj hl
    obtain ⟨hr, hkeep⟩ := List.mem_filter.1 hr
    exact ⟨List.mem_eraseDups.1 hr, of_decide_eq_true hkeep⟩
  · rintro ⟨hr, hkeep⟩
    have hn : n ∈ lhsNames (blocksIn body) := by
      by_contra hn
      rw [rhsNames_of_notMem hn] at hr
      cases hr
    rw [if_pos hn]
    exact ⟨_, rfl, List.mem_filter.2 ⟨List.mem_eraseDups.2 hr, decide_eq_true hkeep⟩⟩

/-! ### The probe -/

namespace Probe

variable (k : ℕ)

/-- The first half of a long name. -/
def firstHalf : Text :=
  'a' :: List.replicate k 'z'

/-- The second half. -/
def secondHalf : Text :=
  List.replicate k 'z' ++ ['b']

/-- The long name. -/
def longName : Text :=
  firstHalf k ++ secondHalf k

/-- The rule of the long name, and the beginning of the rule that refers to it. -/
def head : Text :=
  longName k ++ (":;\nr:".toList ++ firstHalf k)

/-- The file with the reference cut in two by a block. -/
def file (a : Text) : File where
  head := marker ++ head k
  rest := [(a, secondHalf k ++ ending)]

variable {k : ℕ}

theorem isNameChar_of_mem_secondHalf {x : Char} (h : x ∈ secondHalf k) : isNameChar x = true := by
  rcases List.mem_append.1 h with h | h
  · rw [List.eq_of_mem_replicate h]
    decide
  · rw [List.mem_singleton.1 h]
    decide

theorem isName_longName : IsName (longName k) := by
  refine ⟨by decide, fun x hx ↦ ?_⟩
  rcases List.mem_append.1 hx with hx | hx
  · rw [List.eq_of_mem_replicate hx]
    decide
  · exact isNameChar_of_mem_secondHalf hx

theorem count_longName : (longName k).count 'z' = 2 * k := by
  simp [longName, firstHalf, secondHalf, Nat.two_mul]

/-- Too few characters are left for the name. -/
theorem not_infix_of_count {y : Text} (hy : y.count 'z' < k) :
    ¬ longName k <:+: firstHalf k ++ y := by
  intro h
  have hcount := h.sublist.count_le 'z'
  rw [count_longName, List.count_append] at hcount
  have hfirst : (firstHalf k).count 'z' = k := by simp [firstHalf]
  omega

/-- Something stands between the halves. -/
theorem not_infix_of_split {x e : Text} (hx : x ≠ []) (hcount : x.count 'z' < k)
    (he : e.count 'z' = 0) : ¬ longName k <:+: firstHalf k ++ (x ++ (secondHalf k ++ e)) := by
  have hsecond : (secondHalf k).count 'z' = k := by simp [secondHalf]
  have hbehind : ¬ longName k <:+: x ++ (secondHalf k ++ e) := by
    intro h
    have hle := h.sublist.count_le 'z'
    rw [count_longName, List.count_append, List.count_append] at hle
    omega
  have hwithin : ∀ n, ¬ longName k <:+: List.replicate n 'z' ++ (x ++ (secondHalf k ++ e)) := by
    intro n
    induction n with
    | zero => exact hbehind
    | succ n ih =>
      intro h
      rcases List.infix_cons_iff.1 h with hpre | hinfix
      · exact absurd (List.cons_prefix_cons.1 hpre).1 (by decide)
      · exact ih hinfix
  intro h
  rcases List.infix_cons_iff.1 h with hpre | hinfix
  · -- the second half would begin where something is left of the block
    have hpre : secondHalf k <+: x ++ (secondHalf k ++ e) :=
      (List.prefix_append_right_inj (firstHalf k)).1 hpre
    have hzs : List.replicate k 'z' <+: x ++ (secondHalf k ++ e) :=
      (List.prefix_append _ _).trans hpre
    rcases Nat.lt_or_ge x.length k with hlt | hle
    · have hx' : x <+: List.replicate k 'z' :=
        List.prefix_of_prefix_length_le (List.prefix_append x _) hzs (by simpa using hlt.le)
      have hrep : x = List.replicate x.length 'z' :=
        List.eq_replicate_of_mem fun y hy ↦ List.eq_of_mem_replicate (hx'.subset hy)
      have hlong : secondHalf k <+: List.replicate (x.length + k) 'z' := by
        refine List.prefix_of_prefix_length_le hpre ⟨['b'] ++ e, ?_⟩ ?_
        · nth_rewrite 2 [hrep]
          rw [List.replicate_add, secondHalf, List.append_assoc, List.append_assoc]
        · have := List.length_pos_of_ne_nil hx
          simp only [secondHalf, List.length_append, List.length_replicate, List.length_singleton]
          omega
      have hb := hlong.subset (List.mem_append_right _ (List.mem_singleton.2 rfl))
      exact absurd (List.eq_of_mem_replicate hb) (by decide)
    · have hx' : List.replicate k 'z' <+: x :=
        List.prefix_of_prefix_length_le hzs (List.prefix_append x _) (by simpa using hle)
      have := hx'.sublist.count_le 'z'
      rw [List.count_replicate_self] at this
      omega
  · exact hwithin k hinfix

/-! ### What the passes leave of the probe -/

theorem isPlain_of_mem_head {x : Char} (h : x ∈ head k) : IsPlain x := by
  rcases List.mem_append.1 h with h | h
  · exact isPlain_of_isNameChar (isName_longName.char_of_mem h)
  · rcases List.mem_append.1 h with h | h
    · exact (show ∀ y ∈ ":;\nr:".toList, y ≠ '/' ∧ y ≠ '\'' ∧ y ≠ '{' ∧ y ≠ '}' by decide) x h
    · exact isPlain_of_isNameChar (isName_longName.char_of_mem (List.mem_append_left _ h))

theorem passes_head_append (w : Text) : passes (head k ++ w) = head k ++ passes w := by
  have h := passesTo_of_plain fun x hx ↦ isPlain_of_mem_head (k := k) hx
  rw [h.closed.passes_append, h.passes_eq]

/-- The text behind the block, passed by itself. -/
theorem passes_behind : passes (secondHalf k ++ ending) = secondHalf k ++ "  \n;".toList := by
  have hs := fun x (hx : x ∈ secondHalf k) ↦ isNameChar_of_mem_secondHalf hx
  obtain ⟨hstrip, hdepth⟩ := stripFrom_of_plain fun x hx ↦ isPlain_of_isNameChar (hs x hx)
  rw [passes, noComments_behind hs, noLines_behind hs, noLiterals_behind hs, stripBraces,
    stripFrom_append, hstrip, hdepth]
  rfl

theorem closed_behind : Closed (secondHalf k ++ ending) := by
  have h := passesTo_of_plain fun x hx ↦
    isPlain_of_isNameChar (isNameChar_of_mem_secondHalf (k := k) hx)
  exact h.closed.append closed_ending

/-- What is behind a character is behind its first occurrence. -/
theorem suffix_of_notMem {x : Char} {p l s v : Text} (hx : x ∉ p) (h : p ++ x :: s = l ++ x :: v) :
    v <:+ s := by
  induction p generalizing l with
  | nil =>
    rcases l with _ | ⟨y, l⟩
    · rw [(List.cons.inj h).2]
    · rw [show s = l ++ x :: v from (List.cons.inj h).2]
      exact (List.suffix_cons x v).trans (List.suffix_append l _)
  | cons y p ih =>
    rcases l with _ | ⟨z, l⟩
    · exact absurd (List.cons.inj h).1 fun heq ↦ hx (heq ▸ List.mem_cons_self)
    · exact ih (fun hmem ↦ hx (List.mem_cons_of_mem y hmem)) (List.cons.inj h).2

/-- **The reference is lost** if the name cannot be put together again. -/
theorem notMem_refs {y : Text} (hy : ¬ longName k <:+: firstHalf k ++ y) :
    ¬ ∃ l, (collectRules (head k ++ y)).get? ['r'] = some l ∧ longName k ∈ l := by
  intro h
  obtain ⟨l, v, hbody, hv⟩ := exists_of_mem_rhsNames (mem_get?_collectRules.1 h).1
  have hr : 'r' ∉ longName k ++ ":;\n".toList := by
    simp [longName, firstHalf, secondHalf, List.mem_replicate]
  have hshape : head k ++ y =
      (longName k ++ ":;\n".toList) ++ 'r' :: (':' :: (firstHalf k ++ y)) := by
    rw [head, List.append_assoc, List.append_assoc, List.append_assoc]
    rfl
  have hsuffix : v <:+ ':' :: (firstHalf k ++ y) := suffix_of_notMem hr (hshape ▸ hbody)
  rcases infix_of_notMem (s := []) (isName_longName.notMem (by decide))
    (hv.trans hsuffix.isInfix) with hnil | hinfix
  · exact absurd (List.infix_nil.1 hnil) (by simp [longName, firstHalf])
  · exact hy hinfix

/-- The reference is there if nothing is between the halves. -/
theorem mem_refs : ∃ l, (collectRules (head k ++ (secondHalf k ++ "  \n;".toList))).get? ['r'] =
    some l ∧ longName k ∈ l := by
  have hsemi : ';' ∉ longName k := isName_longName.notMem (by decide)
  have hshape : head k ++ (secondHalf k ++ "  \n;".toList) =
      longName k ++ ([] ++ ':' :: ([] ++ ';' ::
        '\n' :: (['r'] ++ ([] ++ ':' :: ((longName k ++ "  \n".toList) ++ ';' :: []))))) := by
    rw [head, longName]
    simp only [List.append_assoc]
    rfl
  have hblocks : blocksIn (head k ++ (secondHalf k ++ "  \n;".toList)) =
      [(longName k, []), (['r'], [longName k])] := by
    have hfind : findall name (longName k ++ "  \n".toList) = [longName k] := by
      show findall name (longName k ++ ' ' :: " \n".toList) = _
      rw [findall_name_append isName_longName (breaks_cons (by decide) _)]
      rfl
    have hr : IsName ['r'] := by decide
    have hrhs : ';' ∉ longName k ++ "  \n".toList := by simpa using hsemi
    rw [hshape, blocksIn_eq, blocksFrom_block isName_longName (by simp) (by simp),
      blocksFrom_skip (Or.inl rfl), show ('\n' == '\n') = true from rfl,
      blocksFrom_block hr (by simp) hrhs, hfind]
    rfl
  rw [mem_get?_collectRules, hblocks]
  have hne : longName k ≠ ['r'] := by simp [longName, firstHalf]
  simp [rhsNames, lhsNames, hne]

/-! ### The rules section of the probe -/

theorem notMem_head {x : Char} (hx : isNameChar x = false) (hx' : x ∉ ":;\nr:".toList) :
    x ∉ head k := by
  have hname := (isName_longName (k := k)).notMem hx
  have hfirst : x ∉ firstHalf k := fun h ↦ hname (List.mem_append_left _ h)
  rw [head, List.mem_append, List.mem_append]
  rintro (h | h | h)
  · exact hname h
  · exact hx' h
  · exact hfirst h

theorem not_marker_of_notMem {s : Text} (h : '%' ∉ s) : ¬ marker <:+: s := fun hin ↦
  h (hin.subset (by decide))

/-- The section is the probe without its first line. -/
theorem rules_file (k : ℕ) (a : Text) :
    (file k a).rules = ⟨head k, [(a, secondHalf k ++ ending)]⟩ := by
  have hhead : cut marker (head k) = none :=
    (cut_eq_none_iff (by decide)).2 (not_marker_of_notMem (notMem_head (by decide) (by decide)))
  have hbehind : cut marker (secondHalf k ++ ending) = none := by
    refine (cut_eq_none_iff (by decide)).2 (not_marker_of_notMem fun h ↦ ?_)
    rcases List.mem_append.1 h with h | h
    · exact absurd (isNameChar_of_mem_secondHalf h) (by decide)
    · exact absurd h (by decide)
  have hfirst : (file k a).cut = some (⟨[], []⟩, ⟨head k, [(a, secondHalf k ++ ending)]⟩) := by
    rw [File.cut, file, File.cutTexts, cut_of_prefix (by decide)]
  have hsecond : (⟨head k, [(a, secondHalf k ++ ending)]⟩ : File).cut = none := by
    rw [File.cut, File.cutTexts, hhead, File.cutTexts, hbehind]
    rfl
  rw [File.rules, hfirst]
  dsimp only
  rw [hsecond]

theorem text_eq (k : ℕ) (a t : Text) : File.text ⟨t, [(a, secondHalf k ++ ending)]⟩ =
    t ++ (a ++ (secondHalf k ++ ending)) := by
  simp [File.text]

/-- **A line `%%` in the block** ends the section there. -/
theorem rulesSection_of_marker {a : Text} (ha : IsBlock a) (h : marker <:+: a) (k : ℕ) :
    ∃ b, b <+: a ∧ rulesSection (file k a).text = head k ++ b := by
  have hin : ¬ cut marker (head k ++ a) = none := fun hnone ↦
    (cut_eq_none_iff (by decide)).1 hnone (h.trans (List.suffix_append _ a).isInfix)
  obtain ⟨⟨u, v⟩, hcut⟩ := Option.ne_none_iff_exists'.1 hin
  have hsection : rulesSection (file k a).text = u := by
    rw [rulesSection_eq, file, text_eq, List.append_assoc, cut_of_prefix (by decide)]
    dsimp only
    rw [← List.append_assoc, cut_append_of_some hcut]
  rw [hsection]
  have heq := eq_append_of_cut hcut
  rw [List.append_assoc] at heq
  rcases List.append_eq_append_iff.1 heq with ⟨b, hu, hb⟩ | ⟨b, hu, hb⟩
  · exact ⟨b, ⟨marker ++ v, hb.symm⟩, hu⟩
  · -- the line would begin in the text before the block
    obtain ⟨c, rfl⟩ := ha
    rcases b with _ | ⟨x, _ | ⟨y, b⟩⟩
    · exact ⟨[], List.nil_prefix, by rw [hu, List.append_nil, List.append_nil]⟩
    · exact absurd (List.cons.inj (List.cons.inj hb).2).1 (by decide)
    · obtain rfl : '%' = y := (List.cons.inj (List.cons.inj hb).2).1
      refine absurd (hu ▸ List.mem_append_right _ (List.mem_cons_of_mem x List.mem_cons_self)) ?_
      exact notMem_head (k := k) (by decide) (by decide)

/-- **A block that is not clean keeps the name from being put together.** -/
theorem exists_of_not_clean {a : Text} (ha : IsBlock a) (h : ¬ Clean a) :
    ∃ k y, passes (rulesSection (file k a).text) = head k ++ y ∧
      ¬ longName k <:+: firstHalf k ++ y := by
  refine ⟨a.count 'z' + 1, ?_⟩
  have hlast : a.getLast? = some '}' := by
    obtain ⟨c, rfl⟩ := ha
    rw [← List.cons_append, List.getLast?_concat]
  have hz : 'z' ≠ ' ' := by decide
  by_cases hmark : marker <:+: a
  · obtain ⟨b, hb, hsection⟩ := rulesSection_of_marker ha hmark (a.count 'z' + 1)
    refine ⟨passes b, by rw [hsection, passes_head_append], not_infix_of_count ?_⟩
    exact Nat.lt_succ_of_le ((count_passes_le hz b).trans (hb.sublist.count_le 'z'))
  · refine ⟨passes (a ++ (secondHalf (a.count 'z' + 1) ++ ending)), ?_, ?_⟩
    · rw [File.rulesSection_text (by simpa [file, File.actions] using ⟨ha, hmark⟩), rules_file,
        text_eq, passes_head_append]
    · by_cases hclosed : Closed a
      · have hleft : passes a ≠ [] := fun hnil ↦ h ⟨hclosed, hnil, hmark⟩
        rw [hclosed.passes_append, passes_behind]
        exact not_infix_of_split hleft (Nat.lt_succ_of_le (count_passes_le hz a)) (by decide)
      · exact not_infix_of_count (Nat.lt_succ_of_le (count_passes_block_le hlast hclosed
          fun x hx ↦ isNameChar_of_mem_secondHalf hx))

end Probe

/-! ### The condition -/

/-- A block without comments and quotes is clean if its braces balance. -/
theorem clean_of_quiet {a : Text} (h : Quiet a) (hdepth : depthFrom 0 a = 0)
    (hstrip : stripBraces a = []) (hmark : ¬ marker <:+: a) : Clean a where
  closed := (h.passesTo hdepth).closed
  vanishes := (h.passesTo hdepth).passes_eq.trans hstrip
  no_marker := hmark

theorem clean_empty : Clean ['{', '}'] :=
  clean_of_quiet ⟨by decide, by decide, by decide, by decide⟩ (by decide) (by decide) (by decide)

theorem closed_of_plain {t : Text} (h : ∀ x ∈ t, IsPlain x) : Closed t :=
  (passesTo_of_plain h).closed

namespace Probe

theorem closed_texts (k : ℕ) (a : Text) : ∀ t ∈ (file k a).rules.texts, Closed t := by
  rw [rules_file]
  intro t ht
  rcases List.mem_cons.1 ht with rfl | ht
  · exact closed_of_plain fun x hx ↦ isPlain_of_mem_head hx
  · obtain rfl := List.mem_singleton.1 ht
    exact closed_behind

theorem passes_empty (k : ℕ) : passes (rulesSection (file k ['{', '}']).text) =
    head k ++ (secondHalf k ++ "  \n;".toList) := by
  have hblock : IsBlock ['{', '}'] := ⟨[], rfl⟩
  rw [File.rulesSection_text (by simpa [file, File.actions] using ⟨hblock, clean_empty.no_marker⟩),
    rules_file, text_eq, passes_head_append, clean_empty.closed.passes_append,
    clean_empty.vanishes, passes_behind]
  rfl

end Probe

/-- **Action code is invisible exactly if it is clean.** The class of blocks is any one that has the
empty block. -/
theorem invisible_iff (allowed : Text → Prop) (hblock : ∀ a, allowed a → IsBlock a)
    (hempty : allowed ['{', '}']) : Invisible allowed ↔ ∀ a, allowed a → Clean a := by
  constructor
  · intro h a ha
    by_contra hclean
    obtain ⟨k, y, hpasses, hy⟩ := Probe.exists_of_not_clean (hblock a ha) hclean
    have hsame := h (Probe.file k a) (Probe.file k ['{', '}']) rfl (Probe.closed_texts k a)
      (by simpa [Probe.file, File.actions] using ha)
      (by simpa [Probe.file, File.actions] using hempty)
    rw [parseRules, parseRules, hpasses, Probe.passes_empty] at hsame
    refine Probe.notMem_refs hy ?_
    rw [hsame]
    exact Probe.mem_refs
  · intro h f g htexts hclosed hf hg
    exact parseRules_eq_of_clean htexts hclosed (fun a ha ↦ ⟨hblock a (hf a ha), h a (hf a ha)⟩)
      fun a ha ↦ ⟨hblock a (hg a ha), h a (hg a ha)⟩

theorem invisible_iff_statement :
    Invisible (fun a ↦ a = ['{', '}'] ∨ a = "{ x = {1}; }".toList) := by
  have hempty : IsBlock ['{', '}'] := ⟨[], rfl⟩
  have hstatement : IsBlock "{ x = {1}; }".toList := ⟨" x = {1}; ".toList, rfl⟩
  refine (invisible_iff _ ?_ (Or.inl rfl)).2 ?_
  · rintro a (rfl | rfl)
    · exact hempty
    · exact hstatement
  · rintro a (rfl | rfl)
    · exact clean_empty
    · exact clean_of_quiet ⟨by decide, by decide, by decide, by decide⟩ (by decide) (by decide)
        (by decide)

/-- **Valid C is not enough**: the brace in the string is an open one, and the rules are lost. -/
theorem not_invisible_action : ¬ Invisible IsAction := by
  intro h
  have hstring : Code "\"\x7b\"".toList :=
    Code.string (Literal.char (by decide) Literal.nil) Code.nil
  have hsame := h ⟨"\n%%\na:b".toList, [("\x7b\"\x7b\"\x7d".toList, ";\nb:;\n".toList)]⟩
    ⟨"\n%%\na:b".toList, [(['{', '}'], ";\nb:;\n".toList)]⟩ rfl ?_ ?_ ?_
  · exact absurd (congrArg Dict.keys hsame) (by decide +kernel)
  · have htexts : File.texts (File.rules ⟨"\n%%\na:b".toList,
        [("\x7b\"\x7b\"\x7d".toList, ";\nb:;\n".toList)]⟩) = ["a:b".toList, ";\nb:;\n".toList] := by
      decide +kernel
    have hplain : ∀ t ∈ ["a:b".toList, ";\nb:;\n".toList], ∀ x ∈ t,
        x ≠ '/' ∧ x ≠ '\'' ∧ x ≠ '{' ∧ x ≠ '}' := by
      decide
    rw [htexts]
    exact fun t ht ↦ closed_of_plain (hplain t ht)
  · intro a ha
    obtain rfl := List.mem_singleton.1 ha
    exact ⟨_, hstring, rfl⟩
  · intro a ha
    obtain rfl := List.mem_singleton.1 ha
    exact ⟨[], Code.nil, rfl⟩

end FirebirdSamples.Grammar
