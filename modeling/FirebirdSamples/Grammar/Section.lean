import FirebirdSamples.Grammar.Parse

/-!
# The rules section

The file is cut at every line `%%`, and the second part is the rules section (`rulesSection_eq`).
The lemmas say how a cut goes in a text that is put together: a cut in its beginning stays where it
is (`cut_append_of_some`), and where there is none in the beginning, nor over its end, the cut is
that of the rest (`cut_append_of_none`).
-/

namespace FirebirdSamples.Grammar

/-! ### Parts of a text -/

theorem prefix_of_notMem {w s t : Text} {x : Char} (hx : x ∉ w) (h : w <+: s ++ x :: t) :
    w <+: s := by
  rcases Nat.lt_or_ge s.length w.length with hlt | hle
  · have hover : s ++ [x] <+: w := by
      refine List.prefix_of_prefix_length_le ⟨t, by simp⟩ h ?_
      rw [List.length_append]
      exact hlt
    exact absurd (hover.subset (List.mem_append_right _ List.mem_cons_self)) hx
  · exact List.prefix_of_prefix_length_le h ⟨x :: t, rfl⟩ hle

/-- A part of a text lies on one side of a character that it does not have. -/
theorem infix_of_notMem {w s t : Text} {x : Char} (hx : x ∉ w) (h : w <:+: s ++ x :: t) :
    w <:+: s ∨ w <:+: t := by
  induction s with
  | nil =>
    rcases List.infix_cons_iff.1 h with hpre | hinfix
    · obtain rfl : w = [] := by
        rcases w with _ | ⟨y, w⟩
        · rfl
        · exact absurd (List.cons_prefix_cons.1 hpre).1 fun heq ↦ hx (heq ▸ List.mem_cons_self)
      exact Or.inl (List.infix_refl [])
    · exact Or.inr hinfix
  | cons y s ih =>
    rcases List.infix_cons_iff.1 h with hpre | hinfix
    · exact Or.inl (prefix_of_notMem hx hpre).isInfix
    · exact (ih hinfix).imp_left fun h ↦ h.trans (List.suffix_cons y s).isInfix

/-! ### Cuts -/

theorem cut_of_prefix {sep : Text} (hsep : sep ≠ []) (t : Text) :
    cut sep (sep ++ t) = some ([], t) := by
  rcases sep with _ | ⟨x, sep⟩
  · exact absurd rfl hsep
  · have hpre : (x :: sep).isPrefixOf (x :: (sep ++ t)) = true :=
      List.isPrefixOf_iff_prefix.2 ⟨t, rfl⟩
    rw [List.cons_append, cut, if_pos hpre, ← List.cons_append, List.drop_left' rfl]

theorem cut_eq_none_iff {sep : Text} (hsep : sep ≠ []) {s : Text} :
    cut sep s = none ↔ ¬ sep <:+: s := by
  induction s with
  | nil => exact iff_of_true rfl fun h ↦ hsep (List.infix_nil.1 h)
  | cons x s ih =>
    rw [cut, List.infix_cons_iff, not_or]
    split_ifs with hpre
    · exact iff_of_false (by simp) fun h ↦ h.1 (List.isPrefixOf_iff_prefix.1 hpre)
    · rw [Option.map_eq_none_iff, ih]
      exact ⟨fun h ↦ ⟨fun hp ↦ hpre (List.isPrefixOf_iff_prefix.2 hp), h⟩, And.right⟩

theorem eq_append_of_cut {sep s u v : Text} (h : cut sep s = some (u, v)) : s = u ++ sep ++ v := by
  induction s generalizing u with
  | nil => cases h
  | cons x s ih =>
    rw [cut] at h
    split_ifs at h with hpre
    · obtain ⟨rfl, rfl⟩ := Prod.mk.inj (Option.some.inj h)
      exact (List.prefix_append_drop (List.isPrefixOf_iff_prefix.1 hpre))
    · obtain ⟨⟨u', v'⟩, hcut, heq⟩ := Option.map_eq_some_iff.1 h
      obtain ⟨rfl, rfl⟩ := Prod.mk.inj heq
      exact congrArg _ (ih hcut)

/-- A cut in the beginning of a text. -/
theorem cut_append_of_some {sep s u v : Text} (h : cut sep s = some (u, v)) (w : Text) :
    cut sep (s ++ w) = some (u, v ++ w) := by
  induction s generalizing u with
  | nil => cases h
  | cons x s ih =>
    rw [cut] at h
    rw [List.cons_append, cut]
    split_ifs at h with hpre
    · obtain ⟨rfl, rfl⟩ := Prod.mk.inj (Option.some.inj h)
      have hpre' := List.isPrefixOf_iff_prefix.1 hpre
      have hlong : sep.isPrefixOf (x :: (s ++ w)) = true :=
        List.isPrefixOf_iff_prefix.2 (hpre'.trans ⟨w, rfl⟩)
      rw [if_pos hlong, ← List.cons_append, List.drop_append_of_le_length hpre'.length_le]
    · obtain ⟨⟨u', v'⟩, hcut, heq⟩ := Option.map_eq_some_iff.1 h
      obtain ⟨rfl, rfl⟩ := Prod.mk.inj heq
      have hlong : ¬ sep.isPrefixOf (x :: (s ++ w)) = true := by
        -- the text is as long as the separator, which is in it further on
        have hlen := congrArg List.length (eq_append_of_cut hcut)
        rw [List.length_append, List.length_append] at hlen
        refine fun hover ↦ hpre (List.isPrefixOf_iff_prefix.2 ?_)
        refine List.prefix_of_prefix_length_le (List.isPrefixOf_iff_prefix.1 hover) ⟨w, rfl⟩ ?_
        rw [List.length_cons]
        omega
      rw [if_neg hlong, ih hcut]
      rfl

/-- No cut in the beginning of a text, nor over its end. -/
theorem cut_append_of_none {sep s w : Text}
    (h : ∀ t, t ≠ [] → t <:+ s → ¬ sep <+: t ++ w) :
    cut sep (s ++ w) = (cut sep w).map fun p ↦ (s ++ p.1, p.2) := by
  induction s with
  | nil =>
    rw [List.nil_append]
    exact Option.map_id_apply.symm
  | cons x s ih =>
    have hnot : ¬ sep.isPrefixOf (x :: (s ++ w)) = true := fun hpre ↦
      h (x :: s) (List.cons_ne_nil x s) (List.suffix_refl _) (List.isPrefixOf_iff_prefix.1 hpre)
    rw [List.cons_append, cut, if_neg hnot,
      ih fun t ht hsuffix ↦ h t ht (hsuffix.trans (List.suffix_cons x s)), Option.map_map]
    rfl

/-- The rules section is the text between the first two lines `%%`. -/
theorem rulesSection_eq (src : Text) :
    rulesSection src =
      match cut marker src with
      | none => src
      | some (_, behind) =>
        match cut marker behind with
        | none => behind
        | some (body, _) => body := by
  rw [rulesSection, pySplit]
  rcases hcut : cut marker src with _ | ⟨before, behind⟩
  · rcases src.length with _ | n
    · rfl
    · rw [splitFuel, hcut]
  · have hlen := congrArg List.length (eq_append_of_cut hcut)
    rw [List.length_append, List.length_append] at hlen
    obtain ⟨n, hn⟩ : ∃ n, src.length = n + 2 := ⟨src.length - 2, by simp [marker] at hlen; omega⟩
    rw [hn, splitFuel, hcut]
    dsimp only
    rw [splitFuel]
    rcases cut marker behind with _ | ⟨body, rest⟩ <;> rfl

end FirebirdSamples.Grammar
