import Mathlib.Data.List.Infix
import Mathlib.Data.Nat.Notation

/-!
# Nested blocks

A list has blocks between opening and closing marks, which may be nested. A counter of the depth
that ignores a closing mark outside of all blocks (`depth`) tells what is `outside` of them.

What the counter does is said without it. It stands at zero exactly if no opening mark is left
unclosed (`depth_eq_zero_iff`), and over a list that is balanced it comes back to where it was
(`depth_balanced`), with nothing outside on the way if it is within a block (`outside_balanced`). So
a block vanishes from a list (`outside_block`).
-/

namespace Nesting

variable {α : Type} [DecidableEq α] {o c : α} {d : ℕ} {s t : List α}

/-- The depth behind a list, from a depth on. -/
def depth (o c : α) : ℕ → List α → ℕ
  | d, [] => d
  | d, x :: t => if x = o then depth o c (d + 1) t
    else if x = c then depth o c (d - 1) t
    else depth o c d t

/-- What stands outside of the blocks, from a depth on. -/
def outside (o c : α) : ℕ → List α → List α
  | _, [] => []
  | d, x :: t => if x = o then outside o c (d + 1) t
    else if x = c then outside o c (d - 1) t
    else if d = 0 then x :: outside o c d t
    else outside o c d t

/-- No opening mark is left unclosed. -/
def Closed (o c : α) (s : List α) : Prop :=
  ∀ v, v <:+ s → v.count o ≤ v.count c

/-- All marks are in pairs. -/
structure Balanced (o c : α) (t : List α) : Prop where
  count_le : ∀ p, p <+: t → p.count c ≤ p.count o
  count_eq : t.count o = t.count c

theorem depth_append (d : ℕ) (s t : List α) :
    depth o c d (s ++ t) = depth o c (depth o c d s) t := by
  induction s generalizing d with
  | nil => rfl
  | cons x s ih =>
    rw [List.cons_append, depth, depth]
    split_ifs <;> exact ih _

theorem outside_append (d : ℕ) (s t : List α) :
    outside o c d (s ++ t) = outside o c d s ++ outside o c (depth o c d s) t := by
  induction s generalizing d with
  | nil => rfl
  | cons x s ih =>
    rw [List.cons_append, outside, outside, depth]
    split_ifs <;> simp only [ih, List.cons_append]

/-! ### What is outside -/

theorem ne_of_mem_outside {x : α} (h : x ∈ outside o c d s) : x ≠ o ∧ x ≠ c := by
  induction s generalizing d with
  | nil => cases h
  | cons y s ih =>
    rw [outside] at h
    split_ifs at h with ho hc
    · exact ih h
    · exact ih h
    · rcases List.mem_cons.1 h with rfl | h
      · exact ⟨ho, hc⟩
      · exact ih h
    · exact ih h

/-- Without marks, everything is outside. -/
theorem outside_eq_self (hs : ∀ x ∈ s, x ≠ o ∧ x ≠ c) : outside o c 0 s = s := by
  induction s with
  | nil => rfl
  | cons x s ih =>
    obtain ⟨ho, hc⟩ := hs x List.mem_cons_self
    rw [outside, if_neg ho, if_neg hc, if_pos rfl, ih fun y hy ↦ hs y (List.mem_cons_of_mem x hy)]

/-! ### The depth -/

theorem closed_cons {x : α} : Closed o c (x :: s) ↔ (x :: s).count o ≤ (x :: s).count c ∧
    Closed o c s := by
  constructor
  · intro h
    exact ⟨h _ (List.suffix_refl _), fun v hv ↦ h v (hv.trans (List.suffix_cons x s))⟩
  · rintro ⟨hall, hs⟩ v hv
    rcases List.suffix_cons_iff.1 hv with rfl | hv
    · exact hall
    · exact hs v hv

/-- The counter ends at zero if every part at the end closes what it opens, and the whole list
closes the blocks that were open at its beginning too. -/
theorem depth_eq_zero_iff_add (hoc : o ≠ c) (d : ℕ) (s : List α) :
    depth o c d s = 0 ↔ d + s.count o ≤ s.count c ∧ Closed o c s := by
  induction s generalizing d with
  | nil =>
    refine ⟨fun h ↦ ⟨Nat.le_of_eq h, fun v hv ↦ ?_⟩, fun h ↦ Nat.le_zero.1 h.1⟩
    rw [List.suffix_nil.1 hv]
    exact Nat.le_refl 0
  | cons x s ih =>
    rw [depth, closed_cons]
    split_ifs with ho hc
    · subst ho
      rw [ih, List.count_cons_self, List.count_cons_of_ne hoc]
      exact ⟨fun h ↦ ⟨by omega, by omega, h.2⟩, fun h ↦ ⟨by omega, h.2.2⟩⟩
    · subst hc
      rw [ih, List.count_cons_self, List.count_cons_of_ne hoc.symm]
      constructor
      · rintro ⟨hle, hs⟩
        have hsuffix := hs s (List.suffix_refl s)
        exact ⟨by omega, by omega, hs⟩
      · rintro ⟨hle, -, hs⟩
        have hsuffix := hs s (List.suffix_refl s)
        exact ⟨by omega, hs⟩
    · rw [ih, List.count_cons_of_ne ho, List.count_cons_of_ne hc]
      exact ⟨fun h ↦ ⟨h.1, by omega, h.2⟩, fun h ↦ ⟨h.1, h.2.2⟩⟩

/-- **The counter stands at zero** exactly if no opening mark is left unclosed. -/
theorem depth_eq_zero_iff (hoc : o ≠ c) (s : List α) : depth o c 0 s = 0 ↔ Closed o c s := by
  rw [depth_eq_zero_iff_add hoc]
  refine ⟨And.right, fun h ↦ ⟨?_, h⟩⟩
  rw [Nat.zero_add]
  exact h s (List.suffix_refl s)

/-! ### Balanced lists -/

namespace Balanced

theorem nil : Balanced o c ([] : List α) where
  count_le p hp := by rw [List.prefix_nil.1 hp]; exact Nat.le_refl 0
  count_eq := rfl

theorem cons {x : α} (ho : x ≠ o) (hc : x ≠ c) (ht : Balanced o c t) : Balanced o c (x :: t) where
  count_le p hp := by
    rcases List.prefix_cons_iff.1 hp with rfl | ⟨q, rfl, hq⟩
    · exact Nat.le_refl 0
    · rw [List.count_cons_of_ne ho, List.count_cons_of_ne hc]
      exact ht.count_le q hq
  count_eq := by
    rw [List.count_cons_of_ne ho, List.count_cons_of_ne hc]
    exact ht.count_eq

/-- One list behind another one. -/
theorem append (hs : Balanced o c s) (ht : Balanced o c t) : Balanced o c (s ++ t) where
  count_le p hp := by
    rcases List.prefix_or_prefix_of_prefix hp (List.prefix_append s t) with hs' | ⟨q, rfl⟩
    · exact hs.count_le p hs'
    · have hcount := hs.count_eq
      have hle := ht.count_le q ((List.prefix_append_right_inj s).1 hp)
      rw [List.count_append, List.count_append]
      omega
  count_eq := by rw [List.count_append, List.count_append, hs.count_eq, ht.count_eq]

/-- A pair of marks around a list. -/
theorem block (hoc : o ≠ c) (hs : Balanced o c s) : Balanced o c (o :: (s ++ [c])) where
  count_le p hp := by
    rcases List.prefix_cons_iff.1 hp with rfl | ⟨q, rfl, hq⟩
    · exact Nat.le_refl 0
    · rw [List.count_cons_self, List.count_cons_of_ne hoc]
      rcases List.prefix_concat_iff.1 hq with rfl | hq'
      · rw [List.count_append, List.count_append, List.count_singleton_self,
          List.count_singleton, if_neg (by simpa using hoc.symm), hs.count_eq]
      · exact Nat.le_succ_of_le (hs.count_le q hq')
  count_eq := by
    rw [List.count_cons_self, List.count_cons_of_ne hoc, List.count_append, List.count_append,
      List.count_singleton_self, List.count_singleton, if_neg (by simpa using hoc.symm),
      hs.count_eq, Nat.add_zero]

theorem closed (ht : Balanced o c t) : Closed o c t := by
  rintro v ⟨p, rfl⟩
  have hp := ht.count_le p (List.prefix_append p v)
  have htotal := ht.count_eq
  rw [List.count_append, List.count_append] at htotal
  omega

end Balanced

/-! ### Blocks -/

/-- As long as less is closed than is open, nothing is outside, and the counter loses nothing. -/
theorem outside_eq_nil (hoc : o ≠ c) (ht : ∀ p, p <+: t → p.count c < d + p.count o) :
    outside o c d t = [] ∧ depth o c d t + t.count c = d + t.count o := by
  induction t generalizing d with
  | nil => exact ⟨rfl, rfl⟩
  | cons x t ih =>
    have hcons : ∀ p, p <+: t → (x :: p).count c < d + (x :: p).count o := fun p hp ↦
      ht _ (List.cons_prefix_cons.2 ⟨rfl, hp⟩)
    have hd : 0 < d := ht [] List.nil_prefix
    rw [outside, depth]
    split_ifs with ho hc hzero
    · subst ho
      simp only [List.count_cons_self, List.count_cons_of_ne hoc] at hcons ⊢
      obtain ⟨houtside, hdepth⟩ := ih (d := d + 1) fun p hp ↦ by
        have := hcons p hp
        omega
      exact ⟨houtside, by omega⟩
    · subst hc
      simp only [List.count_cons_self, List.count_cons_of_ne hoc.symm] at hcons ⊢
      obtain ⟨houtside, hdepth⟩ := ih (d := d - 1) fun p hp ↦ by
        have := hcons p hp
        omega
      exact ⟨houtside, by omega⟩
    · omega
    · simp only [List.count_cons_of_ne ho, List.count_cons_of_ne hc] at hcons ⊢
      exact ih hcons

/-- **Within a block**, a balanced list leaves the depth as it is. -/
theorem outside_balanced (hoc : o ≠ c) (ht : Balanced o c t) (d : ℕ) :
    outside o c (d + 1) t = [] ∧ depth o c (d + 1) t = d + 1 := by
  obtain ⟨houtside, hdepth⟩ := outside_eq_nil (d := d + 1) hoc fun p hp ↦ by
    have := ht.count_le p hp
    omega
  have hcount := ht.count_eq
  exact ⟨houtside, by omega⟩

theorem depth_balanced (hoc : o ≠ c) (ht : Balanced o c t) (d : ℕ) : depth o c d t = d := by
  rcases d with _ | d
  · exact (depth_eq_zero_iff hoc t).2 ht.closed
  · exact (outside_balanced hoc ht d).2

/-- **A block vanishes.** -/
theorem outside_block (hoc : o ≠ c) (hs : Closed o c s) (ht : Balanced o c t) (u : List α) :
    outside o c 0 (s ++ o :: (t ++ c :: u)) = outside o c 0 s ++ outside o c 0 u := by
  obtain ⟨houtside, hdepth⟩ := outside_balanced hoc ht 0
  rw [outside_append, (depth_eq_zero_iff hoc s).2 hs, outside, if_pos rfl, outside_append,
    houtside, hdepth, List.nil_append, outside, if_neg hoc.symm, if_pos rfl]

end Nesting
