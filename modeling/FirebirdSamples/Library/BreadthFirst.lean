import Mathlib.Data.ENat.Lattice
import Mathlib.Data.List.Nodup

/-!
# Distances in a directed graph, and breadth-first search

A directed graph is given by the successors `next a` of each vertex. The distance `edist next a b`
is the length of a shortest walk, and `⊤` where there is none.

A breadth-first search hands out levels. Its state is two lists of vertices with their levels: the
`settled` ones, which have been looked at, and the `waiting` ones in the order of their discovery.
`Explored next root limit settled waiting` says what holds of them at every moment of a search from
`root` that looks at the successors of a vertex only where its level is below `limit`. The laws are
the three things a search does:

* `Explored.start` — it begins with the root alone, at level zero;
* `Explored.skip` — it settles a vertex whose level is the limit, without a look;
* `Explored.expand` — it settles a vertex and appends those of its successors that have no level
  yet.

**What the search has found.** When nothing waits any more, the vertices with a level are those at
distance at most `limit`, and the level of each is its distance (`Explored.edist_eq`,
`Explored.exists_level`). The first needs that levels are handed out in order: a successor that has
a level already has at most the one it would get, which is what `Explored.near` and
`Explored.sorted` are there for.
-/

namespace BreadthFirst

variable {α : Type} {next : α → List α} {root a b c : α} {n k limit : ℕ}

/-! ### Walks and distances -/

/-- A walk of `n` steps. -/
inductive Walk (next : α → List α) : ℕ → α → α → Prop
  | refl (a : α) : Walk next 0 a a
  | snoc {n : ℕ} {a b c : α} (h : Walk next n a b) (hc : c ∈ next b) : Walk next (n + 1) a c

theorem Walk.eq_of_zero (h : Walk next 0 a b) : a = b := by
  rcases h with ⟨⟩
  rfl

/-- A walk that takes a step ends with one. -/
theorem Walk.exists_last (h : Walk next (n + 1) a c) : ∃ b, Walk next n a b ∧ c ∈ next b := by
  rcases h with _ | ⟨h, hc⟩
  exact ⟨_, h, hc⟩

/-- No walk leads away from a vertex without successors. -/
theorem Walk.eq_of_next_eq_nil (h : Walk next n a b) (ha : next a = []) : b = a := by
  induction n generalizing b with
  | zero => exact h.eq_of_zero.symm
  | succ n ih =>
    obtain ⟨c, hc, hb⟩ := h.exists_last
    rw [ih hc, ha] at hb
    exact absurd hb List.not_mem_nil

/-- **The distance** from one vertex to another. -/
noncomputable def edist (next : α → List α) (a b : α) : ℕ∞ :=
  ⨅ (n : ℕ) (_ : Walk next n a b), (n : ℕ∞)

theorem edist_le_of_walk (h : Walk next n a b) : edist next a b ≤ n :=
  iInf₂_le n h

theorem edist_le_iff : edist next a b ≤ n ↔ ∃ k ≤ n, Walk next k a b := by
  constructor
  · intro h
    by_contra hno
    have hfar : ((n + 1 : ℕ) : ℕ∞) ≤ edist next a b := by
      refine le_iInf₂ fun k hk ↦ ?_
      have : n < k := Nat.lt_of_not_le fun hle ↦ hno ⟨k, hle, hk⟩
      exact Nat.cast_le.2 this
    have := Nat.cast_le.1 (hfar.trans h)
    omega
  · rintro ⟨k, hk, hwalk⟩
    exact (edist_le_of_walk hwalk).trans (Nat.cast_le.2 hk)

theorem edist_lt_iff : edist next a b < n ↔ ∃ k < n, Walk next k a b := by
  obtain rfl | ⟨m, rfl⟩ : n = 0 ∨ ∃ m, n = m + 1 := by
    rcases n with _ | m
    · exact Or.inl rfl
    · exact Or.inr ⟨m, rfl⟩
  · simp
  · rw [Nat.cast_succ, ENat.lt_add_one_iff (ENat.natCast_ne_top m) |>.trans edist_le_iff]
    simp only [Nat.lt_succ_iff]

@[simp] theorem edist_self : edist next a a = 0 := by
  have h : edist next a a ≤ (0 : ℕ) := edist_le_of_walk (Walk.refl a)
  rwa [Nat.cast_zero, nonpos_iff_eq_zero] at h

/-- **No distance is skipped**: on the way to a vertex with successors there is one at each smaller
distance. -/
theorem exists_edist_eq (h : edist next a b = n) (hb : next b ≠ []) (hk : k ≤ n) :
    ∃ c, edist next a c = k ∧ next c ≠ [] := by
  induction n generalizing b with
  | zero =>
    obtain rfl := Nat.le_zero.1 hk
    exact ⟨b, h, hb⟩
  | succ n ih =>
    rcases Nat.le_or_eq_of_le_succ hk with hk | rfl
    · obtain ⟨m, hm, hwalk⟩ := edist_le_iff.1 h.le
      have hfar : ∀ m ≤ n, ¬ Walk next m a b := fun m hm hwalk ↦ by
        have hle : edist next a b ≤ n := edist_le_iff.2 ⟨m, hm, hwalk⟩
        rw [h] at hle
        have := Nat.cast_le.1 hle
        omega
      obtain rfl : m = n + 1 := by
        by_contra hne
        exact hfar m (by omega) hwalk
      obtain ⟨c, hc, hbc⟩ := hwalk.exists_last
      have hdist : edist next a c = n := by
        refine le_antisymm (edist_le_of_walk hc) (le_of_not_gt fun hlt ↦ ?_)
        obtain ⟨m, hm, hwalk⟩ := edist_lt_iff.1 hlt
        exact hfar (m + 1) hm (hwalk.snoc hbc)
      exact ih hdist (List.ne_nil_of_mem hbc) hk
    · exact ⟨b, h, hb⟩

/-! ### The search -/

/-- **What holds at every moment of a search.** -/
structure Explored (next : α → List α) (root : α) (limit : ℕ) (settled waiting : List (α × ℕ)) :
    Prop where
  /-- No vertex has two levels. -/
  nodup : ((settled ++ waiting).map Prod.fst).Nodup
  /-- The root is at level zero. -/
  root_mem : (root, 0) ∈ settled ++ waiting
  /-- A level is the length of some walk. -/
  walk : ∀ p ∈ settled ++ waiting, Walk next p.2 root p.1
  /-- No level is above the limit. -/
  le_limit : ∀ p ∈ settled ++ waiting, p.2 ≤ limit
  /-- The successors of a settled vertex below the limit have levels, at most one higher. -/
  closed : ∀ p ∈ settled, p.2 < limit → ∀ c ∈ next p.1, ∃ k ≤ p.2 + 1, (c, k) ∈ settled ++ waiting
  /-- Levels are given in order. -/
  sorted : (settled ++ waiting).Pairwise fun p q ↦ p.2 ≤ q.2
  /-- No level is more than one above a waiting one. -/
  near : ∀ p ∈ waiting, ∀ q ∈ settled ++ waiting, q.2 ≤ p.2 + 1

namespace Explored

variable {settled waiting : List (α × ℕ)} {p : α × ℕ} {fresh : List α}

theorem start : Explored next root limit [] [(root, 0)] where
  nodup := List.nodup_singleton root
  root_mem := List.mem_singleton.2 rfl
  walk := by
    intro p hp
    obtain rfl := List.mem_singleton.1 hp
    exact Walk.refl root
  le_limit := by
    intro p hp
    obtain rfl := List.mem_singleton.1 hp
    exact Nat.zero_le limit
  closed := fun p hp ↦ absurd hp (List.not_mem_nil)
  sorted := List.pairwise_singleton _ _
  near := by
    intro p hp q hq
    obtain rfl := List.mem_singleton.1 hq
    exact Nat.zero_le _

/-- Moving the first waiting vertex over does not change what has a level. -/
theorem append_move (settled : List (α × ℕ)) (p : α × ℕ) (waiting : List (α × ℕ)) :
    (settled ++ [p]) ++ waiting = settled ++ p :: waiting := by
  rw [List.append_assoc, List.singleton_append]

/-- What has a level after a look at the first waiting vertex. -/
theorem mem_append_fresh (settled : List (α × ℕ)) (p : α × ℕ) (waiting : List (α × ℕ))
    (fresh : List α) (q : α × ℕ) :
    q ∈ (settled ++ [p]) ++ (waiting ++ fresh.map fun c ↦ (c, p.2 + 1)) ↔
      q ∈ settled ++ p :: waiting ∨ q.1 ∈ fresh ∧ q.2 = p.2 + 1 := by
  obtain ⟨c, k⟩ := q
  rw [← List.append_assoc, append_move, List.mem_append]
  refine or_congr_right ?_
  constructor
  · intro hq
    obtain ⟨d, hd, heq⟩ := List.mem_map.1 hq
    obtain ⟨rfl, rfl⟩ := Prod.mk.inj heq
    exact ⟨hd, rfl⟩
  · rintro ⟨hc, rfl⟩
    exact List.mem_map.2 ⟨c, hc, rfl⟩

theorem skip (h : Explored next root limit settled (p :: waiting)) (hp : limit ≤ p.2) :
    Explored next root limit (settled ++ [p]) waiting := by
  obtain ⟨hnodup, hroot, hwalk, hlimit, hclosed, hsorted, hnear⟩ := h
  refine ⟨?_, ?_, ?_, ?_, ?_, ?_, ?_⟩ <;> rw [append_move]
  · exact hnodup
  · exact hroot
  · exact hwalk
  · exact hlimit
  · intro q hq hlt
    rcases List.mem_append.1 hq with hq | hq
    · exact hclosed q hq hlt
    · obtain rfl := List.mem_singleton.1 hq
      omega
  · exact hsorted
  · exact fun q hq ↦ hnear q (List.mem_cons_of_mem p hq)

/-- **A look at a vertex.** The successors without a level, `fresh`, get the next one. -/
theorem expand (h : Explored next root limit settled (p :: waiting)) (hp : p.2 < limit)
    (hnodup : fresh.Nodup) (hnext : ∀ c ∈ fresh, c ∈ next p.1)
    (hnew : ∀ c ∈ fresh, c ∉ (settled ++ p :: waiting).map Prod.fst)
    (hold : ∀ c ∈ next p.1, c ∉ fresh → c ∈ (settled ++ p :: waiting).map Prod.fst) :
    Explored next root limit (settled ++ [p]) (waiting ++ fresh.map fun c ↦ (c, p.2 + 1)) := by
  have hhead : p ∈ settled ++ p :: waiting := List.mem_append_right _ List.mem_cons_self
  have hmem := mem_append_fresh settled p waiting fresh
  have hfirst := List.pairwise_cons.1 (List.pairwise_append.1 h.sorted).2.1
  refine ⟨?_, ?_, ?_, ?_, ?_, ?_, ?_⟩
  · -- the old vertices and the fresh ones are apart
    have hkeys : ((settled ++ [p]) ++ (waiting ++ fresh.map fun c ↦ (c, p.2 + 1))).map Prod.fst =
        (settled ++ p :: waiting).map Prod.fst ++ fresh := by
      rw [← List.append_assoc, append_move, List.map_append, List.map_map]
      congr 1
      exact List.map_id fresh
    rw [hkeys]
    exact h.nodup.append hnodup fun c hc hfresh ↦ hnew c hfresh hc
  · exact (hmem _).2 (Or.inl h.root_mem)
  · intro q hq
    rcases (hmem q).1 hq with hq | ⟨hq, hlevel⟩
    · exact h.walk q hq
    · rw [hlevel]
      exact (h.walk p hhead).snoc (hnext _ hq)
  · intro q hq
    rcases (hmem q).1 hq with hq | ⟨-, hlevel⟩
    · exact h.le_limit q hq
    · omega
  · intro q hq hlt c hc
    rcases List.mem_append.1 hq with hq | hq
    · obtain ⟨k, hk, hck⟩ := h.closed q hq hlt c hc
      exact ⟨k, hk, (hmem _).2 (Or.inl hck)⟩
    · obtain rfl := List.mem_singleton.1 hq
      by_cases hfresh : c ∈ fresh
      · exact ⟨q.2 + 1, Nat.le_refl _, (hmem _).2 (Or.inr ⟨hfresh, rfl⟩)⟩
      · -- a successor with a level was discovered no later than it would be now
        obtain ⟨r, hr, rfl⟩ := List.mem_map.1 (hold c hc hfresh)
        exact ⟨r.2, h.near q List.mem_cons_self r hr, (hmem _).2 (Or.inl hr)⟩
  · rw [← List.append_assoc, append_move]
    refine List.pairwise_append.2 ⟨h.sorted, ?_, ?_⟩
    · exact List.pairwise_map.2 (List.pairwise_of_forall fun _ _ ↦ Nat.le_refl _)
    · intro q hq r hr
      obtain ⟨c, -, rfl⟩ := List.mem_map.1 hr
      exact h.near p List.mem_cons_self q hq
  · intro q hq r hr
    have hqlevel : p.2 ≤ q.2 := by
      rcases List.mem_append.1 hq with hq | hq
      · exact hfirst.1 q hq
      · obtain ⟨c, -, rfl⟩ := List.mem_map.1 hq
        exact Nat.le_succ _
    rcases (hmem r).1 hr with hr | ⟨-, hlevel⟩
    · have := h.near p List.mem_cons_self r hr
      omega
    · omega

/-! ### What the search has found -/

/-- When nothing waits, a walk of at most `limit` steps leads to a vertex with no higher a level. -/
theorem exists_level_le (h : Explored next root limit settled []) (hwalk : Walk next n root a)
    (hn : n ≤ limit) : ∃ k ≤ n, (a, k) ∈ settled := by
  have hall : ∀ q, q ∈ settled ++ [] ↔ q ∈ settled := fun q ↦ by rw [List.append_nil]
  induction n generalizing a with
  | zero =>
    obtain rfl := hwalk.eq_of_zero
    exact ⟨0, Nat.le_refl 0, (hall _).1 h.root_mem⟩
  | succ n ih =>
    obtain ⟨b, hb, hab⟩ := hwalk.exists_last
    obtain ⟨k, hk, hbk⟩ := ih hb (Nat.le_of_succ_le hn)
    obtain ⟨m, hm, ham⟩ := h.closed (b, k) hbk (show k < limit by omega) a hab
    dsimp only at hm
    exact ⟨m, by omega, (hall _).1 ham⟩

/-- **Levels are distances.** -/
theorem edist_eq (h : Explored next root limit settled []) (ha : (a, k) ∈ settled) :
    edist next root a = k := by
  have hmem : (a, k) ∈ settled ++ [] := by rwa [List.append_nil]
  refine le_antisymm (edist_le_of_walk (h.walk _ hmem)) (le_iInf₂ fun n hn ↦ ?_)
  refine Nat.cast_le.2 (Nat.le_of_not_lt fun hlt ↦ ?_)
  have hk : k ≤ limit := h.le_limit _ hmem
  obtain ⟨m, hm, ham⟩ := h.exists_level_le hn (by omega)
  -- two levels of one vertex agree
  have heq : (a, m) = (a, k) := by
    have hnodup := h.nodup
    rw [List.append_nil] at hnodup
    exact List.inj_on_of_nodup_map hnodup ham ha rfl
  have := (Prod.mk.inj heq).2
  omega

/-- **The vertices within the limit have levels.** -/
theorem exists_level (h : Explored next root limit settled []) (ha : edist next root a ≤ limit) :
    ∃ k, (a, k) ∈ settled := by
  obtain ⟨n, hn, hwalk⟩ := edist_le_iff.1 ha
  obtain ⟨k, -, hk⟩ := h.exists_level_le hwalk hn
  exact ⟨k, hk⟩

end Explored

end BreadthFirst
