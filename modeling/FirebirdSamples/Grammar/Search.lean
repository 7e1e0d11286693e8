import FirebirdSamples.Grammar.Rules
import Mathlib.Data.Int.Notation

/-!
# The depth-bounded search

`reachable` searches a rule map breadth first, from a root to a depth, and keeps the edges it
passes. The map is any: it may have cycles, and it may refer to what is not a rule.

The search runs in rounds, one rule from the queue each. What holds between two rounds is `Inv`: the
dictionary `seen` is the settled rules and after them those in the queue, the levels obey the laws
of a breadth-first search, and the edges are the references of the settled rules below the depth. A
round keeps it (`Inv.skip`, `Inv.expand`), and so does a run, which ends within as many rounds as
there are names to settle (`Inv.run`). Then the levels are the distances from the root, and they
were given in order (`reachable_exact`).
-/

namespace FirebirdSamples.Grammar

/-! ### `reachable` -/

/-- An edge of the rule graph. -/
abbrev Edge := Text × Text

/-- Why there is no sub-graph. -/
inductive Stop where
  /-- `sys.exit`. -/
  | exit (message : Text)
  /-- The search was cut off. -/
  | outOfFuel
  deriving DecidableEq

/-- The variables of `reachable`. -/
structure Search where
  /-- The edges kept. -/
  edges : List Edge
  /-- The levels of the rules seen. -/
  seen : Dict Text ℕ
  /-- The queue. -/
  q : List Text

namespace Search

/-- The inner loop, for one reference of `cur`. -/
def visit (cur : Text) (d : ℕ) (s : Search) (nxt : Text) : Search :=
  if nxt ∈ s.seen.keys then
    { s with edges := s.edges ++ [(cur, nxt)] }
  else
    { edges := s.edges ++ [(cur, nxt)]
      seen := s.seen.insert nxt (d + 1)
      q := s.q ++ [nxt] }

/-- The outer loop. -/
def run (rules : RuleMap) (depth : ℤ) : ℕ → Search → Option Search
  | 0, s => if s.q = [] then some s else none
  | fuel + 1, s =>
    match s.q with
    | [] => some s
    | cur :: q =>
      -- a rule in the queue has been seen
      let d := (s.seen.get? cur).getD 0
      if depth ≤ d then
        run rules depth fuel { s with q }
      else
        run rules depth fuel ((rules.refs cur).foldl (visit cur d) { s with q })

end Search

/-- `reachable(rules, root, depth)`. -/
def reachable (fuel : ℕ) (rules : RuleMap) (root : Text) (depth : ℤ) : Except Stop (List Edge) :=
  if root ∈ rules.names then
    match Search.run rules depth fuel ⟨[], .single root 0, [root]⟩ with
    | some s => .ok s.edges
    | none => .error .outOfFuel
  else
    .error (.exit ("root rule '".toList ++ root ++ "' not found in grammar".toList))

/-! ### One round of the search -/

theorem Search.run_of_q_eq_nil {rules : RuleMap} {depth : ℤ} {s : Search} (fuel : ℕ)
    (h : s.q = []) : s.run rules depth fuel = some s := by
  rcases fuel with _ | fuel
  · rw [Search.run, if_pos h]
  · rw [Search.run, h]

/-- The references of a rule that have not been seen. -/
def fresh (rules : RuleMap) (seen : Dict Text ℕ) (cur : Text) : List Text :=
  (rules.refs cur).filter fun r ↦ decide (r ∉ seen.keys)

/-- The inner loop over references that are all different. -/
theorem foldl_visit (cur : Text) (d : ℕ) (refs : List Text) (s : Search) (h : refs.Nodup) :
    (refs.foldl (Search.visit cur d) s).edges = s.edges ++ refs.map (cur, ·) ∧
    (refs.foldl (Search.visit cur d) s).seen.entries = s.seen.entries ++
      (refs.filter fun r ↦ decide (r ∉ s.seen.keys)).map (·, d + 1) ∧
    (refs.foldl (Search.visit cur d) s).q =
      s.q ++ refs.filter fun r ↦ decide (r ∉ s.seen.keys) := by
  induction refs generalizing s with
  | nil => simp
  | cons r refs ih =>
    obtain ⟨hr, hrefs⟩ := List.nodup_cons.1 h
    obtain ⟨hedges, hseen, hq⟩ := ih (s.visit cur d r) hrefs
    rw [List.foldl_cons, hedges, hseen, hq]
    by_cases hmem : r ∈ s.seen.keys
    · have hvisit : s.visit cur d r = { s with edges := s.edges ++ [(cur, r)] } := by
        rw [Search.visit, if_pos hmem]
      rw [hvisit]
      simp [hmem]
    · have hvisit : s.visit cur d r =
          ⟨s.edges ++ [(cur, r)], s.seen.insert r (d + 1), s.q ++ [r]⟩ := by
        rw [Search.visit, if_neg hmem]
      have hentries := Dict.insert_of_notMem hmem (d + 1)
      have hkeys : (s.seen.insert r (d + 1)).keys = s.seen.keys ++ [r] := by
        rw [Dict.keys, hentries, List.map_append]
        rfl
      -- the references behind `r` are not `r`, so that seeing it changes nothing for them
      have hrest : (refs.filter fun x ↦ decide (x ∉ (s.seen.insert r (d + 1)).keys)) =
          refs.filter fun x ↦ decide (x ∉ s.seen.keys) := by
        refine List.filter_congr fun x hx ↦ decide_eq_decide.2 (not_congr ?_)
        have hne : x ≠ r := fun heq ↦ hr (heq ▸ hx)
        rw [hkeys, List.mem_append, List.mem_singleton]
        exact ⟨fun h ↦ h.resolve_right hne, Or.inl⟩
      rw [hvisit]
      dsimp only
      rw [hrest, hentries]
      simp [hmem]

/-- The edges out of the settled rules below a depth. -/
def edgesOf (rules : RuleMap) (limit : ℕ) (settled : List (Text × ℕ)) : List Edge :=
  (settled.filter fun p ↦ decide (p.2 < limit)).flatMap fun p ↦ (rules.refs p.1).map (p.1, ·)

theorem edgesOf_concat (rules : RuleMap) (limit : ℕ) (settled : List (Text × ℕ)) (p : Text × ℕ) :
    edgesOf rules limit (settled ++ [p]) =
      edgesOf rules limit settled ++ if p.2 < limit then (rules.refs p.1).map (p.1, ·) else [] := by
  rw [edgesOf, edgesOf, List.filter_append, List.flatMap_append]
  split_ifs with hp <;> simp only [List.filter_cons, hp] <;> simp

/-- **What holds between two rounds** of a search. -/
structure Inv (rules : RuleMap) (root : Text) (depth : ℤ) (s : Search)
    (settled waiting : List (Text × ℕ)) : Prop where
  /-- The levels are those of a breadth-first search. -/
  explored : BreadthFirst.Explored rules.refs root depth.toNat settled waiting
  /-- The rules seen are the settled ones and the waiting ones. -/
  seen : s.seen.entries = settled ++ waiting
  /-- The waiting ones are in the queue. -/
  q : s.q = waiting.map Prod.fst
  /-- The edges kept are those of the settled ones. -/
  edges : s.edges = edgesOf rules depth.toNat settled

namespace Inv

variable {rules : RuleMap} {root cur : Text} {depth : ℤ} {s : Search} {d : ℕ}
  {settled waiting : List (Text × ℕ)}

theorem start (rules : RuleMap) (root : Text) (depth : ℤ) :
    Inv rules root depth ⟨[], .single root 0, [root]⟩ [] [(root, 0)] :=
  ⟨BreadthFirst.Explored.start, rfl, rfl, rfl⟩

/-- The level of the rule at the head of the queue. -/
theorem get?_head (h : Inv rules root depth s settled ((cur, d) :: waiting)) :
    s.seen.get? cur = some d := by
  rw [Dict.get?_eq_some_iff, h.seen]
  exact List.mem_append_right _ List.mem_cons_self

/-- A round for a rule at the limit. -/
theorem skip (h : Inv rules root depth s settled ((cur, d) :: waiting)) (hd : depth ≤ d) :
    Inv rules root depth { s with q := waiting.map Prod.fst } (settled ++ [(cur, d)]) waiting := by
  have hlimit : depth.toNat ≤ d := by omega
  refine ⟨h.explored.skip hlimit, ?_, rfl, ?_⟩
  · rw [BreadthFirst.Explored.append_move]
    exact h.seen
  · show s.edges = _
    rw [h.edges, edgesOf_concat, if_neg (Nat.not_lt.2 hlimit), List.append_nil]

/-- A round for a rule below the limit. -/
theorem expand (h : Inv rules root depth s settled ((cur, d) :: waiting)) (hd : ¬ depth ≤ d) :
    Inv rules root depth
      ((rules.refs cur).foldl (Search.visit cur d) { s with q := waiting.map Prod.fst })
      (settled ++ [(cur, d)]) (waiting ++ (fresh rules s.seen cur).map (·, d + 1)) := by
  have hlimit : d < depth.toNat := by omega
  have hkeys : s.seen.keys = (settled ++ (cur, d) :: waiting).map Prod.fst := by
    rw [Dict.keys, h.seen]
  obtain ⟨hedges, hseen, hq⟩ := foldl_visit cur d (rules.refs cur)
    { s with q := waiting.map Prod.fst } (rules.nodup_refs_of cur)
  refine ⟨?_, ?_, ?_, ?_⟩
  · refine h.explored.expand hlimit ((rules.nodup_refs_of cur).filter _) ?_ ?_ ?_
    · exact fun c hc ↦ (List.mem_filter.1 hc).1
    · intro c hc
      rw [← hkeys]
      exact of_decide_eq_true (List.mem_filter.1 hc).2
    · intro c hc hold
      rw [← hkeys]
      by_contra hnew
      exact hold (List.mem_filter.2 ⟨hc, decide_eq_true hnew⟩)
  · rw [hseen, ← List.append_assoc, BreadthFirst.Explored.append_move]
    exact congrArg (· ++ _) h.seen
  · rw [hq, List.map_append, List.map_map]
    exact congrArg (_ ++ ·) (List.map_id _).symm
  · rw [hedges]
    show s.edges ++ _ = _
    rw [h.edges, edgesOf_concat, if_pos hlimit]

/-- While something waits, fewer names are settled than there are. -/
theorem length_lt (h : Inv rules root depth s settled waiting) {all : List Text}
    (hall : ∀ n a, BreadthFirst.Walk rules.refs n root a → a ∈ all) (hne : waiting ≠ []) :
    settled.length < all.length := by
  have hsub : (settled ++ waiting).map Prod.fst ⊆ all := by
    intro a ha
    obtain ⟨p, hp, rfl⟩ := List.mem_map.1 ha
    exact hall _ _ (h.explored.walk p hp)
  have hle := (h.explored.nodup.subperm hsub).length_le
  rw [List.length_map, List.length_append] at hle
  have := List.length_pos_of_ne_nil hne
  omega

/-- **A run.** It ends, with nothing waiting, whatever fuel it has for as many rounds as there are
names left of those that walks from the root lead to. -/
theorem run (h : Inv rules root depth s settled waiting) {all : List Text}
    (hall : ∀ n a, BreadthFirst.Walk rules.refs n root a → a ∈ all) {m : ℕ}
    (hm : all.length ≤ m + settled.length) :
    ∃ s' settled', (∀ fuel, m ≤ fuel → s.run rules depth fuel = some s') ∧
      Inv rules root depth s' settled' [] := by
  induction m generalizing s settled waiting with
  | zero =>
    obtain rfl : waiting = [] := by
      by_contra hne
      have := h.length_lt hall hne
      omega
    exact ⟨s, settled, fun fuel _ ↦ Search.run_of_q_eq_nil fuel h.q, h⟩
  | succ m ih =>
    rcases waiting with _ | ⟨⟨cur, d⟩, waiting⟩
    · exact ⟨s, settled, fun fuel _ ↦ Search.run_of_q_eq_nil fuel h.q, h⟩
    · have hm' : all.length ≤ m + (settled ++ [(cur, d)]).length := by
        rw [List.length_append, List.length_singleton]
        omega
      have hround : ∀ fuel, s.run rules depth (fuel + 1) =
          if depth ≤ d then { s with q := waiting.map Prod.fst }.run rules depth fuel
          else ((rules.refs cur).foldl (Search.visit cur d)
            { s with q := waiting.map Prod.fst }).run rules depth fuel := by
        intro fuel
        rw [Search.run, h.q]
        simp only [List.map_cons, h.get?_head, Option.getD_some]
      obtain ⟨s', settled', hrun, hinv⟩ : ∃ s' settled',
          (∀ fuel, m ≤ fuel → s.run rules depth (fuel + 1) = some s') ∧
            Inv rules root depth s' settled' [] := by
        simp only [hround]
        split_ifs with hd
        · exact ih (h.skip hd) hm'
        · exact ih (h.expand hd) hm'
      refine ⟨s', settled', fun fuel hfuel ↦ ?_, hinv⟩
      obtain ⟨fuel, rfl⟩ := Nat.exists_eq_add_of_le' (Nat.lt_of_lt_of_le m.succ_pos hfuel)
      exact hrun fuel (Nat.le_of_succ_le_succ hfuel)

end Inv

/-! ### The edges of a search -/

theorem nodup_edgesOf {rules : RuleMap} {limit : ℕ} {settled : List (Text × ℕ)}
    (h : (settled.map Prod.fst).Nodup) : (edgesOf rules limit settled).Nodup := by
  rw [edgesOf, List.nodup_flatMap]
  constructor
  · exact fun p _ ↦ (rules.nodup_refs_of p.1).map fun _ _ heq ↦ (Prod.mk.inj heq).2
  · refine ((List.pairwise_map.1 h).filter _).imp fun {p p'} hne ↦ ?_
    intro e he he'
    obtain ⟨r, -, rfl⟩ := List.mem_map.1 he
    obtain ⟨r', -, heq⟩ := List.mem_map.1 he'
    exact hne (Prod.mk.inj heq).1.symm

/-- The edges are in the order of the levels. -/
theorem pairwise_edgesOf {rules : RuleMap} {limit : ℕ} {settled : List (Text × ℕ)} {f : Text → ℕ∞}
    (hf : ∀ p ∈ settled, f p.1 = p.2) (h : settled.Pairwise fun p q ↦ p.2 ≤ q.2) :
    (edgesOf rules limit settled).Pairwise fun e e' ↦ f e.1 ≤ f e'.1 := by
  rw [edgesOf, List.pairwise_flatMap]
  constructor
  · intro p _
    exact List.pairwise_map.2 (List.pairwise_of_forall fun _ _ ↦ le_rfl)
  · refine (h.filter _).imp_of_mem fun {p q} hp hq hle e he e' he' ↦ ?_
    obtain ⟨r, -, rfl⟩ := List.mem_map.1 he
    obtain ⟨r', -, rfl⟩ := List.mem_map.1 he'
    rw [hf p (List.mem_of_mem_filter hp), hf q (List.mem_of_mem_filter hq)]
    exact Nat.cast_le.2 hle

/-- **The edges of a search**: the references of the rules at distance less than the depth, each
once and in the order of the distance. Any fuel will do from the number of names on to which walks
from the root lead. -/
theorem reachable_eq {rules : RuleMap} {root : Text} (hroot : root ∈ rules.names) {all : List Text}
    (hall : ∀ n a, BreadthFirst.Walk rules.refs n root a → a ∈ all) (depth : ℤ) :
    ∃ edges, (∀ fuel, all.length ≤ fuel → reachable fuel rules root depth = .ok edges) ∧
      edges.Nodup ∧
      (∀ a b, (a, b) ∈ edges ↔ rules.distance root a < depth.toNat ∧ b ∈ rules.refs a) ∧
      edges.Pairwise fun e e' ↦ rules.distance root e.1 ≤ rules.distance root e'.1 := by
  obtain ⟨s, settled, hrun, hinv⟩ := (Inv.start rules root depth).run hall (Nat.le_refl _)
  refine ⟨s.edges, fun fuel hfuel ↦ ?_, ?_, ?_, ?_⟩
  · rw [reachable, if_pos hroot, hrun fuel hfuel]
  · have hnodup := hinv.explored.nodup
    rw [List.append_nil] at hnodup
    rw [hinv.edges]
    exact nodup_edgesOf hnodup
  · intro a b
    rw [hinv.edges, edgesOf, List.mem_flatMap]
    constructor
    · rintro ⟨⟨a', k⟩, hp, hb⟩
      obtain ⟨r, hr, heq⟩ := List.mem_map.1 hb
      obtain ⟨rfl, rfl⟩ := Prod.mk.inj heq
      obtain ⟨hsettled, hk⟩ := List.mem_filter.1 hp
      refine ⟨?_, hr⟩
      rw [RuleMap.distance, hinv.explored.edist_eq hsettled]
      exact Nat.cast_lt.2 (of_decide_eq_true hk)
    · rintro ⟨hdist, hb⟩
      obtain ⟨k, hk⟩ := hinv.explored.exists_level hdist.le
      rw [RuleMap.distance, hinv.explored.edist_eq hk] at hdist
      exact ⟨(a, k), List.mem_filter.2 ⟨hk, decide_eq_true (Nat.cast_lt.1 hdist)⟩,
        List.mem_map.2 ⟨b, hb, rfl⟩⟩
  · have hsorted := hinv.explored.sorted
    rw [List.append_nil] at hsorted
    rw [hinv.edges]
    exact pairwise_edgesOf (fun p hp ↦ hinv.explored.edist_eq hp) hsorted

/-- The edges of a search in the rules of a grammar, where any fuel from the number of rules on will
do. -/
theorem reachable_spec {rules : Rules} {root : Text} (hroot : root ∈ rules.names) (depth : ℤ) :
    ∃ edges, (∀ fuel, rules.names.length ≤ fuel →
        reachable fuel rules.toRuleMap root depth = .ok edges) ∧
      edges.Nodup ∧
      ∀ a b, (a, b) ∈ edges ↔ rules.distance root a < depth.toNat ∧ b ∈ rules.refs a := by
  obtain ⟨edges, hrun, hnodup, hedges, -⟩ := reachable_eq hroot
    (fun _ _ hwalk ↦ rules.mem_names_of_walk hroot hwalk) depth
  exact ⟨edges, hrun, hnodup, hedges⟩

/-- **The search is exact.** From a rule of any rule map, to any depth, it ends with the pairs of a
rule at distance less than the depth and a reference of it, each once and in the order of the
distance. -/
theorem reachable_exact (rules : RuleMap) (root : Text) (hroot : root ∈ rules.names) (depth : ℤ) :
    ∃ edges, (∃ bound, ∀ fuel, bound ≤ fuel → reachable fuel rules root depth = .ok edges) ∧
      edges.Nodup ∧
      (∀ u v, (u, v) ∈ edges ↔
        v ∈ rules.refs u ∧ ∃ n : ℕ, rules.distance root u = n ∧ (n : ℤ) < depth) ∧
      edges.Pairwise fun e e' ↦ rules.distance root e.1 ≤ rules.distance root e'.1 := by
  obtain ⟨edges, hrun, hnodup, hedges, hsorted⟩ := reachable_eq hroot
    (fun _ _ hwalk ↦ rules.mem_mentioned_of_walk hroot hwalk) depth
  refine ⟨edges, ⟨_, hrun⟩, hnodup, fun u v ↦ ?_, hsorted⟩
  rw [hedges, and_comm]
  refine and_congr_right' ?_
  constructor
  · intro hlt
    obtain ⟨n, hn⟩ := ENat.ne_top_iff_exists.1 (ne_top_of_lt hlt)
    rw [← hn] at hlt
    have := Nat.cast_lt.1 hlt
    exact ⟨n, hn.symm, by omega⟩
  · rintro ⟨n, hn, hlt⟩
    rw [hn]
    exact Nat.cast_lt.2 (by omega)

/-- Two rules that refer to each other, and a reference to what is no rule. -/
def cycleMap : RuleMap where
  map := (Dict.single ['a'] [['b'], ['T']]).insert ['b'] [['a']]
  nodup_refs := by
    intro n refs h
    have hmem : (n, refs) ∈ [(['a'], [['b'], ['T']]), (['b'], [['a']])] :=
      Dict.get?_eq_some_iff.1 h
    exact (show ∀ p ∈ [(['a'], [['b'], ['T']]), (['b'], [['a']])], p.2.Nodup by decide) _ hmem

theorem reachable_exact_of_cycle : ∃ edges,
    (∃ bound, ∀ fuel, bound ≤ fuel → reachable fuel cycleMap ['a'] 2 = .ok edges) ∧
      edges.Nodup ∧ (['b'], ['a']) ∈ edges := by
  obtain ⟨edges, hrun, hnodup, hedges, -⟩ := reachable_exact cycleMap ['a'] (by decide) 2
  have hwalk : BreadthFirst.Walk cycleMap.refs 1 ['a'] ['b'] :=
    (BreadthFirst.Walk.refl _).snoc (show ['b'] ∈ cycleMap.refs ['a'] by decide)
  have hle : cycleMap.distance ['a'] ['b'] ≤ (1 : ℕ) := BreadthFirst.edist_le_of_walk hwalk
  obtain ⟨n, hn⟩ := ENat.ne_top_iff_exists.1 (ne_top_of_le_ne_top (ENat.natCast_ne_top 1) hle)
  rw [← hn] at hle
  have hle' := Nat.cast_le.1 hle
  exact ⟨edges, hrun, hnodup, (hedges _ _).2 ⟨by decide, n, hn.symm, by omega⟩⟩

example : reachable 4 cycleMap ['a'] 2 =
    .ok [(['a'], ['b']), (['a'], ['T']), (['b'], ['a'])] := by
  decide

end FirebirdSamples.Grammar
