import FirebirdSamples.Grammar.Search

/-!
# Searches to different depths

Two searches from one root take the same rounds until the shallower one meets a rule at its limit.
The levels in the queue do not decrease, so that from there on it keeps no edge (`Inv.edges_idle`),
while the other one goes on and only appends edges (`Search.edges_isPrefix_run`). So the edges of
the one are the first edges of the other (`Inv.edges_isPrefix`).

A rule with references at distance `n` has `n` rules at smaller distances before it, all of them
different (`RuleMap.distance_lt`). A search as deep as there are rules therefore passes all edges of
the rule graph that start at a rule within reach of the root, and a deeper one finds no more
(`reachable_nested`).
-/

namespace FirebirdSamples.Grammar

/-- `all_edges(rules)`. -/
def allEdges (rules : Dict Text (List Text)) : List Edge :=
  rules.entries.flatMap fun e ↦ e.2.map (e.1, ·)

namespace RuleMap

variable {rules : RuleMap}

theorem mem_refs_iff {cur r : Text} :
    r ∈ rules.refs cur ↔ ∃ refs, (cur, refs) ∈ rules.map.entries ∧ r ∈ refs := by
  constructor
  · intro h
    rw [refs] at h
    rcases hget : rules.map.get? cur with _ | l
    · rw [hget] at h
      cases h
    · rw [hget] at h
      exact ⟨l, Dict.get?_eq_some_iff.1 hget, h⟩
  · rintro ⟨l, hl, hr⟩
    rw [refs, Dict.get?_eq_some_iff.2 hl]
    exact hr

/-- The edges of the rule graph. -/
theorem mem_allEdges {e : Edge} : e ∈ allEdges rules.map ↔ e.2 ∈ rules.refs e.1 := by
  rw [mem_refs_iff, allEdges, List.mem_flatMap]
  constructor
  · rintro ⟨⟨lhs, refs⟩, hentry, he⟩
    obtain ⟨r, hr, rfl⟩ := List.mem_map.1 he
    exact ⟨refs, hentry, hr⟩
  · rintro ⟨refs, hentry, hr⟩
    exact ⟨_, hentry, List.mem_map.2 ⟨e.2, hr, rfl⟩⟩

/-- **How far away a rule with references can be.** -/
theorem distance_lt {root a b : Text} (hb : b ∈ rules.refs a) (ha : rules.distance root a ≠ ⊤) :
    rules.distance root a < rules.names.length := by
  obtain ⟨n, hn⟩ := ENat.ne_top_iff_exists.1 ha
  -- at each distance up to that of `a` there is a rule
  have hlevel : ∀ k : Fin (n + 1), ∃ c ∈ rules.names, rules.distance root c = k.val := by
    intro k
    obtain ⟨c, hc, hnext⟩ :=
      BreadthFirst.exists_edist_eq hn.symm (List.ne_nil_of_mem hb) (Nat.le_of_lt_succ k.2)
    obtain ⟨d, hd⟩ := List.exists_mem_of_ne_nil _ hnext
    exact ⟨c, rules.mem_names_of_mem_refs_of hd, hc⟩
  choose f hf hdist using hlevel
  have hinj : Function.Injective f := by
    intro k k' heq
    have := hdist k'
    rw [← heq, hdist k] at this
    exact Fin.ext (Nat.cast_inj.1 this)
  have hsub : List.ofFn f ⊆ rules.names := by
    intro c hc
    obtain ⟨k, rfl⟩ := List.mem_ofFn.1 hc
    exact hf k
  have hle := ((List.nodup_ofFn.2 hinj).subperm hsub).length_le
  rw [List.length_ofFn] at hle
  rw [← hn]
  exact Nat.cast_lt.2 hle

end RuleMap

/-! ### Two searches -/

theorem Search.edges_isPrefix_run {rules : RuleMap} {depth : ℤ} {fuel : ℕ} {s t : Search}
    (h : s.run rules depth fuel = some t) : s.edges <+: t.edges := by
  induction fuel generalizing s with
  | zero =>
    rw [Search.run] at h
    split_ifs at h
    obtain rfl := Option.some.inj h
    exact List.prefix_refl _
  | succ fuel ih =>
    rw [Search.run] at h
    rcases hq : s.q with _ | ⟨cur, q⟩
    · rw [hq] at h
      obtain rfl := Option.some.inj h
      exact List.prefix_refl _
    · simp only [hq] at h
      split_ifs at h
      · exact ih (s := { s with q }) h
      · refine List.IsPrefix.trans ?_ (ih h)
        rw [(foldl_visit cur _ _ _ (rules.nodup_refs_of cur)).1]
        exact List.prefix_append _ _

namespace Inv

variable {rules : RuleMap} {root cur : Text} {depth : ℤ} {s t : Search} {d fuel : ℕ}
  {settled waiting : List (Text × ℕ)}

/-- One round. -/
theorem run_succ (h : Inv rules root depth s settled ((cur, d) :: waiting)) (depth' : ℤ)
    (fuel : ℕ) :
    s.run rules depth' (fuel + 1) =
      if depth' ≤ d then { s with q := waiting.map Prod.fst }.run rules depth' fuel
      else ((rules.refs cur).foldl (Search.visit cur d)
        { s with q := waiting.map Prod.fst }).run rules depth' fuel := by
  rw [Search.run, h.q]
  simp only [List.map_cons, h.get?_head, Option.getD_some]

/-- A search whose next rule is at the limit keeps no further edge. -/
theorem edges_idle (h : Inv rules root depth s settled waiting)
    (hidle : ∀ p ∈ waiting, depth ≤ p.2) (hrun : s.run rules depth fuel = some t) :
    t.edges = s.edges := by
  induction fuel generalizing s settled waiting with
  | zero =>
    rw [Search.run] at hrun
    split_ifs at hrun
    obtain rfl := Option.some.inj hrun
    rfl
  | succ fuel ih =>
    rcases waiting with _ | ⟨⟨cur, d⟩, waiting⟩
    · rw [Search.run_of_q_eq_nil _ h.q] at hrun
      obtain rfl := Option.some.inj hrun
      rfl
    · have hd : depth ≤ d := hidle _ List.mem_cons_self
      rw [h.run_succ, if_pos hd] at hrun
      have := ih (h.skip hd) (fun p hp ↦ hidle p (List.mem_cons_of_mem _ hp)) hrun
      exact this

/-- The rules behind one at the limit are at the limit as well. -/
theorem idle (h : Inv rules root depth s settled ((cur, d) :: waiting)) (hd : depth ≤ d) :
    ∀ p ∈ (cur, d) :: waiting, depth ≤ p.2 := by
  have hsorted := (List.pairwise_append.1 h.explored.sorted).2.1
  intro p hp
  rcases List.mem_cons.1 hp with rfl | hp
  · exact hd
  · have := (List.pairwise_cons.1 hsorted).1 p hp
    dsimp only at this
    omega

/-- **The edges of the shallower search come first.** -/
theorem edges_isPrefix (h : Inv rules root depth s settled waiting) {depth' : ℤ}
    (hdepth : depth ≤ depth') (hrun : s.run rules depth fuel = some t) {fuel' : ℕ} {t' : Search}
    (hrun' : s.run rules depth' fuel' = some t') : t.edges <+: t'.edges := by
  induction fuel generalizing s settled waiting fuel' with
  | zero =>
    rw [Search.run] at hrun
    split_ifs at hrun
    obtain rfl := Option.some.inj hrun
    exact Search.edges_isPrefix_run hrun'
  | succ fuel ih =>
    rcases waiting with _ | ⟨⟨cur, d⟩, waiting⟩
    · rw [Search.run_of_q_eq_nil _ h.q] at hrun
      obtain rfl := Option.some.inj hrun
      exact Search.edges_isPrefix_run hrun'
    · by_cases hd : depth ≤ d
      · rw [h.edges_idle (h.idle hd) hrun]
        exact Search.edges_isPrefix_run hrun'
      · rcases fuel' with _ | fuel'
        · rw [Search.run, h.q] at hrun'
          cases hrun'
        · rw [h.run_succ, if_neg hd] at hrun
          rw [h.run_succ, if_neg fun hd' ↦ hd (hdepth.trans hd')] at hrun'
          exact ih (h.expand hd) hrun hrun'

end Inv

/-- The run behind a search that ends. -/
theorem run_of_reachable {rules : RuleMap} {root : Text} {depth : ℤ} {fuel : ℕ}
    {edges : List Edge} (h : reachable fuel rules root depth = .ok edges) :
    ∃ t, Search.run rules depth fuel ⟨[], .single root 0, [root]⟩ = some t ∧ t.edges = edges := by
  unfold reachable at h
  split_ifs at h
  rcases hrun : Search.run rules depth fuel ⟨[], .single root 0, [root]⟩ with _ | t
  · rw [hrun] at h
    cases h
  · rw [hrun] at h
    exact ⟨t, rfl, Except.ok.inj h⟩

theorem reachable_isPrefix {rules : RuleMap} {root : Text} {depth depth' : ℤ} {fuel fuel' : ℕ}
    {edges edges' : List Edge} (hdepth : depth ≤ depth')
    (h : reachable fuel rules root depth = .ok edges)
    (h' : reachable fuel' rules root depth' = .ok edges') : edges <+: edges' := by
  obtain ⟨t, hrun, rfl⟩ := run_of_reachable h
  obtain ⟨t', hrun', rfl⟩ := run_of_reachable h'
  exact (Inv.start rules root depth).edges_isPrefix hdepth hrun hrun'

/-- **Diagrams of growing depth.** From a rule of any rule map, the edges of a search are the first
edges of every deeper one. From the number of rules on they do not change any more, and are the
edges of the rule graph that start within reach of the root. -/
theorem reachable_nested (rules : RuleMap) (root : Text) (hroot : root ∈ rules.names) :
    ∃ edges : ℤ → List Edge,
      (∀ depth, ∃ bound, ∀ fuel, bound ≤ fuel →
        reachable fuel rules root depth = .ok (edges depth)) ∧
      (∀ depth depth', depth ≤ depth' → edges depth <+: edges depth') ∧
      ∀ depth, (rules.names.length : ℤ) ≤ depth → edges depth = edges rules.names.length ∧
        ∀ e, e ∈ edges depth ↔ e ∈ allEdges rules.map ∧ rules.distance root e.1 ≠ ⊤ := by
  choose edges hrun hnodup hedges _ using
    reachable_eq hroot fun _ _ hwalk ↦ rules.mem_mentioned_of_walk hroot hwalk
  have hfirst : ∀ depth depth', depth ≤ depth' → edges depth <+: edges depth' :=
    fun depth depth' hdepth ↦
      reachable_isPrefix hdepth (hrun depth _ (Nat.le_refl _)) (hrun depth' _ (Nat.le_refl _))
  have hall : ∀ depth, (rules.names.length : ℤ) ≤ depth →
      ∀ e, e ∈ edges depth ↔ e ∈ allEdges rules.map ∧ rules.distance root e.1 ≠ ⊤ := by
    intro depth hdepth e
    rw [hedges depth e.1 e.2, RuleMap.mem_allEdges, and_comm]
    refine and_congr_right fun hb ↦ ⟨ne_top_of_lt, fun hne ↦ ?_⟩
    refine (RuleMap.distance_lt hb hne).trans_le (Nat.cast_le.2 ?_)
    omega
  refine ⟨edges, fun depth ↦ ⟨_, hrun depth⟩, hfirst, fun depth hdepth ↦ ⟨?_, hall depth hdepth⟩⟩
  have hperm : (edges rules.names.length).Perm (edges depth) :=
    (List.perm_ext_iff_of_nodup (hnodup _) (hnodup _)).2 fun e ↦
      (hall _ (le_refl _) e).trans (hall depth hdepth e).symm
  exact ((hfirst _ _ hdepth).eq_of_length hperm.length_eq).symm

theorem reachable_nested_cycle : ∃ edges : ℤ → List Edge,
    edges 0 <+: edges 1 ∧ (['b'], ['a']) ∈ edges 2 := by
  obtain ⟨edges, -, hfirst, hall⟩ := reachable_nested cycleMap ['a'] (by decide)
  refine ⟨edges, hfirst 0 1 (by decide), ((hall 2 (by decide)).2 _).2 ⟨by decide, ?_⟩⟩
  have hwalk : BreadthFirst.Walk cycleMap.refs 1 ['a'] ['b'] :=
    (BreadthFirst.Walk.refl _).snoc (show ['b'] ∈ cycleMap.refs ['a'] by decide)
  exact ne_top_of_le_ne_top (ENat.natCast_ne_top 1) (BreadthFirst.edist_le_of_walk hwalk)

end FirebirdSamples.Grammar
