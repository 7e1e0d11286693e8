import FirebirdSamples.Grammar.Search
import Mathlib

/-!
# The printed sub-graph

`emitMermaid` prints the edges that a search has kept. It is handed edges only: the nodes it
declares are the ends of the edges it prints.

`reachable_spec` has the edges of a search: the references of the rules at distance less than the
depth, each once. So the nodes declared are the rules within the depth, as long as the root has an
edge. A root without references, or a depth of zero, leaves an empty diagram, in which the root
itself is missing (`diagramComplete_iff`).
-/

namespace FirebirdSamples.Grammar

/-! ### `emit_mermaid` -/

/-- The flow direction of a diagram. -/
inductive Direction where
  | LR
  | TB

/-- How a direction is printed. -/
def Direction.text : Direction → Text
  | LR => "LR".toList
  | TB => "TB".toList

/-- The id of a node. -/
def nid (name : Text) : Text :=
  "r_".toList ++ name

/-- `sorted({n for e in edges for n in e})`. -/
def nodes (edges : List Edge) : List Text :=
  (edges.flatMap fun e ↦ [e.1, e.2]).dedup.insertionSort (· ≤ ·)

/-- The line that declares a node. -/
def nodeLine (n : Text) : Text :=
  "    ".toList ++ nid n ++ "[\"".toList ++ n ++ "\"]".toList

/-- The line of an arrow. -/
def arrowLine (e : Edge) : Text :=
  "    ".toList ++ nid e.1 ++ " --> ".toList ++ nid e.2

theorem nodeLine_eq (n : Text) :
    nodeLine n = "    ".toList ++ nid n ++ "[\"".toList ++ n ++ "\"]".toList := rfl

theorem arrowLine_eq (e : Edge) :
    arrowLine e = "    ".toList ++ nid e.1 ++ " --> ".toList ++ nid e.2 := rfl

/-- A line of comment. -/
def commentLine (t : Text) : Text :=
  "%% ".toList ++ t

/-- The lines before the nodes. -/
def headLines (direction : Direction) (title : Text) : List Text :=
  [commentLine title,
    commentLine "generated by tools/grammar_to_mermaid.py from Firebird's src/dsql/parse.y".toList,
    "flowchart ".toList ++ direction.text]

/-- `emit_mermaid(edges, direction, title)`: the lines it prints. -/
def emitMermaid (edges : List Edge) (direction : Direction) (title : Text) : List Text :=
  headLines direction title ++ (nodes edges).map nodeLine ++ edges.map arrowLine

/-! ### The printed lines -/

theorem mem_nodes {edges : List Edge} {n : Text} :
    n ∈ nodes edges ↔ ∃ e ∈ edges, n = e.1 ∨ n = e.2 := by
  rw [nodes, List.mem_insertionSort, List.mem_dedup, List.mem_flatMap]
  simp

theorem nodup_nodes (edges : List Edge) : (nodes edges).Nodup :=
  (List.perm_insertionSort _ _).nodup_iff.2 (List.nodup_dedup _)

theorem nid_injective : Function.Injective nid :=
  List.append_right_injective _

theorem nodeLine_injective : Function.Injective nodeLine := by
  intro n m h
  have hlen := congrArg List.length h
  simp only [nodeLine_eq, nid, List.length_append] at hlen
  simp only [nodeLine_eq, nid, List.append_assoc] at h
  have h' := List.append_cancel_left (List.append_cancel_left h)
  exact (List.append_inj h' (by omega)).1

theorem notMem_nid {x : Char} {n : Text} (hx : x ∉ "r_".toList) (hn : x ∉ n) : x ∉ nid n := by
  rw [nid, List.mem_append]
  exact not_or.2 ⟨hx, hn⟩

/-- An arrow tells its ends, as no name has a `>` in it. -/
theorem arrowLine_injOn {e e' : Edge} (ha : IsName e.1) (hb : IsName e.2)
    (h : arrowLine e = arrowLine e') : e = e' := by
  obtain ⟨a, b⟩ := e
  obtain ⟨a', b'⟩ := e'
  have hsplit : ∀ a b : Text, arrowLine (a, b) =
      ("    ".toList ++ nid a ++ " --".toList) ++ '>' :: (" ".toList ++ nid b) := by
    intro a b
    have harrow : " --> ".toList = " --".toList ++ '>' :: " ".toList := by decide
    simp only [arrowLine_eq, harrow, List.append_assoc, List.cons_append]
  have hgt : ∀ {n : Text}, IsName n → '>' ∉ nid n := fun hn ↦
    notMem_nid (by decide) (hn.notMem (by decide))
  have hleft : '>' ∉ "    ".toList ++ nid a ++ " --".toList := by
    rw [List.mem_append, List.mem_append]
    exact not_or.2 ⟨not_or.2 ⟨by decide, hgt ha⟩, by decide⟩
  have hright : '>' ∉ " ".toList ++ nid b := by
    rw [List.mem_append]
    exact not_or.2 ⟨by decide, hgt hb⟩
  rw [hsplit, hsplit] at h
  obtain ⟨hnid, -, hnid'⟩ := (List.append_cons_inj_of_notMem hleft hright).1 h
  rw [List.append_left_inj, List.append_right_inj] at hnid
  rw [List.append_right_inj] at hnid'
  rw [nid_injective hnid, nid_injective hnid']

/-- No node is declared by the line of an arrow, as no name has a quote in it. -/
theorem nodeLine_ne_arrowLine (n : Text) {e : Edge} (ha : IsName e.1) (hb : IsName e.2) :
    nodeLine n ≠ arrowLine e := by
  have hquote : ∀ {n : Text}, IsName n → '"' ∉ nid n := fun hn ↦
    notMem_nid (by decide) (hn.notMem (by decide))
  have hnode : '"' ∈ nodeLine n := by
    rw [nodeLine_eq]
    exact List.mem_append_right _ (by decide)
  have harrow : '"' ∉ arrowLine e := by
    rw [arrowLine_eq, List.mem_append, List.mem_append, List.mem_append]
    exact not_or.2 ⟨not_or.2 ⟨not_or.2 ⟨by decide, hquote ha⟩, by decide⟩, hquote hb⟩
  exact fun h ↦ harrow (h ▸ hnode)

/-- The lines before the nodes begin otherwise. -/
theorem head?_of_mem_headLines {direction : Direction} {title line : Text}
    (h : line ∈ headLines direction title) : line.head? ≠ some ' ' := by
  have hcomment : ∀ t, (commentLine t).head? = some '%' := fun _ ↦ rfl
  have hflow : ("flowchart ".toList ++ direction.text).head? = some 'f' := rfl
  rw [headLines] at h
  simp only [List.mem_cons, List.not_mem_nil, or_false] at h
  rcases h with rfl | rfl | rfl
  · rw [hcomment]
    decide
  · rw [hcomment]
    decide
  · rw [hflow]
    decide

theorem count_nodeLine {edges : List Edge} (hname : ∀ e ∈ edges, IsName e.1 ∧ IsName e.2)
    (direction : Direction) (title n : Text) :
    (emitMermaid edges direction title).count (nodeLine n) =
      if n ∈ nodes edges then 1 else 0 := by
  have hhead : (headLines direction title).count (nodeLine n) = 0 := by
    exact List.count_eq_zero.2 fun h ↦ head?_of_mem_headLines h rfl
  have harrows : (edges.map arrowLine).count (nodeLine n) = 0 := by
    refine List.count_eq_zero.2 fun h ↦ ?_
    obtain ⟨e, he, heq⟩ := List.mem_map.1 h
    exact nodeLine_ne_arrowLine n (hname e he).1 (hname e he).2 heq.symm
  rw [emitMermaid, List.count_append, List.count_append, hhead, harrows,
    List.count_map_of_injective _ _ nodeLine_injective, Nat.zero_add, Nat.add_zero]
  exact (nodup_nodes edges).count

theorem count_arrowLine {edges : List Edge} (hname : ∀ e ∈ edges, IsName e.1 ∧ IsName e.2)
    (hnodup : edges.Nodup) (direction : Direction) (title : Text) {e : Edge} (he : e ∈ edges) :
    (emitMermaid edges direction title).count (arrowLine e) = 1 := by
  have hhead : (headLines direction title).count (arrowLine e) = 0 := by
    exact List.count_eq_zero.2 fun h ↦ head?_of_mem_headLines h rfl
  have hnodes : ((nodes edges).map nodeLine).count (arrowLine e) = 0 := by
    refine List.count_eq_zero.2 fun h ↦ ?_
    obtain ⟨n, -, heq⟩ := List.mem_map.1 h
    exact nodeLine_ne_arrowLine n (hname e he).1 (hname e he).2 heq
  have harrows : (edges.map arrowLine).Nodup := by
    refine (List.nodup_map_iff_inj_on hnodup).2 fun x hx y hy heq ↦ ?_
    exact arrowLine_injOn (hname x hx).1 (hname x hx).2 heq
  rw [emitMermaid, List.count_append, List.count_append, hhead, hnodes, Nat.zero_add,
    harrows.count, if_pos (List.mem_map.2 ⟨e, he, rfl⟩)]

/-! ### Complete diagrams -/

/-- **A complete diagram** of the rules within `depth` steps of the root. -/
structure Complete (rules : Rules) (root : Text) (depth : ℕ) (lines : List Text) : Prop where
  /-- A rule within the depth is declared exactly once. -/
  node_once : ∀ n ∈ rules.names, rules.distance root n ≤ depth → lines.count (nodeLine n) = 1
  /-- No other rule is declared. -/
  node_only : ∀ n ∈ rules.names, ¬ rules.distance root n ≤ depth → nodeLine n ∉ lines
  /-- A reference from a rule at a smaller distance is drawn exactly once. -/
  arrow_once : ∀ a b, rules.distance root a < depth → b ∈ rules.refs a →
    lines.count (arrowLine (a, b)) = 1
  /-- No two rules share an id. -/
  nid_inj : ∀ a ∈ rules.names, ∀ b ∈ rules.names, nid a = nid b → a = b

/-- The printed sub-graph is complete: the search returns edges, whatever fuel from the number of
rules on it has, and their diagram is complete. -/
def DiagramComplete (rules : Rules) (root : Text) (depth : ℕ) (direction : Direction)
    (title : Text) : Prop :=
  ∃ edges, (∀ fuel, rules.names.length ≤ fuel →
      reachable fuel rules.toRuleMap root depth = .ok edges) ∧
    Complete rules root depth (emitMermaid edges direction title)

section Diagram

variable {rules : Rules} {root : Text} {depth : ℕ} {edges : List Edge}

theorem mem_names_of_distance {n : Text} (hroot : root ∈ rules.names)
    (h : rules.distance root n ≤ depth) : n ∈ rules.names := by
  obtain ⟨k, -, hwalk⟩ := BreadthFirst.edist_le_iff.1 h
  exact rules.mem_names_of_walk hroot hwalk

/-- The ends of the edges are the rules within the depth, if the root has an edge. -/
theorem mem_nodes_iff (hedges : ∀ a b, (a, b) ∈ edges ↔
      rules.distance root a < depth ∧ b ∈ rules.refs a)
    (hdepth : 1 ≤ depth) (hrefs : rules.refs root ≠ []) {n : Text} :
    n ∈ nodes edges ↔ rules.distance root n ≤ depth := by
  rw [mem_nodes]
  constructor
  · rintro ⟨⟨a, b⟩, he, hn⟩
    obtain ⟨ha, hb⟩ := (hedges a b).1 he
    obtain ⟨k, hk, hwalk⟩ := BreadthFirst.edist_lt_iff.1 ha
    rcases hn with rfl | rfl
    · exact ha.le
    · exact BreadthFirst.edist_le_iff.2 ⟨k + 1, hk, hwalk.snoc hb⟩
  · intro hn
    obtain ⟨k, hk, hwalk⟩ := BreadthFirst.edist_le_iff.1 hn
    rcases k with _ | k
    · -- the root is the start of its own edges
      obtain rfl := hwalk.eq_of_zero
      obtain ⟨b, hb⟩ := List.exists_mem_of_ne_nil _ hrefs
      have hzero : rules.distance root root < depth :=
        BreadthFirst.edist_lt_iff.2 ⟨0, hdepth, hwalk⟩
      exact ⟨(root, b), (hedges root b).2 ⟨hzero, hb⟩, Or.inl rfl⟩
    · -- another rule is the end of the last edge of a walk
      obtain ⟨a, ha, hna⟩ := hwalk.exists_last
      have hlt : rules.distance root a < depth := BreadthFirst.edist_lt_iff.2 ⟨k, hk, ha⟩
      exact ⟨(a, n), (hedges a n).2 ⟨hlt, hna⟩, Or.inr rfl⟩

/-- No edge at all, if the depth is zero or the root has no references. -/
theorem edges_eq_nil (hedges : ∀ a b, (a, b) ∈ edges ↔
      rules.distance root a < depth ∧ b ∈ rules.refs a)
    (h : depth = 0 ∨ rules.refs root = []) : edges = [] := by
  refine List.eq_nil_iff_forall_not_mem.2 fun ⟨a, b⟩ he ↦ ?_
  obtain ⟨ha, hb⟩ := (hedges a b).1 he
  obtain ⟨k, hk, hwalk⟩ := BreadthFirst.edist_lt_iff.1 ha
  rcases h with rfl | hrefs
  · exact absurd hk (Nat.not_lt_zero k)
  · rw [hwalk.eq_of_next_eq_nil hrefs, hrefs] at hb
    exact absurd hb List.not_mem_nil

theorem isName_of_mem_edges (hroot : root ∈ rules.names) (hedges : ∀ a b, (a, b) ∈ edges ↔
      rules.distance root a < depth ∧ b ∈ rules.refs a) :
    ∀ e ∈ edges, IsName e.1 ∧ IsName e.2 := by
  rintro ⟨a, b⟩ he
  obtain ⟨ha, hb⟩ := (hedges a b).1 he
  exact ⟨rules.isName a (mem_names_of_distance hroot ha.le),
    rules.isName b (rules.mem_names_of_mem_refs hb)⟩

theorem complete_of (hroot : root ∈ rules.names) (hnodup : edges.Nodup)
    (hedges : ∀ a b, (a, b) ∈ edges ↔ rules.distance root a < depth ∧ b ∈ rules.refs a)
    (hdepth : 1 ≤ depth) (hrefs : rules.refs root ≠ []) (direction : Direction) (title : Text) :
    Complete rules root depth (emitMermaid edges direction title) := by
  have hname := isName_of_mem_edges hroot hedges
  refine ⟨?_, ?_, ?_, fun a _ b _ h ↦ nid_injective h⟩
  · intro n _ hn
    rw [count_nodeLine hname, if_pos ((mem_nodes_iff hedges hdepth hrefs).2 hn)]
  · intro n _ hn
    rw [← List.count_eq_zero, count_nodeLine hname,
      if_neg fun h ↦ hn ((mem_nodes_iff hedges hdepth hrefs).1 h)]
  · intro a b ha hb
    exact count_arrowLine hname hnodup direction title ((hedges a b).2 ⟨ha, hb⟩)

/-- A diagram without edges does not declare its root. -/
theorem not_complete_nil (hroot : root ∈ rules.names) (direction : Direction) (title : Text) :
    ¬ Complete rules root depth (emitMermaid [] direction title) := by
  intro h
  have hzero : rules.distance root root ≤ depth := by
    rw [RuleMap.distance, BreadthFirst.edist_self]
    exact zero_le
  have hcount := h.node_once root hroot hzero
  rw [count_nodeLine (fun e he ↦ absurd he List.not_mem_nil),
    if_neg (show root ∉ nodes [] from List.not_mem_nil)] at hcount
  exact absurd hcount (Nat.zero_ne_one)

/-- A root without edges of its own leaves an incomplete diagram. -/
theorem not_diagramComplete (hroot : root ∈ rules.names)
    (h : depth = 0 ∨ rules.refs root = []) (direction : Direction) (title : Text) :
    ¬ DiagramComplete rules root depth direction title := by
  rintro ⟨edges, hrun, hcomplete⟩
  obtain ⟨edges', hrun', -, hedges⟩ := reachable_spec hroot (depth : ℤ)
  obtain rfl : edges = edges' :=
    Except.ok.inj ((hrun _ (Nat.le_refl _)).symm.trans (hrun' _ (Nat.le_refl _)))
  obtain rfl := edges_eq_nil hedges h
  exact not_complete_nil hroot direction title hcomplete

end Diagram

/-- **When the printed sub-graph is complete**: exactly if the depth is not zero and the root has
references. -/
theorem diagramComplete_iff (rules : Rules) (root : Text) (hroot : root ∈ rules.names) (depth : ℕ)
    (direction : Direction) (title : Text) :
    DiagramComplete rules root depth direction title ↔ 1 ≤ depth ∧ rules.refs root ≠ [] := by
  constructor
  · intro h
    by_contra hno
    refine not_diagramComplete hroot ?_ direction title h
    by_cases hdepth : depth = 0
    · exact Or.inl hdepth
    · exact Or.inr (not_not.1 fun hrefs ↦ hno ⟨Nat.one_le_iff_ne_zero.2 hdepth, hrefs⟩)
  · rintro ⟨hdepth, hrefs⟩
    obtain ⟨edges, hrun, hnodup, hedges⟩ := reachable_spec hroot (depth : ℤ)
    exact ⟨edges, hrun, complete_of hroot hnodup hedges hdepth hrefs direction title⟩

/-- A map of one rule, which may refer to itself. -/
def loneRule (n : Text) (hn : IsName n) (refs : List Text) (hnodup : refs.Nodup)
    (hrefs : ∀ r ∈ refs, r = n) : Rules where
  map := .single n refs
  isName := fun m hm ↦ (List.mem_singleton.1 hm) ▸ hn
  nodup_refs := by
    intro m l h
    obtain ⟨rfl, rfl⟩ := Prod.mk.inj (List.mem_singleton.1 (Dict.get?_eq_some_iff.1 h))
    exact hnodup
  refs_mem := by
    intro m l h r hr
    obtain ⟨rfl, rfl⟩ := Prod.mk.inj (List.mem_singleton.1 (Dict.get?_eq_some_iff.1 h))
    exact List.mem_singleton.2 (hrefs r hr)

theorem diagramComplete_iff_of_self_reference :
    DiagramComplete (loneRule ['a'] (by decide) [['a']] (by decide) (by decide)) ['a'] 1 .LR [] :=
  (diagramComplete_iff _ _ (by decide) _ _ _).2 ⟨by decide, by decide⟩

/-- The diagram of a rule without references is empty, to whatever depth it is drawn. -/
theorem not_diagramComplete_of_sink :
    ¬ DiagramComplete (loneRule ['a'] (by decide) [] (by decide) (by decide)) ['a'] 2 .LR [] :=
  not_diagramComplete (by decide) (Or.inr (by decide)) .LR []

end FirebirdSamples.Grammar
