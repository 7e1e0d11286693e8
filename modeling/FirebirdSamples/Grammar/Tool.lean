import FirebirdSamples.Grammar.Depths
import FirebirdSamples.Grammar.Normal
import FirebirdSamples.Grammar.SubGraph
import FirebirdSamples.Library.TextLines

/-!
# The tool from end to end

`main` reads a grammar file and prints a diagram of its rule graph, all of it or what is around a
root, or else figures about it.

A diagram is read back line by line (`drawn`): a line declares an id with a label or draws an arrow
between two ids, and an id stands for the label it was declared with. What is read from the printed
text is the rule graph that the parser has made of the file (`drawn_main`): no line of the heading
counts as part of the diagram, no two rules fall together, and the end of each arrow is declared.
-/

namespace FirebirdSamples.Grammar

open TextLines (splitLines splitLines_flatMap)

/-! ### `main` -/

/-- The options. -/
structure Args where
  root : Text := "statement".toList
  depth : ℤ := 2
  full : Bool := false
  direction : Direction := .LR
  stats : Bool := false

/-- `len(rules[r])`. -/
def refCount (rules : Dict Text (List Text)) (r : Text) : ℕ :=
  ((rules.get? r).getD []).length

/-- `sorted(rules, key=lambda r: len(rules[r]), reverse=True)[:10]`. The sort is stable, also in
reverse. -/
def top (rules : Dict Text (List Text)) : List Text :=
  (rules.keys.insertionSort fun r r' ↦ refCount rules r' ≤ refCount rules r).take 10

/-- The line of a rule among those with the most references, `{r:<28}`. -/
def topLine (rules : Dict Text (List Text)) (r : Text) : Text :=
  "    ".toList ++ r.rightpad 28 ' ' ++ " -> ".toList ++ Nat.toDigits 10 (refCount rules r) ++
    " refs".toList

/-- The lines of the figures. -/
def statsLines (rules : Dict Text (List Text)) (tokens : Finset Text) : List Text :=
  ["nonterminal rules : ".toList ++ Nat.toDigits 10 rules.keys.length,
    "terminal tokens   : ".toList ++ Nat.toDigits 10 tokens.card,
    "rule-graph edges  : ".toList ++ Nat.toDigits 10 (allEdges rules).length,
    "most-referencing rules:".toList] ++ (top rules).map (topLine rules)

/-- `str` of an integer. -/
def intText : ℤ → Text
  | .ofNat n => Nat.toDigits 10 n
  | .negSucc n => '-' :: Nat.toDigits 10 (n + 1)

/-- The title of the diagram of all rules. -/
def fullTitle (rules : Dict Text (List Text)) : Text :=
  "Firebird SQL grammar — full rule graph (".toList ++ Nat.toDigits 10 rules.keys.length ++
    " rules)".toList

/-- The title of the diagram around a root. -/
def rootTitle (args : Args) : Text :=
  "Firebird SQL grammar — '".toList ++ args.root ++ "' to depth ".toList ++ intText args.depth

theorem fullTitle_eq (rules : Dict Text (List Text)) :
    fullTitle rules = "Firebird SQL grammar — full rule graph (".toList ++
      Nat.toDigits 10 rules.keys.length ++ " rules)".toList := rfl

theorem rootTitle_eq (args : Args) :
    rootTitle args = "Firebird SQL grammar — '".toList ++ args.root ++ "' to depth ".toList ++
      intText args.depth := rfl

/-- What `print` makes of lines. -/
def printed (lines : List Text) : Text :=
  lines.flatMap (· ++ ['\n'])

/-- `main()`, on the text of the file: what is printed. -/
def main (fuel : ℕ) (args : Args) (src : Text) : Except Stop Text :=
  let rules := parsed src
  if args.stats then
    .ok (printed (statsLines rules.map (parseTokens src)))
  else if args.full then
    .ok (printed (emitMermaid (allEdges rules.map) args.direction (fullTitle rules.map)))
  else
    (reachable fuel rules.toRuleMap args.root args.depth).map fun edges ↦
      printed (emitMermaid edges args.direction (rootTitle args))

/-! ### Reading a diagram -/

/-- What a line of a flowchart says. -/
inductive Statement where
  /-- A node with its label. -/
  | node (id label : Text)
  /-- An arrow. -/
  | arrow (source target : Text)

/-- A comment says nothing, and neither does the line with the direction. -/
def readStatement (line : Text) : Option Statement :=
  if "%%".toList.isPrefixOf line then
    none
  else
    let body := line.dropWhile fun x ↦ decide (x = ' ')
    match cut "[\"".toList body with
    | some (id, rest) => (cut "\"]".toList rest).map fun p ↦ .node id p.1
    | none => (cut " --> ".toList body).map fun p ↦ .arrow p.1 p.2

/-- The lines of a flowchart that say something. -/
def readStatements (text : Text) : List Statement :=
  (splitLines text).filterMap readStatement

/-- The nodes declared, with their labels. -/
def nodesOf (ss : List Statement) : List (Text × Text) :=
  ss.filterMap fun
    | .node id label => some (id, label)
    | .arrow _ _ => none

/-- The arrows drawn, between ids. -/
def arrowsOf (ss : List Statement) : List (Text × Text) :=
  ss.filterMap fun
    | .node _ _ => none
    | .arrow source target => some (source, target)

/-- What is shown for an id. -/
def shown (ss : List Statement) (id : Text) : Option Text :=
  ((nodesOf ss).find? fun p ↦ decide (p.1 = id)).map Prod.snd

/-- **The graph that a text draws**: its arrows between labels. An arrow of which an end has not
been declared counts for nothing. -/
def drawn (text : Text) : List Edge :=
  let ss := readStatements text
  (arrowsOf ss).filterMap fun p ↦
    (shown ss p.1).bind fun a ↦ (shown ss p.2).map fun b ↦ (a, b)

/-- The labels that a text declares. -/
def declared (text : Text) : List Text :=
  (nodesOf (readStatements text)).map Prod.snd

/-! ### The lines read back -/

/-- A cut at what begins with a character that the text in front does not have. -/
theorem cut_of_notMem {x : Char} {s : Text} (hx : x ∉ s) (sep t : Text) :
    cut (x :: sep) (s ++ (x :: sep ++ t)) = some (s, t) := by
  rw [cut_append_of_none, cut_of_prefix (List.cons_ne_nil x sep)]
  · simp
  · intro u hu hsuffix hpre
    obtain ⟨y, u, rfl⟩ := List.exists_cons_of_ne_nil hu
    obtain rfl := (List.cons_prefix_cons.1 hpre).1
    exact hx (hsuffix.subset List.mem_cons_self)

/-- No part of a text without its first character. -/
theorem cut_eq_none_of_notMem {x : Char} {s : Text} (hx : x ∉ s) (sep : Text) :
    cut (x :: sep) s = none :=
  (cut_eq_none_iff (List.cons_ne_nil x sep)).2 fun h ↦ hx (h.subset List.mem_cons_self)

/-- The blanks in front of an id. -/
theorem dropWhile_nid (n rest : Text) :
    ("    ".toList ++ nid n ++ rest).dropWhile (fun x ↦ decide (x = ' ')) = nid n ++ rest := by
  have hstop : (nid n ++ rest).dropWhile (fun x ↦ decide (x = ' ')) = nid n ++ rest := rfl
  rw [List.append_assoc, List.dropWhile_append_of_pos (by decide), hstop]

theorem readStatement_nodeLine {n : Text} (hn : IsName n) :
    readStatement (nodeLine n) = some (.node (nid n) n) := by
  have hid : '[' ∉ nid n := notMem_nid (by decide) (hn.notMem (by decide))
  have hlabel : '"' ∉ n := hn.notMem (by decide)
  have hcut : cut "[\"".toList (nid n ++ ("[\"".toList ++ (n ++ ("\"]".toList ++ [])))) =
      some (nid n, n ++ ("\"]".toList ++ [])) := cut_of_notMem hid _ _
  have hend : cut "\"]".toList (n ++ ("\"]".toList ++ [])) = some (n, []) :=
    cut_of_notMem hlabel _ _
  have hline : nodeLine n =
      "    ".toList ++ nid n ++ ("[\"".toList ++ (n ++ ("\"]".toList ++ []))) := by
    rw [nodeLine_eq]
    simp only [List.append_assoc, List.append_nil]
  have hcomment : "%%".toList.isPrefixOf (nodeLine n) = false := rfl
  rw [readStatement, hcomment, hline, dropWhile_nid]
  dsimp only
  rw [hcut]
  dsimp only
  rw [hend]
  rfl

theorem readStatement_arrowLine {e : Edge} (ha : IsName e.1) (hb : IsName e.2) :
    readStatement (arrowLine e) = some (.arrow (nid e.1) (nid e.2)) := by
  have hquote : ∀ {n : Text}, IsName n → '[' ∉ nid n := fun hn ↦
    notMem_nid (by decide) (hn.notMem (by decide))
  have hblank : ' ' ∉ nid e.1 := notMem_nid (by decide) (ha.notMem (by decide))
  have hnode : cut "[\"".toList (nid e.1 ++ (" --> ".toList ++ nid e.2)) = none := by
    refine cut_eq_none_of_notMem ?_ _
    rw [List.mem_append, List.mem_append]
    exact not_or.2 ⟨hquote ha, not_or.2 ⟨by decide, hquote hb⟩⟩
  have hcut : cut " --> ".toList (nid e.1 ++ (" --> ".toList ++ nid e.2)) =
      some (nid e.1, nid e.2) := cut_of_notMem hblank _ _
  have hcomment : "%%".toList.isPrefixOf (arrowLine e) = false := rfl
  rw [readStatement, hcomment, arrowLine_eq, List.append_assoc, dropWhile_nid]
  dsimp only
  rw [hnode]
  dsimp only
  rw [hcut]
  rfl

/-- The heading says nothing. -/
theorem readStatement_of_mem_headLines {direction : Direction} {title line : Text}
    (h : line ∈ headLines direction title) : readStatement line = none := by
  have hcomment : ∀ t, readStatement (commentLine t) = none := fun _ ↦ rfl
  have hflow : readStatement ("flowchart ".toList ++ direction.text) = none := by
    rcases direction <;> decide
  rw [headLines] at h
  simp only [List.mem_cons, List.not_mem_nil, or_false] at h
  rcases h with rfl | rfl | rfl
  · exact hcomment _
  · exact hcomment _
  · exact hflow

/-! ### The diagram read back -/

/-- What the nodes and the arrows of a diagram say. -/
def statementsOf (edges : List Edge) : List Statement :=
  ((nodes edges).map fun n ↦ .node (nid n) n) ++ edges.map fun e ↦ .arrow (nid e.1) (nid e.2)

section Diagram

variable {edges : List Edge} (hname : ∀ e ∈ edges, IsName e.1 ∧ IsName e.2)
include hname

theorem isName_of_mem_nodes {n : Text} (h : n ∈ nodes edges) : IsName n := by
  obtain ⟨e, he, hn⟩ := mem_nodes.1 h
  rcases hn with rfl | rfl
  · exact (hname e he).1
  · exact (hname e he).2

/-- No line of a diagram has a line end in it. -/
theorem notMem_emitMermaid (direction : Direction) {title : Text} (htitle : '\n' ∉ title) :
    ∀ line ∈ emitMermaid edges direction title, '\n' ∉ line := by
  have hid : ∀ {n : Text}, IsName n → '\n' ∉ nid n := fun hn ↦
    notMem_nid (by decide) (hn.notMem (by decide))
  intro line hline
  rw [emitMermaid, List.mem_append, List.mem_append] at hline
  rcases hline with (hline | hline) | hline
  · rw [headLines] at hline
    simp only [List.mem_cons, List.not_mem_nil, or_false] at hline
    rcases hline with rfl | rfl | rfl
    · rw [commentLine, List.mem_append]
      exact not_or.2 ⟨by decide, htitle⟩
    · decide
    · rcases direction <;> decide
  · obtain ⟨n, hn, rfl⟩ := List.mem_map.1 hline
    have hn := isName_of_mem_nodes hname hn
    rw [nodeLine_eq]
    simp only [List.mem_append, not_or]
    exact ⟨⟨⟨⟨by decide, hid hn⟩, by decide⟩, hn.notMem (by decide)⟩, by decide⟩
  · obtain ⟨e, he, rfl⟩ := List.mem_map.1 hline
    rw [arrowLine_eq]
    simp only [List.mem_append, not_or]
    exact ⟨⟨⟨by decide, hid (hname e he).1⟩, by decide⟩, hid (hname e he).2⟩

theorem readStatements_emitMermaid (direction : Direction) {title : Text} (htitle : '\n' ∉ title) :
    readStatements (printed (emitMermaid edges direction title)) = statementsOf edges := by
  have hhead : (headLines direction title).filterMap readStatement = [] :=
    List.filterMap_eq_nil_iff.2 fun _ ↦ readStatement_of_mem_headLines
  have hnodes : ((nodes edges).map nodeLine).filterMap readStatement =
      (nodes edges).map fun n ↦ .node (nid n) n := by
    rw [List.filterMap_map, ← List.filterMap_eq_map]
    exact List.filterMap_congr fun n hn ↦ readStatement_nodeLine (isName_of_mem_nodes hname hn)
  have harrows : (edges.map arrowLine).filterMap readStatement =
      edges.map fun e ↦ .arrow (nid e.1) (nid e.2) := by
    rw [List.filterMap_map, ← List.filterMap_eq_map]
    exact List.filterMap_congr fun e he ↦ readStatement_arrowLine (hname e he).1 (hname e he).2
  have hempty : [([] : Text)].filterMap readStatement = [] := by decide
  rw [readStatements, printed, splitLines_flatMap (notMem_emitMermaid hname direction htitle),
    emitMermaid, List.filterMap_append, List.filterMap_append, List.filterMap_append, hhead,
    hnodes, harrows, hempty, List.nil_append, List.append_nil, statementsOf]

end Diagram

theorem nodesOf_statementsOf (edges : List Edge) :
    nodesOf (statementsOf edges) = (nodes edges).map fun n ↦ (nid n, n) := by
  rw [nodesOf, statementsOf, List.filterMap_append, List.filterMap_map, List.filterMap_map,
    ← List.filterMap_eq_map]
  exact (congrArg _ (List.filterMap_eq_nil_iff.2 fun _ _ ↦ rfl)).trans (List.append_nil _)

theorem arrowsOf_statementsOf (edges : List Edge) :
    arrowsOf (statementsOf edges) = edges.map fun e ↦ (nid e.1, nid e.2) := by
  rw [arrowsOf, statementsOf, List.filterMap_append, List.filterMap_map, List.filterMap_map,
    ← List.filterMap_eq_map]
  exact congrArg (· ++ _) (List.filterMap_eq_nil_iff.2 fun _ _ ↦ rfl)

/-- An id stands for the rule it was made of. -/
theorem find?_nid {l : List Text} {n : Text} (h : n ∈ l) :
    (l.map fun m ↦ (nid m, m)).find? (fun p ↦ decide (p.1 = nid n)) = some (nid n, n) := by
  induction l with
  | nil => exact absurd h List.not_mem_nil
  | cons m l ih =>
    rw [List.map_cons, List.find?_cons]
    by_cases hm : m = n
    · rw [hm, decide_eq_true rfl]
    · rw [decide_eq_false fun heq ↦ hm (nid_injective heq)]
      exact ih ((List.mem_cons.1 h).resolve_left (Ne.symm hm))

theorem shown_nid {edges : List Edge} {n : Text} (h : n ∈ nodes edges) :
    shown (statementsOf edges) (nid n) = some n := by
  rw [shown, nodesOf_statementsOf, find?_nid h]
  rfl

/-- **A diagram draws the edges it was printed from**, in their order. -/
theorem drawn_emitMermaid {edges : List Edge} (hname : ∀ e ∈ edges, IsName e.1 ∧ IsName e.2)
    (direction : Direction) {title : Text} (htitle : '\n' ∉ title) :
    drawn (printed (emitMermaid edges direction title)) = edges := by
  rw [drawn, readStatements_emitMermaid hname direction htitle, arrowsOf_statementsOf,
    List.filterMap_map]
  refine (List.filterMap_congr fun e he ↦ ?_).trans List.filterMap_some
  show (shown (statementsOf edges) (nid e.1)).bind _ = some e
  rw [shown_nid (mem_nodes.2 ⟨e, he, Or.inl rfl⟩), Option.bind_some,
    shown_nid (mem_nodes.2 ⟨e, he, Or.inr rfl⟩)]
  rfl

theorem declared_emitMermaid {edges : List Edge} (hname : ∀ e ∈ edges, IsName e.1 ∧ IsName e.2)
    (direction : Direction) {title : Text} (htitle : '\n' ∉ title) :
    declared (printed (emitMermaid edges direction title)) = nodes edges := by
  rw [declared, readStatements_emitMermaid hname direction htitle, nodesOf_statementsOf,
    List.map_map]
  exact List.map_id _

/-! ### The tool -/

theorem notMem_toDigits (n : ℕ) : '\n' ∉ Nat.toDigits 10 n := by
  intro h
  have hdigit := Nat.isDigit_of_mem_toDigits (by decide) (by decide) h
  exact absurd hdigit (by decide)

theorem notMem_intText (d : ℤ) : '\n' ∉ intText d := by
  rcases d with n | n
  · exact notMem_toDigits n
  · rw [intText, List.mem_cons]
    exact not_or.2 ⟨by decide, notMem_toDigits _⟩

theorem notMem_fullTitle (rules : Dict Text (List Text)) : '\n' ∉ fullTitle rules := by
  rw [fullTitle_eq, List.mem_append, List.mem_append]
  exact not_or.2 ⟨not_or.2 ⟨by decide, notMem_toDigits _⟩, by decide⟩

theorem notMem_rootTitle {args : Args} (hroot : IsName args.root) : '\n' ∉ rootTitle args := by
  simp only [rootTitle_eq, List.mem_append, not_or]
  exact ⟨⟨⟨by decide, hroot.notMem (by decide)⟩, by decide⟩, notMem_intText _⟩

/-- **A text draws edges**: it has their arrows in order, and it declares the ends of the arrows and
nothing else, each once. -/
structure Draws (text : Text) (edges : List Edge) : Prop where
  drawn : drawn text = edges
  nodup_declared : (declared text).Nodup
  mem_declared : ∀ n, n ∈ declared text ↔ ∃ e ∈ edges, n = e.1 ∨ n = e.2

theorem draws_emitMermaid {edges : List Edge} (hname : ∀ e ∈ edges, IsName e.1 ∧ IsName e.2)
    (direction : Direction) {title : Text} (htitle : '\n' ∉ title) :
    Draws (printed (emitMermaid edges direction title)) edges := by
  have hdeclared := declared_emitMermaid hname direction htitle
  refine ⟨drawn_emitMermaid hname direction htitle, ?_, fun n ↦ ?_⟩
  · rw [hdeclared]
    exact nodup_nodes edges
  · rw [hdeclared]
    exact mem_nodes

/-- The ends of all edges are rules. -/
theorem Rules.isName_of_mem_allEdges (rules : Rules) :
    ∀ e ∈ allEdges rules.map, IsName e.1 ∧ IsName e.2 := by
  intro e he
  have hrefs := RuleMap.mem_allEdges.1 he
  exact ⟨rules.isName _ (rules.mem_names_of_mem_refs_of hrefs),
    rules.isName _ (rules.mem_names_of_mem_refs hrefs)⟩

/-- **What the tool draws is what the parser has read.** Without figures asked for, the text printed
draws the rule graph of the file, all of it or the part within the depth around the root; a root
that is no rule is an error. -/
theorem drawn_main (fuel : ℕ) (args : Args) (src : Text) (hstats : args.stats = false)
    (hfuel : (parsed src).names.length ≤ fuel) :
    (args.full = true → ∃ text, main fuel args src = .ok text ∧
      Draws text (allEdges (parseRules src))) ∧
    (args.full = false → args.root ∈ (parsed src).names → ∃ text edges,
      main fuel args src = .ok text ∧ Draws text edges ∧ edges.Nodup ∧
      ∀ a b, (a, b) ∈ edges ↔
        (parsed src).distance args.root a < args.depth.toNat ∧ b ∈ (parsed src).refs a) ∧
    (args.full = false → args.root ∉ (parsed src).names → ∃ message,
      main fuel args src = .error (.exit message)) := by
  have hmain : main fuel args src = if args.full = true then
      .ok (printed (emitMermaid (allEdges (parsed src).map) args.direction
        (fullTitle (parsed src).map)))
      else (reachable fuel (parsed src).toRuleMap args.root args.depth).map fun edges ↦
        printed (emitMermaid edges args.direction (rootTitle args)) := by
    rw [main, hstats]
    rfl
  refine ⟨fun hfull ↦ ?_, fun hfull hroot ↦ ?_, fun hfull hroot ↦ ?_⟩
  · rw [hmain, if_pos hfull]
    refine ⟨_, rfl, ?_⟩
    rw [← parsed_map]
    exact draws_emitMermaid (parsed src).isName_of_mem_allEdges _ (notMem_fullTitle _)
  · obtain ⟨edges, hrun, hnodup, hedges⟩ := reachable_spec hroot args.depth
    have htitle := notMem_rootTitle ((parsed src).isName _ hroot)
    rw [hmain, if_neg (Bool.eq_false_iff.1 hfull), hrun fuel hfuel]
    refine ⟨_, edges, rfl, ?_, hnodup, hedges⟩
    exact draws_emitMermaid (isName_of_mem_edges hroot hedges) _ htitle
  · rw [hmain, if_neg (Bool.eq_false_iff.1 hfull), reachable, if_neg hroot]
    exact ⟨_, rfl⟩

/-- A rule that refers to another one, drawn from itself. -/
theorem drawn_main_two_rules : ∃ text edges,
    main 2 { root := ['a'] } "\n%%\na\n\t: b { c; }\n\t;\nb\n: ;\n%%\n".toList = .ok text ∧
      Draws text edges ∧ edges.Nodup := by
  obtain ⟨-, hroot, -⟩ := drawn_main 2 { root := ['a'] }
    "\n%%\na\n\t: b { c; }\n\t;\nb\n: ;\n%%\n".toList rfl (by decide +kernel)
  obtain ⟨text, edges, hmain, hdraws, hnodup, -⟩ := hroot rfl (by decide +kernel)
  exact ⟨text, edges, hmain, hdraws, hnodup⟩

/-! ### The figures -/

section Sorting

variable {α : Type*} (f : α → ℕ)

/-- A sort by a number, the greatest first, leaves the order among those of one number. -/
theorem filter_insertionSort (l : List α) (k : ℕ) :
    (l.insertionSort fun a b ↦ f b ≤ f a).filter (fun a ↦ decide (f a = k)) =
      l.filter fun a ↦ decide (f a = k) := by
  have hequal : (l.filter fun a ↦ decide (f a = k)).Pairwise fun a b ↦ f b ≤ f a := by
    refine List.pairwise_of_forall_mem_list fun a ha b hb ↦ ?_
    rw [of_decide_eq_true (List.mem_filter.1 ha).2, of_decide_eq_true (List.mem_filter.1 hb).2]
  have hsub := (List.sublist_insertionSort (r := fun a b ↦ f b ≤ f a) hequal
    List.filter_sublist).filter fun a ↦ decide (f a = k)
  rw [List.filter_filter, List.filter_congr fun a _ ↦ Bool.and_self _] at hsub
  exact (hsub.eq_of_length
    ((List.perm_insertionSort _ l).filter fun a ↦ decide (f a = k)).length_eq.symm).symm

/-- `a` goes before `b`: its number is greater, or it is the same and `a` stands first. -/
def Before (l : List α) (a b : α) : Prop :=
  f b < f a ∨ f b = f a ∧ [a, b].Sublist l

/-- A sort by a number puts first what goes before. -/
theorem before_of_sublist {l : List α} {a b : α}
    (h : [a, b].Sublist (l.insertionSort fun a b ↦ f b ≤ f a)) : Before f l a b := by
  have hsorted := List.pairwise_insertionSort (fun a b ↦ f b ≤ f a) l
  have hle : f b ≤ f a := List.pairwise_iff_forall_sublist.1 hsorted h
  rcases Nat.lt_or_eq_of_le hle with hlt | heq
  · exact Or.inl hlt
  · refine Or.inr ⟨heq, ?_⟩
    have hfilter := h.filter fun x ↦ decide (f x = f a)
    rw [filter_insertionSort] at hfilter
    have hpair : [a, b].filter (fun x ↦ decide (f x = f a)) = [a, b] := by simp [heq]
    rw [hpair] at hfilter
    exact hfilter.trans List.filter_sublist

/-- What is left out goes behind. -/
theorem before_of_notMem_take {l : List α} {k : ℕ} {a b : α}
    (ha : a ∈ (l.insertionSort fun a b ↦ f b ≤ f a).take k) (hb : b ∈ l)
    (hout : b ∉ (l.insertionSort fun a b ↦ f b ≤ f a).take k) : Before f l a b := by
  have hsplit := List.take_append_drop k (l.insertionSort fun a b ↦ f b ≤ f a)
  have hmem := (List.mem_insertionSort fun a b ↦ f b ≤ f a).2 hb
  rw [← hsplit] at hmem
  have hdrop := (List.mem_append.1 hmem).resolve_left hout
  refine before_of_sublist f ?_
  rw [← hsplit]
  exact (List.singleton_sublist.2 ha).append (List.singleton_sublist.2 hdrop)

end Sorting

/-- **The rules with the most references.** They are as many as asked for, if there are so many, and
each of them goes before those behind it and before the rules left out. -/
structure Most (rules : RuleMap) (k : ℕ) (most : List Text) : Prop where
  length : most.length = min k rules.names.length
  nodup : most.Nodup
  mem_names : ∀ r ∈ most, r ∈ rules.names
  sorted : most.Pairwise (Before (fun r ↦ (rules.refs r).length) rules.names)
  left_out : ∀ r ∈ most, ∀ r' ∈ rules.names, r' ∉ most →
    Before (fun r ↦ (rules.refs r).length) rules.names r r'

theorem most_top (rules : RuleMap) : Most rules 10 (top rules.map) := by
  have hperm := List.perm_insertionSort
    (fun r r' ↦ refCount rules.map r' ≤ refCount rules.map r) rules.names
  refine ⟨?_, ?_, ?_, ?_, ?_⟩
  · rw [top, List.length_take]
    exact congrArg _ hperm.length_eq
  · exact (hperm.nodup_iff.2 rules.map.nodup_keys).sublist (List.take_sublist _ _)
  · intro r hr
    exact hperm.mem_iff.1 (List.mem_of_mem_take hr)
  · refine List.pairwise_iff_forall_sublist.2 fun h ↦ ?_
    exact before_of_sublist _ (h.trans (List.take_sublist _ _))
  · exact fun r hr r' hr' hout ↦ before_of_notMem_take _ hr hr' hout

/-- **The figures agree with the diagram**: the edges counted are those that the diagram of all
rules draws, and the rules listed are those with the most references, in order. -/
theorem stats_main (fuel : ℕ) (args : Args) (src : Text) (hstats : args.stats = true) :
    ∃ text most,
      main fuel { args with stats := false, full := true } src = .ok text ∧
      Most (parsed src).toRuleMap 10 most ∧
      main fuel args src = .ok (printed (
        ["nonterminal rules : ".toList ++ Nat.toDigits 10 (parsed src).names.length,
          "terminal tokens   : ".toList ++ Nat.toDigits 10 (parseTokens src).card,
          "rule-graph edges  : ".toList ++ Nat.toDigits 10 (drawn text).length,
          "most-referencing rules:".toList] ++
        most.map fun r ↦ "    ".toList ++ r.rightpad 28 ' ' ++ " -> ".toList ++
          Nat.toDigits 10 ((parsed src).refs r).length ++ " refs".toList)) := by
  refine ⟨_, top (parsed src).map, rfl, most_top _, ?_⟩
  have hdrawn := (draws_emitMermaid (parsed src).isName_of_mem_allEdges args.direction
    (notMem_fullTitle (parsed src).map)).drawn
  rw [hdrawn, main, hstats, if_pos rfl]
  rfl

theorem stats_main_two_rules : ∃ text most,
    main 0 { full := true } "\n%%\na\n\t: b { c; }\n\t;\nb\n: ;\n%%\n".toList = .ok text ∧
      Most (parsed "\n%%\na\n\t: b { c; }\n\t;\nb\n: ;\n%%\n".toList).toRuleMap 10 most := by
  obtain ⟨text, most, hfull, hmost, -⟩ := stats_main 0 { stats := true }
    "\n%%\na\n\t: b { c; }\n\t;\nb\n: ;\n%%\n".toList rfl
  exact ⟨text, most, hfull, hmost⟩

end FirebirdSamples.Grammar
