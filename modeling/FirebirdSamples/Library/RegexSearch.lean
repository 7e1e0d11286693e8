import FirebirdSamples.Library.Regex
import FirebirdSamples.Library.Words

/-!
# Searches that only look ahead

Most expressions look at nothing but the text in front of them. For such an expression a search is
known from one function, the text behind the preferred match (`Finds r find`): `Finds.sub_skip` and
`Finds.sub_found` unfold a substitution, `Finds.findall_skip` and `Finds.findall_found` a list of
matches, and `Finds.induction` is the induction along a search.

**What a search has settled.** A search in the beginning of a text may go differently once the rest
is there: an opening bracket that had no closing one may find it. A text is `Settled` if at every
place the search comes to, what is found does not depend on what follows the text. Then a
substitution in the text and what follows is the substitution in both (`Finds.sub_append`).

**Other results of a search.** A text split at the runs of a class has the words between them for
its pieces, and empty ones (`filter_split_run`). An expression may look at the beginning of a line
and capture a part of what it matches; the parts captured in a search are again known from one
function (`Captures.groups_finditer`).
-/

namespace Regex

/-- **A search that only looks ahead**: `find` is the text behind the preferred match. -/
structure Finds (r : Regex) (find : List Char → Option (List Char)) : Prop where
  /-- The preferred match ends where `find` says. -/
  head?_rest : ∀ b s, ((run r ⟨b, s, []⟩).head?).map Pos.rest = find s
  /-- No match is empty. -/
  exists_append : ∀ s u, find s = some u → ∃ m, m ≠ [] ∧ s = m ++ u

/-- The characters passed over and the texts matched. -/
def marks (r : Regex) (b : Bool) (s : List Char) : List (Char ⊕ List Char) :=
  (scan r b s).map (Sum.map id Match.text)

/-- `re.findall(r, s)`, for an expression without groups. -/
def findall (r : Regex) (s : List Char) : List (List Char) :=
  (finditer r s).map Match.text

theorem sub_eq_marks (r : Regex) (repl s : List Char) :
    sub r repl s = (marks r true s).flatMap (Sum.elim (fun x ↦ [x]) fun _ ↦ repl) := by
  rw [sub, marks, List.flatMap_map]
  congr 1
  funext m
  rcases m with x | m <;> rfl

theorem findall_eq_marks (r : Regex) (s : List Char) :
    findall r s = (marks r true s).filterMap Sum.getRight? := by
  rw [findall, finditer, marks, List.map_filterMap, List.filterMap_map]
  congr 1
  funext m
  rcases m with x | m <;> rfl

@[simp] theorem findall_nil (r : Regex) : findall r [] = [] := rfl

namespace Finds

variable {r : Regex} {find : List Char → Option (List Char)} {repl s t u w : List Char} {x : Char}

theorem length_lt (h : Finds r find) (hs : find s = some u) : u.length < s.length := by
  obtain ⟨m, hm, rfl⟩ := h.exists_append s u hs
  rw [List.length_append]
  have := List.length_pos_of_ne_nil hm
  omega

/-- **Induction along a search.** -/
theorem induction (h : Finds r find) {P : List Char → Prop} (nil : P [])
    (skip : ∀ x t, find (x :: t) = none → P t → P (x :: t))
    (found : ∀ s u, find s = some u → P u → P s) (s : List Char) : P s := by
  induction hn : s.length using Nat.strongRecOn generalizing s with
  | ind n ih =>
    rcases s with _ | ⟨x, t⟩
    · exact nil
    · rcases hs : find (x :: t) with _ | u
      · exact skip x t hs (ih t.length (by rw [← hn]; exact Nat.lt_succ_self _) t rfl)
      · exact found _ u hs (ih u.length (by rw [← hn]; exact h.length_lt hs) u rfl)

/-! ### One step of a search -/

/-- A character passed over. -/
theorem scan_skip (h : Finds r find) (hs : find (x :: t) = none) (b : Bool) :
    scan r b (x :: t) = .inl x :: scan r (x == '\n') t := by
  refine Regex.scan_skip ?_
  have := h.head?_rest b (x :: t)
  rwa [hs, Option.map_eq_none_iff, List.head?_eq_none_iff] at this

/-- A match. -/
theorem scan_found (h : Finds r find) (hs : find s = some u) (b : Bool) :
    ∃ b' m, scan r b s = .inr m :: scan r b' u ∧ m.text = s.take (s.length - u.length) := by
  have hhead := h.head?_rest b s
  rw [hs, Option.map_eq_some_iff] at hhead
  obtain ⟨d, hd, rfl⟩ := hhead
  exact ⟨d.bol, _, scan_match hd (h.length_lt hs), rfl⟩

theorem marks_skip_from (h : Finds r find) (hs : find (x :: t) = none) (b : Bool) :
    marks r b (x :: t) = .inl x :: marks r (x == '\n') t := by
  rw [marks, h.scan_skip hs]
  rfl

theorem marks_found_from (h : Finds r find) (hs : find s = some u) (b : Bool) :
    ∃ b', marks r b s = .inr (s.take (s.length - u.length)) :: marks r b' u := by
  obtain ⟨b', m, hscan, htext⟩ := h.scan_found hs b
  refine ⟨b', ?_⟩
  rw [marks, hscan, ← htext]
  rfl

/-- A search does not depend on whether the text begins a line. -/
theorem marks_eq (h : Finds r find) (s : List Char) :
    ∀ b b' : Bool, marks r b s = marks r b' s := by
  induction s using h.induction with
  | nil => exact fun _ _ ↦ rfl
  | skip x t hs _ =>
    intro b b'
    rw [h.marks_skip_from hs, h.marks_skip_from hs]
  | found s u hs ih =>
    intro b b'
    obtain ⟨c, hc⟩ := h.marks_found_from hs b
    obtain ⟨c', hc'⟩ := h.marks_found_from hs b'
    rw [hc, hc', ih c c']

theorem marks_skip (h : Finds r find) (hs : find (x :: t) = none) :
    marks r true (x :: t) = .inl x :: marks r true t := by
  rw [h.marks_skip_from hs, h.marks_eq t _ true]

theorem marks_found (h : Finds r find) (hs : find (s ++ u) = some u) :
    marks r true (s ++ u) = .inr s :: marks r true u := by
  obtain ⟨b, hb⟩ := h.marks_found_from hs true
  rw [hb, h.marks_eq u b true, List.length_append, Nat.add_sub_cancel,
    List.take_left' rfl]

theorem sub_skip (h : Finds r find) (hs : find (x :: t) = none) :
    sub r repl (x :: t) = x :: sub r repl t := by
  rw [sub_eq_marks, h.marks_skip hs, sub_eq_marks]
  rfl

theorem sub_found (h : Finds r find) (hs : find s = some u) :
    sub r repl s = repl ++ sub r repl u := by
  obtain ⟨m, -, rfl⟩ := h.exists_append s u hs
  rw [sub_eq_marks, h.marks_found hs, sub_eq_marks]
  rfl

theorem findall_skip (h : Finds r find) (hs : find (x :: t) = none) :
    findall r (x :: t) = findall r t := by
  rw [findall_eq_marks, h.marks_skip hs, findall_eq_marks]
  rfl

theorem findall_found (h : Finds r find) (hs : find (s ++ u) = some u) :
    findall r (s ++ u) = s :: findall r u := by
  rw [findall_eq_marks, h.marks_found hs, findall_eq_marks]
  rfl

end Finds

/-! ### Settled texts -/

/-- What is found in front of `s` does not depend on what follows. -/
def Stable (find : List Char → Option (List Char)) (s : List Char) : Prop :=
  ∀ w, find (s ++ w) = (find s).map (· ++ w)

theorem Stable.append {find : List Char → Option (List Char)} {s : List Char} (h : Stable find s)
    (w : List Char) : Stable find (s ++ w) := by
  intro v
  rw [List.append_assoc, h (w ++ v), h w, Option.map_map]
  congr 1
  funext u
  exact (List.append_assoc u w v).symm

/-- **A settled text**: the search comes to stable places only. -/
inductive Settled (find : List Char → Option (List Char)) : List Char → Prop
  | nil : Settled find []
  | skip {x : Char} {t : List Char} (hs : find (x :: t) = none) (hstable : Stable find (x :: t))
      (ht : Settled find t) : Settled find (x :: t)
  | found {s u : List Char} (hs : find s = some u) (hstable : Stable find s)
      (hu : Settled find u) : Settled find s

namespace Settled

variable {r : Regex} {find : List Char → Option (List Char)} {s w : List Char}

/-- **A settled text does not look at what follows.** -/
theorem sub_append (hs : Settled find s) (h : Finds r find) (repl w : List Char) :
    sub r repl (s ++ w) = sub r repl s ++ sub r repl w := by
  induction hs with
  | nil => rfl
  | skip hnone hstable _ ih =>
    have hnone' := hstable w
    rw [hnone] at hnone'
    rw [h.sub_skip hnone, List.cons_append, List.cons_append, ← ih]
    exact h.sub_skip hnone'
  | found hsome hstable _ ih =>
    have hsome' := hstable w
    rw [hsome] at hsome'
    rw [h.sub_found hsome, h.sub_found hsome', ih, List.append_assoc]

theorem append (hs : Settled find s) (hw : Settled find w) : Settled find (s ++ w) := by
  induction hs with
  | nil => exact hw
  | skip hnone hstable _ ih =>
    exact skip ((hstable w).trans (by rw [hnone]; rfl)) (hstable.append w) ih
  | found hsome hstable _ ih =>
    exact found ((hstable w).trans (by rw [hsome]; rfl)) (hstable.append w) ih

/-- **Where a text is not settled**: up to some unstable place in it the search goes the same way,
whatever follows. The characters it has put out are those of the text or of the replacement. -/
theorem exists_unstable (h : Finds r find) (hs : ¬ Settled find s) (repl : List Char) {x : Char}
    (hx : x ∉ repl) :
    ∃ p u, u ≠ [] ∧ u <:+ s ∧ ¬ Stable find u ∧ p.count x ≤ s.count x ∧
      ∀ w, sub r repl (s ++ w) = p ++ sub r repl (u ++ w) := by
  induction s using h.induction with
  | nil => exact absurd Settled.nil hs
  | skip y t hnone ih =>
    by_cases hstable : Stable find (y :: t)
    · obtain ⟨p, u, hu, hsuffix, hunstable, hcount, hsub⟩ := ih fun ht ↦ hs (ht.skip hnone hstable)
      refine ⟨y :: p, u, hu, hsuffix.trans (List.suffix_cons y t), hunstable, ?_, fun w ↦ ?_⟩
      · rw [List.count_cons, List.count_cons]
        omega
      · have hnone' := hstable w
        rw [hnone] at hnone'
        rw [List.cons_append, List.cons_append, ← hsub w]
        exact h.sub_skip hnone'
    · exact ⟨[], y :: t, List.cons_ne_nil y t, List.suffix_refl _, hstable, Nat.zero_le _,
        fun w ↦ rfl⟩
  | found t v hsome ih =>
    obtain ⟨m, hm, rfl⟩ := h.exists_append t v hsome
    by_cases hstable : Stable find (m ++ v)
    · obtain ⟨p, u, hu, hsuffix, hunstable, hcount, hsub⟩ := ih fun hv ↦ hs (hv.found hsome hstable)
      refine ⟨repl ++ p, u, hu, hsuffix.trans (List.suffix_append m v), hunstable, ?_, fun w ↦ ?_⟩
      · rw [List.count_append, List.count_append, List.count_eq_zero_of_not_mem hx]
        omega
      · have hsome' := hstable w
        rw [hsome] at hsome'
        rw [h.sub_found hsome', hsub w, List.append_assoc]
    · exact ⟨[], m ++ v, fun hnil ↦ hm (List.append_eq_nil_iff.1 hnil).1, List.suffix_refl _,
        hstable, Nat.zero_le _, fun w ↦ rfl⟩

/-- A text in which nothing can ever be found is settled, and is left as it is. -/
theorem of_forall (hs : ∀ t, t ≠ [] → t <:+ s → ∀ w, find (t ++ w) = none) : Settled find s := by
  induction s with
  | nil => exact nil
  | cons x s ih =>
    have hhere : ∀ w, find (x :: s ++ w) = none :=
      hs (x :: s) (List.cons_ne_nil x s) (List.suffix_refl _)
    have hnone := hhere []
    rw [List.append_nil] at hnone
    refine skip hnone (fun w ↦ ?_) (ih fun t ht hsuffix ↦ hs t ht (hsuffix.trans ⟨[x], rfl⟩))
    rw [hhere w, hnone]
    rfl

end Settled

theorem Finds.sub_eq_self {r : Regex} {find : List Char → Option (List Char)} (h : Finds r find)
    {s : List Char} (repl : List Char) (hs : ∀ t, t <:+ s → find t = none) :
    sub r repl s = s := by
  induction s with
  | nil => rfl
  | cons x s ih =>
    rw [h.sub_skip (hs _ (List.suffix_refl _)),
      ih fun t hsuffix ↦ hs t (hsuffix.trans ⟨[x], rfl⟩)]

/-- A substitution adds no characters but those of the replacement. -/
theorem Finds.count_sub_le {r : Regex} {find : List Char → Option (List Char)} (h : Finds r find)
    {repl : List Char} {x : Char} (hx : x ∉ repl) (s : List Char) :
    (sub r repl s).count x ≤ s.count x := by
  induction s using h.induction with
  | nil => exact Nat.le_refl _
  | skip y t hnone ih =>
    rw [h.sub_skip hnone, List.count_cons, List.count_cons]
    omega
  | found t v hsome ih =>
    obtain ⟨m, -, rfl⟩ := h.exists_append t v hsome
    rw [h.sub_found hsome, List.count_append, List.count_append, List.count_eq_zero_of_not_mem hx]
    omega

/-- The last character of a settled text stays, if no match can end with it. -/
theorem Settled.getLast?_sub {r : Regex} {find : List Char → Option (List Char)} {s : List Char}
    (hs : Settled find s) (h : Finds r find) (repl : List Char)
    (hend : ∀ t, t <:+ s → Stable find t → find t ≠ some []) :
    (sub r repl s).getLast? = s.getLast? := by
  induction hs with
  | nil => rfl
  | @skip y t hnone _ _ ih =>
    have ht := ih fun u hu ↦ hend u (hu.trans (List.suffix_cons y t))
    rw [h.sub_skip hnone, List.getLast?_cons, List.getLast?_cons, ht]
  | @found t v hsome hstable _ ih =>
    obtain ⟨m, -, rfl⟩ := h.exists_append t v hsome
    have hv := ih fun u hu ↦ hend u (hu.trans (List.suffix_append m v))
    have hne : v ≠ [] := fun hnil ↦ hend _ (List.suffix_refl _) hstable (hnil ▸ hsome)
    obtain ⟨z, hz⟩ := Option.ne_none_iff_exists'.1 fun hnone ↦
      hne (List.getLast?_eq_none_iff.1 hnone)
    rw [h.sub_found hsome, List.getLast?_append, List.getLast?_append, hv, hz]
    rfl

/-- What is found stands in the text. -/
theorem Finds.infix_of_mem_findall {r : Regex} {find : List Char → Option (List Char)}
    (h : Finds r find) {m s : List Char} (hm : m ∈ findall r s) : m <:+: s := by
  induction s using h.induction with
  | nil => cases hm
  | skip y t hnone ih =>
    rw [h.findall_skip hnone] at hm
    exact (ih hm).trans (List.suffix_cons y t).isInfix
  | found t v hsome ih =>
    obtain ⟨w, -, rfl⟩ := h.exists_append t v hsome
    rw [h.findall_found hsome] at hm
    rcases List.mem_cons.1 hm with rfl | hm
    · exact (List.prefix_append m v).isInfix
    · exact (ih hm).trans (List.suffix_append w v).isInfix

/-! ### Splitting -/

/-- The text behind one character of a class and a run of another one. -/
def behindRun (p q : Char → Bool) : List Char → Option (List Char)
  | [] => none
  | x :: t => if p x then some (t.dropWhile q) else none

theorem finds_run (p q : Char → Bool) : Finds (seq (one p) (star (one q))) (behindRun p q) where
  head?_rest := by
    intro b s
    rw [run_seq]
    rcases s with _ | ⟨x, t⟩
    · rw [run_one_nil rfl]
      rfl
    · rw [run_one_cons rfl, behindRun]
      split_ifs with hx
      · obtain ⟨b', hb'⟩ := head?_run_star_one q ⟨x == '\n', t, []⟩
        rw [List.flatMap_singleton]
        exact congrArg _ hb'
      · rfl
  exists_append := by
    intro s u h
    rcases s with _ | ⟨x, t⟩
    · cases h
    · rw [behindRun] at h
      split_ifs at h
      obtain rfl := Option.some.inj h
      obtain ⟨m, hm⟩ := List.dropWhile_suffix q (l := t)
      exact ⟨x :: m, List.cons_ne_nil x m, congrArg _ hm.symm⟩

theorem finds_plus (p : Char → Bool) : Finds (plus (one p)) (behindRun p p) :=
  finds_run p p

/-- A text that begins with a run of a class, split at each character of it: there are empty pieces,
and then the pieces of what is behind the run. -/
theorem exists_splitOnP_run (p : Char → Bool) (t : List Char) :
    ∃ n, t.splitOnP p = List.replicate n [] ++ (t.dropWhile p).splitOnP p := by
  induction t with
  | nil => exact ⟨0, rfl⟩
  | cons x t ih =>
    by_cases hx : p x = true
    · obtain ⟨n, hn⟩ := ih
      refine ⟨n + 1, ?_⟩
      rw [List.splitOnP_cons_eq_if_modifyHead, if_pos hx, List.dropWhile_cons_of_pos hx, hn]
      rfl
    · exact ⟨0, by rw [List.dropWhile_cons_of_neg hx]; rfl⟩

/-- Split at the runs of a class, a text has the same first piece as split at each character of it,
and then the same pieces but for empty ones. -/
theorem exists_pieces_run (p : Char → Bool) (b : Bool) (s : List Char) :
    ∃ h ps qs, pieces (scan (plus (one p)) b s) = h :: ps ∧ s.splitOnP p = h :: qs ∧
      ps.filter (!·.isEmpty) = qs.filter (!·.isEmpty) := by
  induction s using (finds_plus p).induction generalizing b with
  | nil => exact ⟨[], [], [], rfl, rfl, rfl⟩
  | skip x t hs ih =>
    obtain ⟨h, ps, qs, hps, hqs, heq⟩ := ih (x == '\n')
    refine ⟨x :: h, ps, qs, ?_, ?_, heq⟩
    · rw [(finds_plus p).scan_skip hs, pieces, hps]
    · have hx : ¬ p x = true := fun hx ↦ by
        rw [behindRun, if_pos hx] at hs
        cases hs
      rw [List.splitOnP_cons_eq_if_modifyHead, if_neg hx, hqs]
      rfl
  | found s u hs ih =>
    obtain ⟨b', m, hscan, -⟩ := (finds_plus p).scan_found hs b
    obtain ⟨h, ps, qs, hps, hqs, heq⟩ := ih b'
    rcases s with _ | ⟨x, t⟩
    · cases hs
    rw [behindRun] at hs
    split_ifs at hs with hx
    obtain rfl := Option.some.inj hs
    -- the run is one separator for the search, and some for the split
    obtain ⟨n, hn⟩ := exists_splitOnP_run p t
    refine ⟨[], h :: ps, List.replicate n [] ++ h :: qs, ?_, ?_, ?_⟩
    · rw [hscan, pieces, hps]
    · rw [List.splitOnP_cons_eq_if_modifyHead, if_pos hx, hn, hqs]
    · have hempty : (List.replicate n ([] : List Char)).filter (!·.isEmpty) = [] :=
        List.filter_eq_nil_iff.2 fun l hl ↦ by simp [List.eq_of_mem_replicate hl]
      rw [List.filter_append, hempty, List.nil_append, List.filter_cons, List.filter_cons, heq]

/-- **Split at the runs of a class**, a text has the words between them for its pieces, and empty
ones. -/
theorem filter_split_run (p : Char → Bool) (s : List Char) :
    (split (plus (one p)) s).filter (!·.isEmpty) = Words.words p s := by
  obtain ⟨h, ps, qs, hps, hqs, heq⟩ := exists_pieces_run p true s
  rw [split, hps, Words.words, hqs, List.filter_cons, List.filter_cons, heq]

/-! ### Captures -/

/-- The parts captured in a search, of at most `n` steps. -/
def capturedFuel (find : Bool → List Char → Option (List Char × List Char)) :
    ℕ → Bool → List Char → List (List Char)
  | 0, _, _ => []
  | _ + 1, _, [] => []
  | n + 1, b, x :: t =>
    match find b (x :: t) with
    | some (l, u) => l :: capturedFuel find n false u
    | none => capturedFuel find n (x == '\n') t

/-- The parts captured in a search: `find` says what is captured at a place and what is behind the
match, and whether the place begins a line matters. Every step gets on. -/
def captured (find : Bool → List Char → Option (List Char × List Char)) (b : Bool)
    (s : List Char) : List (List Char) :=
  capturedFuel find s.length b s

/-- **An expression that captures one part**: `find` says what the preferred match captures and what
is behind it. No match ends at the beginning of a line. -/
structure Captures (r : Regex)
    (find : Bool → List Char → Option (List Char × List Char)) : Prop where
  /-- The preferred match. -/
  head?_eq : ∀ b s, (run r ⟨b, s, []⟩).head? = (find b s).map fun p ↦ ⟨false, p.2, [p.1]⟩
  /-- No match is empty. -/
  length_lt : ∀ b s l u, find b s = some (l, u) → u.length < s.length

namespace Captures

variable {r : Regex} {find : Bool → List Char → Option (List Char × List Char)}

theorem groups_scanFuel (h : Captures r find) (n : ℕ) (b : Bool) (s : List Char) :
    ((scanFuel r n b s).filterMap Sum.getRight?).map (fun m ↦ m.groups.getD 0 []) =
      capturedFuel find n b s := by
  induction n generalizing b s with
  | zero => rfl
  | succ n ih =>
    rcases s with _ | ⟨x, t⟩
    · rfl
    rw [scanFuel, capturedFuel, h.head?_eq]
    rcases hfind : find b (x :: t) with _ | ⟨l, u⟩
    · exact ih (x == '\n') t
    · have hlt : u.length ≤ t.length := Nat.le_of_lt_succ (h.length_lt b (x :: t) l u hfind)
      rw [Option.map_some]
      dsimp only
      rw [if_pos hlt, ← ih false u]
      rfl

/-- The number of steps does not matter, as long as it covers the text. -/
theorem capturedFuel_eq (h : Captures r find) {n : ℕ} {s : List Char} (hn : s.length ≤ n)
    (b : Bool) : capturedFuel find n b s = captured find b s := by
  rw [captured, ← h.groups_scanFuel, ← h.groups_scanFuel,
    scanFuel_eq_scanFuel r hn (Nat.le_refl s.length)]

/-- A character passed over. -/
theorem captured_skip {b : Bool} {x : Char} {t : List Char} (hfind : find b (x :: t) = none) :
    captured find b (x :: t) = captured find (x == '\n') t := by
  rw [captured, List.length_cons, capturedFuel, hfind]
  rfl

/-- A match. -/
theorem captured_found (h : Captures r find) {b : Bool} {s l u : List Char}
    (hfind : find b s = some (l, u)) : captured find b s = l :: captured find false u := by
  have hlt := h.length_lt b s l u hfind
  rcases s with _ | ⟨x, t⟩
  · exact absurd hlt (Nat.not_lt_zero _)
  · rw [captured, List.length_cons, capturedFuel, hfind]
    exact congrArg (l :: ·) (h.capturedFuel_eq (Nat.le_of_lt_succ hlt) false)

/-- **What a search captures.** -/
theorem groups_finditer (h : Captures r find) (s : List Char) :
    (finditer r s).map (fun m ↦ m.groups.getD 0 []) = captured find true s :=
  h.groups_scanFuel s.length true s

end Captures

end Regex
