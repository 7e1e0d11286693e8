import Mathlib.Data.List.TakeWhile
import Mathlib.Data.Nat.Notation

/-!
# Backtracking regular expressions

Regular expressions with the semantics of a backtracking matcher. `run r c` lists the ways in which
`r` can match from the position `c`, the preferred one first: a greedy repetition tries to go on
before it stops, a lazy one tries to stop before it goes on. A position knows whether it is at the
beginning of a line, and carries the groups captured so far.

Searching goes through a text from left to right: where the expression matches, the preferred match
is taken and the search continues behind it, and where it does not, one character is passed over
(`scan`). Substitution and the lists of matches are read off the result.

**What proofs use.** A search is unfolded at a position by `scan_match` and `scan_skip`, which ask
for the preferred match or for its absence. Where all ways to match agree on where they end, the
preferred one is found from membership alone (`head?_eq_some_of_forall`); the order matters for lazy
repetitions only (`run_lazy_any_cons`). Repetitions are unfolded by `run_star` and `run_lazy`; a
repeated class, which is the common case, has its own lemmas.
-/

/-- A regular expression over characters. -/
inductive Regex where
  /-- The empty text. -/
  | empty
  /-- One character of a class. -/
  | one (p : Char → Bool)
  /-- One after the other. -/
  | seq (r s : Regex)
  /-- The first, or else the second. -/
  | alt (r s : Regex)
  /-- Any number of times, as many as possible. -/
  | star (r : Regex)
  /-- Any number of times, as few as possible. -/
  | lazy (r : Regex)
  /-- The beginning of a line. -/
  | bol
  /-- The end of a line. -/
  | eol
  /-- Captures what it matches. -/
  | group (r : Regex)

namespace Regex

/-- One given character. -/
def lit (x : Char) : Regex :=
  one (· == x)

/-- Any character. -/
def any : Regex :=
  one fun _ ↦ true

/-- Once or not at all, preferably once. -/
def opt (r : Regex) : Regex :=
  alt r empty

/-- At least once, as often as possible. -/
def plus (r : Regex) : Regex :=
  seq r (star r)

/-- A given text. -/
def text : List Char → Regex
  | [] => empty
  | x :: xs => seq (lit x) (text xs)

/-- A position in a text. -/
structure Pos where
  /-- The position is at the beginning of a line. -/
  bol : Bool
  /-- The text from here on. -/
  rest : List Char
  /-- The groups captured. -/
  groups : List (List Char)

namespace Pos

/-- The position behind the next character. -/
def advance (c : Pos) (x : Char) (t : List Char) : Pos where
  bol := x == '\n'
  rest := t
  groups := c.groups

/-- The position `d`, with the text from `c` to `d` as one more group. -/
def capture (c d : Pos) : Pos where
  bol := d.bol
  rest := d.rest
  groups := d.groups ++ [c.rest.take (c.rest.length - d.rest.length)]

end Pos

/-- A greedy repetition, of at most `n` rounds that get on. -/
def greedy (f : Pos → List Pos) : ℕ → Pos → List Pos
  | 0, c => [c]
  | n + 1, c =>
    ((f c).flatMap fun d ↦ if d.rest.length < c.rest.length then greedy f n d else []) ++ [c]

/-- A lazy repetition, of at most `n` rounds that get on. -/
def reluctant (f : Pos → List Pos) : ℕ → Pos → List Pos
  | 0, c => [c]
  | n + 1, c =>
    c :: (f c).flatMap fun d ↦ if d.rest.length < c.rest.length then reluctant f n d else []

/-- The ways to match at a position, the preferred one first. -/
def run : Regex → Pos → List Pos
  | empty, c => [c]
  | one p, c =>
    match c.rest with
    | [] => []
    | x :: t => if p x then [c.advance x t] else []
  | seq r s, c => (run r c).flatMap (run s)
  | alt r s, c => run r c ++ run s c
  | star r, c => greedy (run r) c.rest.length c
  | lazy r, c => reluctant (run r) c.rest.length c
  | bol, c => if c.bol then [c] else []
  | eol, c => if c.rest = [] ∨ c.rest.head? = some '\n' then [c] else []
  | group r, c => (run r c).map c.capture

/-- A match: its text and its groups. -/
structure Match where
  /-- The text matched. -/
  text : List Char
  /-- The groups captured in it. -/
  groups : List (List Char)
  deriving DecidableEq

/-- The search in `s`, of at most `n` steps: the characters passed over and the matches. The text
may be the rest of a longer one; `b` says whether it begins a line. -/
def scanFuel (r : Regex) : ℕ → Bool → List Char → List (Char ⊕ Match)
  | 0, _, _ => []
  | _ + 1, _, [] => []
  | n + 1, b, x :: t =>
    match (run r ⟨b, x :: t, []⟩).head? with
    | some d =>
      if d.rest.length ≤ t.length then
        .inr ⟨(x :: t).take (t.length + 1 - d.rest.length), d.groups⟩ :: scanFuel r n d.bol d.rest
      else
        .inl x :: scanFuel r n (x == '\n') t
    | none => .inl x :: scanFuel r n (x == '\n') t

/-- The search in `s`. Every step gets on, so the length of the text bounds their number. An empty
match is passed over; the expressions of a search should not have one. -/
def scan (r : Regex) (b : Bool) (s : List Char) : List (Char ⊕ Match) :=
  scanFuel r s.length b s

/-- `re.sub(r, repl, s)`, for a fixed replacement. -/
def sub (r : Regex) (repl s : List Char) : List Char :=
  (scan r true s).flatMap (Sum.elim (fun x ↦ [x]) fun _ ↦ repl)

/-- `re.finditer(r, s)`. -/
def finditer (r : Regex) (s : List Char) : List Match :=
  (scan r true s).filterMap Sum.getRight?

/-- The pieces of a search between its matches. -/
def pieces : List (Char ⊕ Match) → List (List Char)
  | [] => [[]]
  | .inl x :: rest =>
    match pieces rest with
    | [] => [[x]]
    | p :: ps => (x :: p) :: ps
  | .inr _ :: rest => [] :: pieces rest

/-- `re.split(r, s)`. -/
def split (r : Regex) (s : List Char) : List (List Char) :=
  pieces (scan r true s)

/-- `re.fullmatch(r, s)` succeeds. -/
def fullmatch (r : Regex) (s : List Char) : Bool :=
  (run r ⟨true, s, []⟩).any fun c ↦ c.rest.isEmpty

/-! ### Ways to match -/

@[simp] theorem run_empty (c : Pos) : run empty c = [c] := rfl

theorem run_one_cons {p : Char → Bool} {c : Pos} {x : Char} {t : List Char}
    (h : c.rest = x :: t) : run (one p) c = if p x then [c.advance x t] else [] := by
  rw [run, h]

theorem run_one_nil {p : Char → Bool} {c : Pos} (h : c.rest = []) : run (one p) c = [] := by
  rw [run, h]

@[simp] theorem run_seq (r s : Regex) (c : Pos) : run (seq r s) c = (run r c).flatMap (run s) := rfl

@[simp] theorem run_group (r : Regex) (c : Pos) : run (group r) c = (run r c).map c.capture := rfl

@[simp] theorem run_alt (r s : Regex) (c : Pos) : run (alt r s) c = run r c ++ run s c := rfl

/-- One character of a class, as a relation. -/
theorem mem_run_one {p : Char → Bool} {c d : Pos} :
    d ∈ run (one p) c ↔ ∃ x t, c.rest = x :: t ∧ p x = true ∧ d = c.advance x t := by
  rcases hrest : c.rest with _ | ⟨x, t⟩
  · rw [run_one_nil hrest]
    simp
  · rw [run_one_cons hrest]
    constructor
    · intro h
      split_ifs at h with hx
      · exact ⟨x, t, rfl, hx, List.mem_singleton.1 h⟩
      · cases h
    · rintro ⟨y, u, hyu, hy, rfl⟩
      obtain ⟨rfl, rfl⟩ := List.cons.inj hyu
      rw [if_pos hy]
      exact List.mem_singleton.2 rfl

/-- Where all ways to match are one, it is the preferred one. -/
theorem head?_eq_some_of_forall {α : Type} {l : List α} {a : α} (hne : l ≠ [])
    (h : ∀ b ∈ l, b = a) : l.head? = some a := by
  rcases l with _ | ⟨b, l⟩
  · exact absurd rfl hne
  · rw [List.head?_cons, h b List.mem_cons_self]

theorem run_lit_cons (x : Char) (b : Bool) (t : List Char) (g : List (List Char)) :
    run (lit x) ⟨b, x :: t, g⟩ = [⟨x == '\n', t, g⟩] := by
  rw [lit, run_one_cons rfl, if_pos (beq_self_eq_true x)]
  rfl

theorem run_lit_of_ne {x : Char} {s : List Char} (h : s.head? ≠ some x) (b : Bool)
    (g : List (List Char)) : run (lit x) ⟨b, s, g⟩ = [] := by
  rcases s with _ | ⟨y, t⟩
  · exact run_one_nil rfl
  · have hy : y ≠ x := fun heq ↦ h (by rw [heq]; rfl)
    rw [lit, run_one_cons rfl, if_neg (by simpa using hy)]

/-- A given text, where it stands. -/
theorem run_text_append (w : List Char) (b : Bool) (t : List Char) (g : List (List Char)) :
    ∃ b', run (text w) ⟨b, w ++ t, g⟩ = [⟨b', t, g⟩] := by
  induction w generalizing b with
  | nil => exact ⟨b, rfl⟩
  | cons x w ih =>
    obtain ⟨b', hb'⟩ := ih (x == '\n')
    refine ⟨b', ?_⟩
    rw [text, run_seq, List.cons_append, run_lit_cons, List.flatMap_singleton, hb']

/-- A given text, where it does not stand. -/
theorem run_text_of_not_isPrefix {w s : List Char} (h : ¬ w <+: s) (b : Bool)
    (g : List (List Char)) : run (text w) ⟨b, s, g⟩ = [] := by
  induction w generalizing s b with
  | nil => exact absurd List.nil_prefix h
  | cons x w ih =>
    rw [text, run_seq]
    by_cases hx : s.head? = some x
    · obtain ⟨t, rfl⟩ := List.head?_eq_some_iff.1 hx
      rw [run_lit_cons, List.flatMap_singleton]
      exact ih (fun hpre ↦ h (List.cons_prefix_cons.2 ⟨rfl, hpre⟩)) _
    · rw [run_lit_of_ne hx, List.flatMap_nil]

/-! ### Repetition -/

/-- The bound on the rounds does not matter, as long as it covers the text. -/
theorem greedy_eq_greedy (f : Pos → List Pos) {n m : ℕ} {c : Pos} (hn : c.rest.length ≤ n)
    (hm : c.rest.length ≤ m) : greedy f n c = greedy f m c := by
  induction n generalizing m c with
  | zero =>
    have hnone : ∀ d : Pos, ¬ d.rest.length < c.rest.length := fun d ↦ by omega
    rcases m with _ | m <;> simp [greedy, hnone]
  | succ n ih =>
    rcases m with _ | m
    · have hnone : ∀ d : Pos, ¬ d.rest.length < c.rest.length := fun d ↦ by omega
      simp [greedy, hnone]
    · rw [greedy, greedy]
      congr 2
      funext d
      split_ifs with hd
      · exact ih (by omega) (by omega)
      · rfl

theorem reluctant_eq_reluctant (f : Pos → List Pos) {n m : ℕ} {c : Pos} (hn : c.rest.length ≤ n)
    (hm : c.rest.length ≤ m) : reluctant f n c = reluctant f m c := by
  induction n generalizing m c with
  | zero =>
    have hnone : ∀ d : Pos, ¬ d.rest.length < c.rest.length := fun d ↦ by omega
    rcases m with _ | m <;> simp [reluctant, hnone]
  | succ n ih =>
    rcases m with _ | m
    · have hnone : ∀ d : Pos, ¬ d.rest.length < c.rest.length := fun d ↦ by omega
      simp [reluctant, hnone]
    · rw [reluctant, reluctant]
      congr 2
      funext d
      split_ifs with hd
      · exact ih (by omega) (by omega)
      · rfl

/-- **A greedy repetition** goes on as long as it gets on, and else stops. -/
theorem run_star (r : Regex) (c : Pos) :
    run (star r) c =
      ((run r c).flatMap fun d ↦ if d.rest.length < c.rest.length then run (star r) d else []) ++
        [c] := by
  have h : run (star r) c = greedy (run r) (c.rest.length + 1) c :=
    greedy_eq_greedy _ (Nat.le_refl _) (Nat.le_succ _)
  rw [h, greedy]
  congr 2
  funext d
  split_ifs with hd
  · exact greedy_eq_greedy _ (Nat.le_of_lt hd) (Nat.le_refl _)
  · rfl

/-- **A lazy repetition** stops, or else goes on. -/
theorem run_lazy (r : Regex) (c : Pos) :
    run (lazy r) c = c :: (run r c).flatMap fun d ↦
      if d.rest.length < c.rest.length then run (lazy r) d else [] := by
  have h : run (lazy r) c = reluctant (run r) (c.rest.length + 1) c :=
    reluctant_eq_reluctant _ (Nat.le_refl _) (Nat.le_succ _)
  rw [h, reluctant]
  congr 2
  funext d
  split_ifs with hd
  · exact reluctant_eq_reluctant _ (Nat.le_of_lt hd) (Nat.le_refl _)
  · rfl

/-- A repeated class at a character of the class. -/
theorem run_star_one_cons {p : Char → Bool} {c : Pos} {x : Char} {t : List Char}
    (h : c.rest = x :: t) (hx : p x = true) :
    run (star (one p)) c = run (star (one p)) (c.advance x t) ++ [c] := by
  have hlt : (c.advance x t).rest.length < c.rest.length := by
    rw [h]
    exact Nat.lt_succ_self _
  rw [run_star, run_one_cons h, if_pos hx, List.flatMap_cons, if_pos hlt, List.flatMap_nil,
    List.append_nil]

/-- A repeated class where there is no character of the class. -/
theorem run_star_one_stop {p : Char → Bool} {c : Pos}
    (h : ∀ x t, c.rest = x :: t → p x = false) : run (star (one p)) c = [c] := by
  have hnone : run (one p) c = [] := by
    rcases hrest : c.rest with _ | ⟨x, t⟩
    · exact run_one_nil hrest
    · rw [run_one_cons hrest, h x t hrest]
      rfl
  rw [run_star, hnone, List.flatMap_nil, List.nil_append]

/-- What a greedy repetition of a class prefers: all there is of it. -/
theorem head?_run_star_one (p : Char → Bool) (c : Pos) :
    ∃ b, (run (star (one p)) c).head? = some ⟨b, c.rest.dropWhile p, c.groups⟩ := by
  obtain ⟨b, s, g⟩ := c
  induction s generalizing b with
  | nil => exact ⟨b, by rw [run_star_one_stop (by simp)]; rfl⟩
  | cons x t ih =>
    by_cases hx : p x = true
    · obtain ⟨b', hb'⟩ := ih (x == '\n')
      refine ⟨b', ?_⟩
      rw [run_star_one_cons rfl hx, List.head?_append]
      show ((run (star (one p)) ⟨x == '\n', t, g⟩).head?.or _) = _
      rw [hb', List.dropWhile_cons_of_pos hx]
      rfl
    · refine ⟨b, ?_⟩
      rw [run_star_one_stop (by rintro y u ⟨⟩; exact Bool.eq_false_iff.2 hx),
        List.dropWhile_cons_of_neg hx]
      rfl

/-- **All of a class, or nothing.** What follows a repeated class and cannot begin with a character
of it follows the whole run of the class. -/
theorem flatMap_run_star_one {α : Type} {p : Char → Bool} {f : Pos → List α} {u v : List Char}
    (hu : ∀ x ∈ u, p x = true) (hv : ∀ x t, v = x :: t → p x = false)
    (hf : ∀ c x t, c.rest = x :: t → p x = true → f c = []) (b : Bool) (g : List (List Char)) :
    ∃ b', (run (star (one p)) ⟨b, u ++ v, g⟩).flatMap f = f ⟨b', v, g⟩ := by
  induction u generalizing b with
  | nil =>
    refine ⟨b, ?_⟩
    rw [List.nil_append, run_star_one_stop hv, List.flatMap_singleton]
  | cons x u ih =>
    obtain ⟨b', hb'⟩ := ih (fun y hy ↦ hu y (List.mem_cons_of_mem x hy)) (x == '\n')
    have hx := hu x List.mem_cons_self
    refine ⟨b', ?_⟩
    rw [List.cons_append, run_star_one_cons rfl hx, List.flatMap_append, List.flatMap_singleton,
      hf _ x (u ++ v) rfl hx, List.append_nil]
    exact hb'

/-- What is behind a run of a class does not begin with a character of it. -/
theorem eq_false_of_dropWhile_eq_cons {p : Char → Bool} {s t : List Char} {x : Char}
    (h : s.dropWhile p = x :: t) : p x = false := by
  have hhead := List.head?_dropWhile_not p s
  rw [h] at hhead
  exact hhead

/-- The same where the run is not at hand. -/
theorem flatMap_run_star_one_dropWhile {α : Type} {p : Char → Bool} {f : Pos → List α}
    (hf : ∀ c x t, c.rest = x :: t → p x = true → f c = []) (b : Bool) (s : List Char)
    (g : List (List Char)) :
    ∃ b', (run (star (one p)) ⟨b, s, g⟩).flatMap f = f ⟨b', s.dropWhile p, g⟩ := by
  have hu : ∀ x ∈ s.takeWhile p, p x = true := fun _ hx ↦ List.mem_takeWhile_imp hx
  have hv : ∀ x t, s.dropWhile p = x :: t → p x = false := fun _ _ ↦ eq_false_of_dropWhile_eq_cons
  have hrun := flatMap_run_star_one hu hv hf b g
  rwa [List.takeWhile_append_dropWhile] at hrun

/-- A class without the line end does not get to the beginning of a line. -/
theorem head?_run_star_one_of_lineEnd {p : Char → Bool} (hp : p '\n' = false) (s : List Char)
    (g : List (List Char)) :
    (run (star (one p)) ⟨false, s, g⟩).head? = some ⟨false, s.dropWhile p, g⟩ := by
  induction s with
  | nil => rw [run_star_one_stop (by simp)]; rfl
  | cons x t ih =>
    by_cases hx : p x = true
    · have hne : (x == '\n') = false := by
        refine beq_eq_false_iff_ne.2 fun heq ↦ ?_
        rw [heq, hp] at hx
        cases hx
      rw [run_star_one_cons rfl hx, List.head?_append, Pos.advance, hne, ih,
        List.dropWhile_cons_of_pos hx]
      rfl
    · rw [run_star_one_stop (by rintro y u ⟨⟩; exact Bool.eq_false_iff.2 hx),
        List.dropWhile_cons_of_neg hx]
      rfl

/-- What a repeated class matches is of the class. -/
theorem exists_of_mem_run_star_one {p : Char → Bool} {c d : Pos} (h : d ∈ run (star (one p)) c) :
    ∃ w, c.rest = w ++ d.rest ∧ ∀ x ∈ w, p x = true := by
  obtain ⟨b, s, g⟩ := c
  induction s generalizing b with
  | nil =>
    rw [run_star_one_stop (by simp)] at h
    obtain rfl := List.mem_singleton.1 h
    exact ⟨[], rfl, fun _ hx ↦ absurd hx List.not_mem_nil⟩
  | cons x t ih =>
    by_cases hx : p x = true
    · rw [run_star_one_cons rfl hx] at h
      rcases List.mem_append.1 h with h | h
      · obtain ⟨w, hw, hp⟩ := ih _ h
        exact ⟨x :: w, congrArg (x :: ·) hw, List.forall_mem_cons.2 ⟨hx, hp⟩⟩
      · obtain rfl := List.mem_singleton.1 h
        exact ⟨[], rfl, fun _ hy ↦ absurd hy List.not_mem_nil⟩
    · rw [run_star_one_stop (by rintro y u ⟨⟩; exact Bool.eq_false_iff.2 hx)] at h
      obtain rfl := List.mem_singleton.1 h
      exact ⟨[], rfl, fun _ hy ↦ absurd hy List.not_mem_nil⟩

/-- A repeated class can match all of a text if all of it is of the class. -/
theorem any_run_star_one (p : Char → Bool) (c : Pos) :
    ((run (star (one p)) c).any fun d ↦ d.rest.isEmpty) = c.rest.all p := by
  obtain ⟨b, s, g⟩ := c
  induction s generalizing b with
  | nil => rw [run_star_one_stop (by simp)]; rfl
  | cons x t ih =>
    by_cases hx : p x = true
    · rw [run_star_one_cons rfl hx, List.any_append, Pos.advance, ih, List.all_cons, hx]
      simp
    · rw [run_star_one_stop (by rintro y u ⟨⟩; exact Bool.eq_false_iff.2 hx), List.all_cons,
        Bool.eq_false_iff.2 hx]
      rfl

/-- A lazy repetition of anything, at a character. -/
theorem run_lazy_any_cons {c : Pos} {x : Char} {t : List Char} (h : c.rest = x :: t) :
    run (lazy any) c = c :: run (lazy any) (c.advance x t) := by
  have hlt : (c.advance x t).rest.length < c.rest.length := by
    rw [h]
    exact Nat.lt_succ_self _
  rw [run_lazy, any, run_one_cons h, if_pos rfl, List.flatMap_cons, if_pos hlt, List.flatMap_nil,
    List.append_nil]

theorem run_lazy_any_nil {c : Pos} (h : c.rest = []) : run (lazy any) c = [c] := by
  rw [run_lazy, any, run_one_nil h, List.flatMap_nil]

/-- **Anything, as short as possible**: a lazy repetition of anything, captured, goes to the first
character that stops it. -/
theorem head?_run_lazy_any_lit {x : Char} (c : Pos) {u : List Char} (hu : x ∉ u) (b : Bool)
    (t : List Char) (g : List (List Char)) :
    (((run (lazy any) ⟨b, u ++ x :: t, g⟩).map c.capture).flatMap (run (lit x))).head? =
      some ⟨x == '\n', t, g ++ [c.rest.take (c.rest.length - (x :: t).length)]⟩ := by
  induction u generalizing b with
  | nil =>
    rw [List.nil_append, run_lazy_any_cons rfl, List.map_cons, List.flatMap_cons]
    show ((run (lit x) ⟨b, x :: t, _⟩) ++ _).head? = _
    rw [run_lit_cons]
    rfl
  | cons y u ih =>
    obtain ⟨hy, hu⟩ := not_or.1 (fun h ↦ hu (List.mem_cons.2 h))
    have hne : (y :: (u ++ x :: t)).head? ≠ some x := by simpa using Ne.symm hy
    rw [List.cons_append, run_lazy_any_cons rfl, List.map_cons, List.flatMap_cons]
    show ((run (lit x) ⟨b, y :: (u ++ x :: t), _⟩) ++ _).head? = _
    rw [run_lit_of_ne hne, List.nil_append]
    exact ih hu _

/-! ### Searching -/

/-- The number of steps does not matter, as long as it covers the text. -/
theorem scanFuel_eq_scanFuel (r : Regex) {n m : ℕ} {b : Bool} {s : List Char}
    (hn : s.length ≤ n) (hm : s.length ≤ m) : scanFuel r n b s = scanFuel r m b s := by
  induction n generalizing m b s with
  | zero =>
    obtain rfl : s = [] := List.eq_nil_of_length_eq_zero (Nat.le_zero.1 hn)
    rcases m with _ | m <;> rfl
  | succ n ih =>
    rcases s with _ | ⟨x, t⟩
    · rcases m with _ | m <;> rfl
    · obtain ⟨m, rfl⟩ : ∃ k, m = k + 1 := ⟨m - 1, by rw [List.length_cons] at hm; omega⟩
      rw [List.length_cons] at hn hm
      have hskip : scanFuel r n (x == '\n') t = scanFuel r m (x == '\n') t :=
        ih (by omega) (by omega)
      rw [scanFuel, scanFuel, hskip]
      rcases (run r ⟨b, x :: t, []⟩).head? with _ | d
      · rfl
      · dsimp only
        split_ifs with hd
        · rw [ih (b := d.bol) (s := d.rest) (m := m) (by omega) (by omega)]
        · rfl

/-- A search at a position where the expression matches. -/
theorem scan_match {r : Regex} {b : Bool} {s : List Char} {d : Pos}
    (h : (run r ⟨b, s, []⟩).head? = some d) (hlt : d.rest.length < s.length) :
    scan r b s = .inr ⟨s.take (s.length - d.rest.length), d.groups⟩ :: scan r d.bol d.rest := by
  rcases s with _ | ⟨x, t⟩
  · exact absurd hlt (Nat.not_lt_zero _)
  · rw [List.length_cons] at hlt
    rw [scan, List.length_cons, scanFuel, h]
    dsimp only
    rw [if_pos (Nat.le_of_lt_succ hlt), scan,
      scanFuel_eq_scanFuel r (m := d.rest.length) (Nat.le_of_lt_succ hlt) (Nat.le_refl _)]

/-- A search at a position where it does not. -/
theorem scan_skip {r : Regex} {b : Bool} {x : Char} {t : List Char}
    (h : run r ⟨b, x :: t, []⟩ = []) :
    scan r b (x :: t) = .inl x :: scan r (x == '\n') t := by
  rw [scan, List.length_cons, scanFuel, h]
  rfl

/-! ### What holds of every way to match -/

/-- There are no groups in it. -/
def plain : Regex → Bool
  | group _ => false
  | seq r s => r.plain && s.plain
  | alt r s => r.plain && s.plain
  | star r => r.plain
  | lazy r => r.plain
  | _ => true

section Relation

variable {R : Pos → Pos → Prop} {f : Pos → List Pos} {c d : Pos}

theorem rel_of_mem_greedy (refl : ∀ c, R c c) (trans : ∀ c d e, R c d → R d e → R c e)
    (hf : ∀ c, ∀ d ∈ f c, R c d) {n : ℕ} (h : d ∈ greedy f n c) : R c d := by
  induction n generalizing c with
  | zero =>
    obtain rfl := List.mem_singleton.1 h
    exact refl d
  | succ n ih =>
    rcases List.mem_append.1 h with h | h
    · obtain ⟨e, he, hd⟩ := List.mem_flatMap.1 h
      split_ifs at hd
      · exact trans c e d (hf c e he) (ih hd)
      · cases hd
    · obtain rfl := List.mem_singleton.1 h
      exact refl d

theorem rel_of_mem_reluctant (refl : ∀ c, R c c) (trans : ∀ c d e, R c d → R d e → R c e)
    (hf : ∀ c, ∀ d ∈ f c, R c d) {n : ℕ} (h : d ∈ reluctant f n c) : R c d := by
  induction n generalizing c with
  | zero =>
    obtain rfl := List.mem_singleton.1 h
    exact refl d
  | succ n ih =>
    rcases List.mem_cons.1 h with rfl | h
    · exact refl d
    · obtain ⟨e, he, hd⟩ := List.mem_flatMap.1 h
      split_ifs at hd
      · exact trans c e d (hf c e he) (ih hd)
      · cases hd

/-- **What a match does to a position**: whatever holds of no move, of one character and of one move
after another, and of a capture unless there is none. -/
theorem rel_of_mem_run (refl : ∀ c, R c c) (trans : ∀ c d e, R c d → R d e → R c e)
    (advance : ∀ c x t, c.rest = x :: t → R c (c.advance x t)) {r : Regex}
    (capture : r.plain = false → ∀ c d, R c d → R c (c.capture d)) (h : d ∈ run r c) : R c d := by
  induction r generalizing c d with
  | empty =>
    obtain rfl := List.mem_singleton.1 h
    exact refl d
  | one p =>
    obtain ⟨x, t, hrest, -, rfl⟩ := mem_run_one.1 h
    exact advance c x t hrest
  | seq r s ihr ihs =>
    obtain ⟨e, he, hd⟩ := List.mem_flatMap.1 h
    exact trans c e d (ihr (fun hr ↦ capture (by simp [plain, hr])) he)
      (ihs (fun hs ↦ capture (by simp [plain, hs])) hd)
  | alt r s ihr ihs =>
    rcases List.mem_append.1 h with h | h
    · exact ihr (fun hr ↦ capture (by simp [plain, hr])) h
    · exact ihs (fun hs ↦ capture (by simp [plain, hs])) h
  | star r ih => exact rel_of_mem_greedy refl trans (fun _ _ hd ↦ ih capture hd) h
  | lazy r ih => exact rel_of_mem_reluctant refl trans (fun _ _ hd ↦ ih capture hd) h
  | bol =>
    rw [run] at h
    split_ifs at h
    · obtain rfl := List.mem_singleton.1 h
      exact refl d
    · cases h
  | eol =>
    rw [run] at h
    split_ifs at h
    · obtain rfl := List.mem_singleton.1 h
      exact refl d
    · cases h
  | group r ih =>
    obtain ⟨e, he, rfl⟩ := List.mem_map.1 h
    have hcapture := capture rfl
    exact hcapture c e (ih (fun _ ↦ hcapture) he)

end Relation

/-- A match ends further on. -/
theorem suffix_of_mem_run {r : Regex} {c d : Pos} (h : d ∈ run r c) : d.rest <:+ c.rest := by
  refine rel_of_mem_run (R := fun c d ↦ d.rest <:+ c.rest) (fun c ↦ List.suffix_refl c.rest)
    (fun _ _ _ h h' ↦ h'.trans h) (fun c x t hrest ↦ ?_) (fun _ _ _ h ↦ h) h
  rw [hrest]
  exact List.suffix_cons x t

/-- Without groups, nothing is captured. -/
theorem groups_of_mem_run {r : Regex} (hr : r.plain = true) {c d : Pos} (h : d ∈ run r c) :
    d.groups = c.groups := by
  refine rel_of_mem_run (R := fun c d ↦ d.groups = c.groups) (fun _ ↦ rfl)
    (fun _ _ _ h h' ↦ h'.trans h) (fun _ _ _ _ ↦ rfl) (fun h' ↦ ?_) h
  rw [hr] at h'
  cases h'

/-- What is captured stays captured. -/
theorem groups_isPrefix_of_mem_run {r : Regex} {c d : Pos} (h : d ∈ run r c) :
    c.groups <+: d.groups := by
  refine rel_of_mem_run (R := fun c d ↦ c.groups <+: d.groups) (fun c ↦ List.prefix_refl c.groups)
    (fun _ _ _ h h' ↦ h.trans h') (fun c x t _ ↦ List.prefix_refl c.groups) (fun _ c d h ↦ ?_) h
  exact h.trans (List.prefix_append _ _)

/-- A group captures what its expression matches. -/
theorem mem_run_group {r : Regex} {c d : Pos} (h : d ∈ run (group r) c) :
    ∃ e ∈ run r c, ∃ m, c.rest = m ++ d.rest ∧ e.rest = d.rest ∧ d.groups = e.groups ++ [m] := by
  obtain ⟨e, he, rfl⟩ := List.mem_map.1 h
  obtain ⟨m, hm⟩ := suffix_of_mem_run he
  refine ⟨e, he, m, hm.symm, rfl, ?_⟩
  have hlen : (m ++ e.rest).length - e.rest.length = m.length := by
    rw [List.length_append, Nat.add_sub_cancel]
  show e.groups ++ [c.rest.take (c.rest.length - e.rest.length)] = _
  rw [← hm, hlen, List.take_left' rfl]

theorem mem_scanFuel {r : Regex} {n : ℕ} {b : Bool} {s : List Char} {m : Match}
    (h : .inr m ∈ scanFuel r n b s) :
    ∃ l u b', ∃ d ∈ run r ⟨b', u, []⟩, s = l ++ u ∧ m.groups = d.groups := by
  induction n generalizing b s with
  | zero => cases h
  | succ n ih =>
    rcases s with _ | ⟨x, t⟩
    · cases h
    · have hskip : .inr m ∈ scanFuel r n (x == '\n') t →
          ∃ l u b', ∃ d ∈ run r ⟨b', u, []⟩, x :: t = l ++ u ∧ m.groups = d.groups := by
        intro hrest
        obtain ⟨l, u, b', d, hd, rfl, hm⟩ := ih hrest
        exact ⟨x :: l, u, b', d, hd, rfl, hm⟩
      rw [scanFuel] at h
      rcases hhead : (run r ⟨b, x :: t, []⟩).head? with _ | d
      · rw [hhead] at h
        exact hskip ((List.mem_cons.1 h).resolve_left (by simp))
      · have hd : d ∈ run r ⟨b, x :: t, []⟩ := List.mem_of_mem_head? hhead
        rw [hhead] at h
        dsimp only at h
        split_ifs at h
        · rcases List.mem_cons.1 h with heq | h
          · exact ⟨[], x :: t, b, d, hd, rfl, by rw [Sum.inr.inj heq]⟩
          · obtain ⟨l, u, b', e, he, hrest, hm⟩ := ih h
            obtain ⟨w, hw⟩ := suffix_of_mem_run hd
            refine ⟨w ++ l, u, b', e, he, ?_, hm⟩
            rw [List.append_assoc, ← hrest]
            exact hw.symm
        · exact hskip ((List.mem_cons.1 h).resolve_left (by simp))

/-- **Every match of a search** is a way to match at some place of the text. -/
theorem mem_scan {r : Regex} {b : Bool} {s : List Char} {m : Match} (h : .inr m ∈ scan r b s) :
    ∃ l u b', ∃ d ∈ run r ⟨b', u, []⟩, s = l ++ u ∧ m.groups = d.groups :=
  mem_scanFuel h

end Regex
