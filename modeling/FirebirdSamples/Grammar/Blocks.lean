import FirebirdSamples.Grammar.Collect

/-!
# What the rule expression finds

Three things are to be known of a text that has been through the passes: where the rule expression
finds a block (`blocksFrom_block`), where it finds none (`blocksFrom_skip`), and which names there
are on a right-hand side (`findall_name_append`, `findall_name_skip`).

The expression for a rule has many ways to match the white space before the colon. They all end at
the colon, as nothing but white space stands before it, and the first of them is taken.
-/

namespace FirebirdSamples.Grammar

open Regex

/-! ### Characters -/

theorem isSpace_of_isNameChar {x : Char} (h : isNameChar x = true) : isSpace x = false := by
  rw [isNameChar_iff] at h
  simp only [isSpace, Bool.or_eq_false_iff, Bool.and_eq_false_iff, decide_eq_false_iff_not,
    beq_eq_false_iff_ne]
  omega

theorem isNameChar_of_isSpace {x : Char} (h : isSpace x = true) : isNameChar x = false := by
  by_contra hname
  rw [isSpace_of_isNameChar (Bool.not_eq_false _ ▸ hname)] at h
  cases h

/-! ### Names on a right-hand side -/

/-- The text behind a name. -/
def afterName : Text → Option Text
  | [] => none
  | x :: t => if isNameStart x then some (t.dropWhile isNameChar) else none

theorem afterName_eq : afterName = behindRun isNameStart isNameChar := by
  funext s
  rcases s with _ | ⟨x, t⟩ <;> rfl

theorem finds_name : Finds name afterName := by
  rw [afterName_eq]
  exact finds_run isNameStart isNameChar

/-- The text does not go on with a character of a name. -/
def Breaks (t : Text) : Prop :=
  ∀ x u, t = x :: u → isNameChar x = false

theorem findall_name_skip {w : Text} (hw : ∀ x ∈ w, isNameStart x = false) (t : Text) :
    findall name (w ++ t) = findall name t := by
  induction w with
  | nil => rfl
  | cons x w ih =>
    have hx : afterName (x :: (w ++ t)) = none := by
      rw [afterName, hw x List.mem_cons_self]
      rfl
    rw [List.cons_append, finds_name.findall_skip hx]
    exact ih fun y hy ↦ hw y (List.mem_cons_of_mem x hy)

theorem dropWhile_name {n t : Text} (hn : ∀ x ∈ n, isNameChar x = true) (ht : Breaks t) :
    (n ++ t).dropWhile isNameChar = t := by
  rw [List.dropWhile_append_of_pos hn]
  rcases t with _ | ⟨x, u⟩
  · rfl
  · exact List.dropWhile_cons_of_neg (by rw [ht x u rfl]; decide)

theorem findall_name_append {n t : Text} (hn : IsName n) (ht : Breaks t) :
    findall name (n ++ t) = n :: findall name t := by
  rcases n with _ | ⟨x, n⟩
  · exact absurd hn (by exact id)
  · refine finds_name.findall_found ?_
    rw [List.cons_append, afterName, if_pos hn.1, dropWhile_name hn.2 ht]

/-! ### Blocks -/

/-- The blocks found from a place on, which is or is not the beginning of a line. -/
def blocksFrom (b : Bool) (s : Text) : List Refs :=
  ((scan rule b s).filterMap Sum.getRight?).map blockOf

theorem blocksIn_eq (body : Text) : blocksIn body = blocksFrom true body := rfl

/-- No block begins within a line, nor with anything but a name. -/
theorem blocksFrom_skip {b : Bool} {x : Char} (h : b = false ∨ isNameStart x = false) (t : Text) :
    blocksFrom b (x :: t) = blocksFrom (x == '\n') t := by
  have hnone : run rule ⟨b, x :: t, []⟩ = [] := by
    rw [rule, run_seq, run]
    rcases h with rfl | hx
    · rfl
    · have hname : run name ⟨b, x :: t, []⟩ = [] := by
        rw [name, run_seq, run_one_cons rfl, hx]
        rfl
      dsimp only
      split_ifs
      · rw [List.flatMap_singleton, run_seq, run_group, hname]
        rfl
      · rfl
  rw [blocksFrom, scan_skip hnone]
  rfl

/-- The part of the rule expression behind the name. -/
def ruleTail : Regex :=
  seq (star space) (seq (opt (lit '\n')) (seq (star space)
    (seq (lit ':') (seq (group (lazy any)) (lit ';')))))

theorem rule_eq : rule = seq bol (seq (group name) ruleTail) := rfl

/-- Behind a part of a name, a rule does not go on. -/
theorem run_ruleTail_of_isNameChar (c : Pos) (x : Char) (t : Text) (hrest : c.rest = x :: t)
    (hx : isNameChar x = true) : run ruleTail c = [] := by
  obtain ⟨b, s, g⟩ := c
  obtain rfl : s = x :: t := hrest
  have hne : ∀ y, isNameChar y = false → (x :: t).head? ≠ some y := by
    intro y hy heq
    rw [← Option.some.inj heq, hx] at hy
    cases hy
  have hstop : ∀ y u, x :: t = y :: u → isSpace y = false := by
    intro y u heq
    rw [← (List.cons.inj heq).1]
    exact isSpace_of_isNameChar hx
  rw [ruleTail, run_seq, space, run_star_one_stop hstop, List.flatMap_singleton, run_seq, opt,
    run_alt, run_lit_of_ne (hne '\n' (by decide)), List.nil_append, run_empty,
    List.flatMap_singleton, run_seq, run_star_one_stop hstop, List.flatMap_singleton, run_seq,
    run_lit_of_ne (hne ':' (by decide)), List.flatMap_nil]

/-- The preferred way to go on behind a name. -/
theorem head?_run_ruleTail {w rhs : Text} (hw : ∀ x ∈ w, isSpace x = true) (hrhs : ';' ∉ rhs)
    (b : Bool) (t : Text) (g : List Text) :
    (run ruleTail ⟨b, w ++ ':' :: (rhs ++ ';' :: t), g⟩).head? = some ⟨false, t, g ++ [rhs]⟩ := by
  have hcolon : ∀ y u, ':' :: (rhs ++ ';' :: t) = y :: u → isSpace y = false := by
    intro y u heq
    rw [← (List.cons.inj heq).1]
    decide
  have hdrop : (w ++ ':' :: (rhs ++ ';' :: t)).dropWhile isSpace = ':' :: (rhs ++ ';' :: t) := by
    rw [List.dropWhile_append_of_pos hw]
    exact List.dropWhile_cons_of_neg (by decide)
  obtain ⟨b', hb'⟩ := head?_run_star_one isSpace ⟨b, w ++ ':' :: (rhs ++ ';' :: t), g⟩
  rw [hdrop] at hb'
  obtain ⟨others, hothers⟩ := List.head?_eq_some_iff.1 hb'
  -- what is behind the colon, captured up to the semicolon
  have hcapture := head?_run_lazy_any_lit ⟨false, rhs ++ ';' :: t, g⟩ hrhs false t g
  rw [List.length_append, Nat.add_sub_cancel, List.take_left' rfl] at hcapture
  have hrun : run (seq (opt (lit '\n')) (seq (star space)
      (seq (lit ':') (seq (group (lazy any)) (lit ';'))))) ⟨b', ':' :: (rhs ++ ';' :: t), g⟩ =
      run (seq (group (lazy any)) (lit ';')) ⟨false, rhs ++ ';' :: t, g⟩ := by
    rw [run_seq, opt, run_alt, run_lit_of_ne (by simp), List.nil_append, run_empty,
      List.flatMap_singleton, run_seq, space, run_star_one_stop hcolon, List.flatMap_singleton,
      run_seq, run_lit_cons, List.flatMap_singleton]
    rfl
  rw [ruleTail, run_seq, space, hothers, List.flatMap_cons, ← space, hrun, run_seq, run_group,
    List.head?_append, hcapture]
  rfl

theorem breaks_of_isSpace {w t : Text} (hw : ∀ x ∈ w, isSpace x = true) (ht : Breaks t) :
    Breaks (w ++ t) := by
  rcases w with _ | ⟨y, w⟩
  · exact ht
  · intro x u heq
    rw [← (List.cons.inj heq).1]
    exact isNameChar_of_isSpace (hw y List.mem_cons_self)

theorem breaks_cons {x : Char} (hx : isNameChar x = false) (t : Text) : Breaks (x :: t) := by
  intro y u heq
  rwa [← (List.cons.inj heq).1]

/-- **A block**, at the beginning of a line. -/
theorem blocksFrom_block {n w rhs : Text} (hn : IsName n) (hw : ∀ x ∈ w, isSpace x = true)
    (hrhs : ';' ∉ rhs) (t : Text) :
    blocksFrom true (n ++ (w ++ ':' :: (rhs ++ ';' :: t))) =
      (n, findall name rhs) :: blocksFrom false t := by
  obtain ⟨v, hv⟩ : ∃ v, v = w ++ ':' :: (rhs ++ ';' :: t) := ⟨_, rfl⟩
  have hbreaks : Breaks v := by
    rw [hv]
    exact breaks_of_isSpace hw (breaks_cons (by decide) _)
  rcases n with _ | ⟨x, n⟩
  · exact absurd hn (by exact id)
  have hname : run name ⟨true, x :: (n ++ v), []⟩ =
      run (star (one isNameChar)) ⟨x == '\n', n ++ v, []⟩ := by
    rw [name, run_seq, run_one_cons rfl, if_pos hn.1, List.flatMap_singleton]
    rfl
  -- the name cannot stop early, as a rule does not go on with a character of a name
  obtain ⟨b, hb⟩ := flatMap_run_star_one
    (f := fun d ↦ run ruleTail (Pos.capture ⟨true, x :: (n ++ v), []⟩ d)) hn.2 hbreaks
    (fun d y u hrest hy ↦ run_ruleTail_of_isNameChar _ y u hrest hy) (x == '\n') []
  have hcapture : Pos.capture ⟨true, x :: (n ++ v), []⟩ ⟨b, v, []⟩ = ⟨b, v, [x :: n]⟩ := by
    have hlen : (x :: (n ++ v)).length - v.length = (x :: n).length := by
      rw [List.length_cons, List.length_append, List.length_cons]
      omega
    show (⟨b, v, [] ++ [(x :: (n ++ v)).take ((x :: (n ++ v)).length - v.length)]⟩ : Pos) = _
    rw [hlen, ← List.cons_append, List.take_left' rfl]
    rfl
  have hrun : (run rule ⟨true, x :: (n ++ v), []⟩).head? = some ⟨false, t, [x :: n, rhs]⟩ := by
    rw [rule_eq, run_seq, run, if_pos rfl, List.flatMap_singleton, run_seq, run_group, hname,
      List.flatMap_map, hb, hcapture, hv, head?_run_ruleTail hw hrhs]
    rfl
  have hlt : t.length < (x :: (n ++ v)).length := by
    rw [hv]
    simp only [List.length_cons, List.length_append]
    omega
  rw [← hv, blocksFrom, List.cons_append, scan_match hrun hlt]
  rfl

theorem isNameStart_of_isSpace {x : Char} (h : isSpace x = true) : isNameStart x = false := by
  by_contra hname
  have hchar := isNameChar_of_isNameStart (Bool.eq_true_of_not_eq_false hname)
  rw [isNameChar_of_isSpace h] at hchar
  cases hchar

/-- White space up to the end of a line, before what begins the next one. -/
theorem blocksFrom_space {w : Text} (hw : ∀ x ∈ w, isSpace x = true) (b : Bool) (t : Text) :
    blocksFrom b (w ++ '\n' :: t) = blocksFrom true t := by
  induction w generalizing b with
  | nil => exact blocksFrom_skip (Or.inr (by decide)) t
  | cons x w ih =>
    rw [List.cons_append,
      blocksFrom_skip (Or.inr (isNameStart_of_isSpace (hw x List.mem_cons_self)))]
    exact ih (fun y hy ↦ hw y (List.mem_cons_of_mem x hy)) _

theorem blocksFrom_of_isSpace {w : Text} (hw : ∀ x ∈ w, isSpace x = true) (b : Bool) :
    blocksFrom b w = [] := by
  induction w generalizing b with
  | nil => rfl
  | cons x w ih =>
    rw [blocksFrom_skip (Or.inr (isNameStart_of_isSpace (hw x List.mem_cons_self)))]
    exact ih (fun y hy ↦ hw y (List.mem_cons_of_mem x hy)) _

end FirebirdSamples.Grammar
