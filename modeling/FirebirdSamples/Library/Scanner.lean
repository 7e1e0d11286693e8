import Mathlib.Data.List.Basic
import Mathlib.Data.Nat.Notation

/-!
# Scanners

A scanner reads a text from left to right and emits tokens, with a state that says what it is in
the middle of. `scan` is the list of tokens of a text, or nothing if the text ends where a token may
not. A text in two parts is scanned part by part (`scan_append`): the second part is scanned from
the state in which the first one is left.

A quoted text may contain the delimiter if it is doubled, and `double` writes it so. A text that is
pasted between delimiters as it stands is read back only if it has no delimiter
(`notMem_of_append_eq_double`).
-/

/-- A scanner for texts over `α`, with tokens `β` and states `σ`. -/
structure Scanner (σ α β : Type) where
  /-- The tokens that a character completes, and the state behind it. -/
  step : σ → α → List β × σ
  /-- The tokens that the end of the text completes; `none` where the text may not end. -/
  finish : σ → Option (List β)

namespace Scanner

variable {σ α β : Type} (m : Scanner σ α β)

/-- The tokens of a text, from a state on. -/
def scan : σ → List α → Option (List β)
  | s, [] => m.finish s
  | s, x :: xs => (scan (m.step s x).2 xs).map ((m.step s x).1 ++ ·)

/-- The tokens completed within a text. -/
def emitted : σ → List α → List β
  | _, [] => []
  | s, x :: xs => (m.step s x).1 ++ emitted (m.step s x).2 xs

/-- The state behind a text. -/
def after : σ → List α → σ
  | s, [] => s
  | s, x :: xs => after (m.step s x).2 xs

theorem scan_cons (s : σ) (x : α) (xs : List α) :
    m.scan s (x :: xs) = (m.scan (m.step s x).2 xs).map ((m.step s x).1 ++ ·) :=
  rfl

/-- A character that completes nothing. -/
theorem scan_cons_of_step {s s' : σ} {x : α} (h : m.step s x = ([], s')) (xs : List α) :
    m.scan s (x :: xs) = m.scan s' xs := by
  rw [scan_cons, h]
  exact congrFun Option.map_id _

theorem after_append (s : σ) (xs ys : List α) :
    m.after s (xs ++ ys) = m.after (m.after s xs) ys := by
  induction xs generalizing s with
  | nil => rfl
  | cons x xs ih => exact ih _

theorem emitted_append (s : σ) (xs ys : List α) :
    m.emitted s (xs ++ ys) = m.emitted s xs ++ m.emitted (m.after s xs) ys := by
  induction xs generalizing s with
  | nil => rfl
  | cons x xs ih =>
    rw [List.cons_append, emitted, ih, ← List.append_assoc]
    rfl

/-- **A text in two parts.** -/
theorem scan_append (s : σ) (xs ys : List α) :
    m.scan s (xs ++ ys) = (m.scan (m.after s xs) ys).map (m.emitted s xs ++ ·) := by
  induction xs generalizing s with
  | nil => exact (congrFun Option.map_id _).symm
  | cons x xs ih =>
    rw [List.cons_append, scan_cons, ih, Option.map_map]
    refine congrArg (Option.map · _) (funext fun ts ↦ ?_)
    exact (List.append_assoc _ _ _).symm

end Scanner

/-! ### Doubled delimiters -/

namespace Scanner

variable {α : Type} [DecidableEq α] {q : α}

/-- A text with each delimiter doubled. -/
def double (q : α) (t : List α) : List α :=
  t.flatMap fun x ↦ if x = q then [q, q] else [x]

@[simp] theorem double_nil : double q [] = [] := rfl

theorem double_cons_self (t : List α) : double q (q :: t) = q :: q :: double q t := by
  rw [double, List.flatMap_cons, if_pos rfl]
  rfl

theorem double_cons_of_ne {x : α} (hx : x ≠ q) (t : List α) :
    double q (x :: t) = x :: double q t := by
  rw [double, List.flatMap_cons, if_neg hx]
  rfl

theorem double_eq_self {t : List α} (h : q ∉ t) : double q t = t := by
  induction t with
  | nil => rfl
  | cons x t ih =>
    obtain ⟨hx, ht⟩ := not_or.1 fun hmem ↦ h (List.mem_cons.2 hmem)
    rw [double_cons_of_ne (Ne.symm hx), ih ht]

/-- **What is pasted is not what is read**, unless it has no delimiter. The delimiters in front are
those that the text has fallen behind by. -/
theorem notMem_of_append_eq_double {t rest s : List α} {n : ℕ} (hrest : rest.head? ≠ some q)
    (h : t ++ q :: rest = List.replicate n q ++ (double q t ++ q :: s)) : n = 0 ∧ q ∉ t := by
  induction t generalizing n with
  | nil =>
    rcases n with _ | n
    · exact ⟨rfl, List.not_mem_nil⟩
    · have htail := (List.cons.inj h).2
      rw [htail] at hrest
      rcases n with _ | n <;> exact absurd rfl hrest
  | cons x t ih =>
    by_cases hx : x = q
    · subst hx
      -- one delimiter is read, and two were meant
      have hall : x :: (t ++ x :: rest) =
          x :: (List.replicate (n + 1) x ++ (double x t ++ x :: s)) := by
        refine h.trans ?_
        rw [double_cons_self, ← List.cons_append, ← List.replicate_succ, List.replicate_succ',
          List.replicate_succ', List.append_assoc, List.append_assoc]
        rfl
      exact absurd (ih (List.cons.inj hall).2).1 (Nat.succ_ne_zero n)
    · rcases n with _ | n
      · rw [double_cons_of_ne hx] at h
        obtain ⟨-, ht⟩ := ih (n := 0) (List.cons.inj h).2
        exact ⟨rfl, fun hmem ↦ (List.mem_cons.1 hmem).elim (Ne.symm hx) ht⟩
      · exact absurd (List.cons.inj h).1 hx

end Scanner
