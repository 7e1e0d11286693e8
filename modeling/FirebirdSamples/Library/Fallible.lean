import Mathlib.Data.List.Basic

/-!
# Computations that may fail

Sequencing in `Except`: a computation behind a value goes on with it (`ok_bind`), and a sequence
that succeeds has a first part that does (`bind_eq_ok`). With these, a computation in many steps is
taken apart without unfolding the monad.
-/

namespace Fallible

variable {ε α β : Type}

theorem ok_bind (a : α) (f : α → Except ε β) : (Except.ok a >>= f) = f a := rfl

theorem error_bind (e : ε) (f : α → Except ε β) : (Except.error e >>= f) = .error e := rfl

theorem bind_eq_ok {x : Except ε α} {f : α → Except ε β} {b : β} :
    (x >>= f) = .ok b ↔ ∃ a, x = .ok a ∧ f a = .ok b := by
  rcases x with e | a
  · constructor
    · intro h
      cases h
    · rintro ⟨a, h, -⟩
      cases h
  · rw [ok_bind]
    constructor
    · exact fun h ↦ ⟨a, rfl, h⟩
    · rintro ⟨a', h, h'⟩
      rwa [Except.ok.inj h]

end Fallible
