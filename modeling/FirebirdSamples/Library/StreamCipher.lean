import Mathlib.Data.List.Basic
import Mathlib.Data.Nat.Notation
import Mathlib.Logic.Function.Iterate

/-!
# Keystream ciphers

A keystream generator is a state machine that emits one key symbol per step and never looks at the
data. Enciphering a list mixes each symbol with the next key symbol. From these two clauses alone:

* `transform_append` — cutting the data into pieces does not matter, as long as the pieces are
  passed through one generator in order;
* `transform_state` — the state reached depends on how many symbols were processed and on
  nothing else; and
* `transform_transform` — when mixing twice with one key symbol is the identity, a generator in
  the same state deciphers, and ends in the same state.

`transformAll` passes pieces through one generator, call by call. What a call keeps of the state,
all of them keep (`invariant_transformAll`).
-/

namespace StreamCipher

variable {σ κ β : Type} (next : σ → κ × σ) (mix : β → κ → β)

/-- Mix each symbol with the next key symbol; returns the output and the state after it. -/
def transform : σ → List β → List β × σ
  | s, [] => ([], s)
  | s, b :: bs =>
    let rest := transform (next s).2 bs
    (mix b (next s).1 :: rest.1, rest.2)

@[simp] theorem transform_nil (s : σ) : transform next mix s [] = ([], s) := rfl

theorem transform_cons (s : σ) (b : β) (bs : List β) :
    transform next mix s (b :: bs) =
      (mix b (next s).1 :: (transform next mix (next s).2 bs).1,
        (transform next mix (next s).2 bs).2) := rfl

@[simp] theorem length_transform (s : σ) (bs : List β) :
    (transform next mix s bs).1.length = bs.length := by
  induction bs generalizing s with
  | nil => rfl
  | cons b bs ih => rw [transform_cons, List.length_cons, List.length_cons, ih]

/-- **Cutting does not matter**: two pieces in order are the whole. -/
theorem transform_append (s : σ) (bs cs : List β) :
    transform next mix s (bs ++ cs) =
      ((transform next mix s bs).1 ++ (transform next mix (transform next mix s bs).2 cs).1,
        (transform next mix (transform next mix s bs).2 cs).2) := by
  induction bs generalizing s with
  | nil => rfl
  | cons b bs ih =>
    rw [List.cons_append, transform_cons, transform_cons, ih]
    rfl

/-- The state depends on the number of symbols only. -/
theorem transform_state (s : σ) (bs : List β) :
    (transform next mix s bs).2 = (fun t ↦ (next t).2)^[bs.length] s := by
  induction bs generalizing s with
  | nil => rfl
  | cons b bs ih => rw [transform_cons, List.length_cons, Function.iterate_succ_apply, ih]

/-- **A generator in the same state deciphers**, and ends in the same state. -/
theorem transform_transform (hmix : ∀ b k, mix (mix b k) k = b) (s : σ) (bs : List β) :
    transform next mix s (transform next mix s bs).1 = (bs, (transform next mix s bs).2) := by
  induction bs generalizing s with
  | nil => rfl
  | cons b bs ih => rw [transform_cons, transform_cons, hmix, ih]

/-! ### Call after call -/

/-- Pass pieces through one generator, in order; returns the outputs and the state at the end. -/
def transformAll : σ → List (List β) → List (List β) × σ
  | s, [] => ([], s)
  | s, bs :: pieces =>
    let first := transform next mix s bs
    let rest := transformAll first.2 pieces
    (first.1 :: rest.1, rest.2)

/-- **Call after call is one call** on everything. -/
theorem transformAll_eq (s : σ) (pieces : List (List β)) :
    (transformAll next mix s pieces).1.flatten = (transform next mix s pieces.flatten).1 ∧
      (transformAll next mix s pieces).2 = (transform next mix s pieces.flatten).2 := by
  induction pieces generalizing s with
  | nil => exact ⟨rfl, rfl⟩
  | cons bs pieces ih =>
    obtain ⟨hout, hstate⟩ := ih (transform next mix s bs).2
    rw [List.flatten_cons, transform_append, transformAll]
    exact ⟨congrArg _ hout, hstate⟩

/-- What a step keeps of the state. -/
theorem invariant_transform {P : σ → Prop} (hnext : ∀ s, P s → P (next s).2) {s : σ} (hs : P s)
    (bs : List β) : P (transform next mix s bs).2 := by
  induction bs generalizing s with
  | nil => exact hs
  | cons b bs ih =>
    rw [transform_cons]
    exact ih (hnext s hs)

theorem invariant_transformAll {P : σ → Prop} (hnext : ∀ s, P s → P (next s).2) {s : σ} (hs : P s)
    (pieces : List (List β)) : P (transformAll next mix s pieces).2 := by
  rw [(transformAll_eq next mix s pieces).2]
  exact invariant_transform next mix hnext hs pieces.flatten

end StreamCipher
