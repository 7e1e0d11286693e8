import Mathlib.Data.Nat.Notation
import Mathlib.Logic.Relation

/-!
# Loops

A loop is given by its body, which takes the variables of the loop and either goes on with new ones,
returns, or fails. `Loop.run` runs it for a number of rounds and is `none` if they do not suffice;
a result does not change with more rounds (`run_mono`).

What a loop does is said with the variables it gets to (`Reaches`): it has a result exactly if it
gets to a round that returns or fails (`exists_run_ok_iff`, `exists_run_error_iff`). A loop with a
measure that decreases in each round has one (`exists_run`), so that such a loop returns exactly if
it gets to no round that fails (`returns_iff`).
-/

namespace Loop

variable {σ ε α : Type} {body : σ → Except ε (σ ⊕ α)} {s s' : σ}

/-- Run the body for at most `n` rounds. -/
def run (body : σ → Except ε (σ ⊕ α)) : ℕ → σ → Option (Except ε α)
  | 0, _ => none
  | n + 1, s =>
    match body s with
    | .ok (.inl s') => run body n s'
    | .ok (.inr a) => some (.ok a)
    | .error e => some (.error e)

/-- One round goes on. -/
def Next (body : σ → Except ε (σ ⊕ α)) (s s' : σ) : Prop :=
  body s = .ok (.inl s')

/-- The loop gets from `s` to `s'`. -/
abbrev Reaches (body : σ → Except ε (σ ⊕ α)) : σ → σ → Prop :=
  Relation.ReflTransGen (Next body)

theorem run_of_next {n : ℕ} (h : Next body s s') : run body (n + 1) s = run body n s' := by
  rw [run, show body s = .ok (.inl s') from h]

theorem run_of_ok {n : ℕ} {a : α} (h : body s = .ok (.inr a)) :
    run body (n + 1) s = some (.ok a) := by
  rw [run, h]

theorem run_of_error {n : ℕ} {e : ε} (h : body s = .error e) :
    run body (n + 1) s = some (.error e) := by
  rw [run, h]

/-- Running on from where the loop gets to. -/
theorem run_of_reaches (h : Reaches body s s') : ∃ k, ∀ n, run body (k + n) s = run body n s' := by
  induction h using Relation.ReflTransGen.head_induction_on with
  | refl => exact ⟨0, fun n ↦ by rw [Nat.zero_add]⟩
  | head hnext _ ih =>
    obtain ⟨k, hk⟩ := ih
    exact ⟨k + 1, fun n ↦ by rw [Nat.succ_add, run_of_next hnext, hk]⟩

/-- **Where a result comes from**: the loop has got to a round that returns or fails with it. -/
theorem exists_reaches_of_run {n : ℕ} {r : Except ε α} (h : run body n s = some r) :
    ∃ s', Reaches body s s' ∧ body s' = r.map .inr := by
  induction n generalizing s with
  | zero => cases h
  | succ n ih =>
    rw [run] at h
    split at h
    · next s' hnext =>
      obtain ⟨s'', hreaches, hresult⟩ := ih h
      exact ⟨s'', hreaches.head hnext, hresult⟩
    · next a ha =>
      cases h
      exact ⟨s, .refl, ha⟩
    · next e he =>
      cases h
      exact ⟨s, .refl, he⟩

theorem exists_run_of_reaches {r : Except ε α} (h : Reaches body s s')
    (hresult : body s' = r.map .inr) : ∃ n, run body n s = some r := by
  obtain ⟨k, hk⟩ := run_of_reaches h
  refine ⟨k + 1, (hk 1).trans ?_⟩
  rcases r with e | a
  · exact run_of_error hresult
  · exact run_of_ok hresult

theorem exists_run_ok_iff {a : α} :
    (∃ n, run body n s = some (.ok a)) ↔ ∃ s', Reaches body s s' ∧ body s' = .ok (.inr a) :=
  ⟨fun ⟨_, h⟩ ↦ exists_reaches_of_run h, fun ⟨_, h, hresult⟩ ↦ exists_run_of_reaches h hresult⟩

theorem exists_run_error_iff {e : ε} :
    (∃ n, run body n s = some (.error e)) ↔ ∃ s', Reaches body s s' ∧ body s' = .error e :=
  ⟨fun ⟨_, h⟩ ↦ exists_reaches_of_run h, fun ⟨_, h, hresult⟩ ↦ exists_run_of_reaches h hresult⟩

/-- A result does not change with more rounds. -/
theorem run_mono {n k : ℕ} {r : Except ε α} (h : run body n s = some r) (hk : n ≤ k) :
    run body k s = some r := by
  induction n generalizing s k with
  | zero => cases h
  | succ n ih =>
    obtain ⟨k, rfl⟩ := Nat.exists_eq_add_of_le' (Nat.le_trans (Nat.succ_le_succ (Nat.zero_le n)) hk)
    rw [run] at h ⊢
    split at h
    · exact ih h (Nat.le_of_succ_le_succ hk)
    · exact h
    · exact h

/-- A loop has at most one result. -/
theorem run_unique {n k : ℕ} {r r' : Except ε α} (h : run body n s = some r)
    (h' : run body k s = some r') : r = r' := by
  rcases Nat.le_total n k with hle | hle
  · exact Option.some.inj ((run_mono h hle).symm.trans h')
  · exact Option.some.inj (h.symm.trans (run_mono h' hle))

/-- A measure that decreases in each round bounds the number of rounds. -/
theorem exists_run_measure {μ : σ → ℕ} (hμ : ∀ s s', Next body s s' → μ s' < μ s) (s : σ) :
    ∃ r, run body (μ s + 1) s = some r := by
  induction hs : μ s using Nat.strongRecOn generalizing s with
  | ind k ih =>
    rcases hbody : body s with e | s' | a
    · exact ⟨_, run_of_error hbody⟩
    · have hlt : μ s' < k := hs ▸ hμ s s' hbody
      obtain ⟨r, hrun⟩ := ih (μ s') hlt s' rfl
      exact ⟨r, (run_of_next hbody).trans (run_mono hrun hlt)⟩
    · exact ⟨_, run_of_ok hbody⟩

/-- **A loop ends** if some measure decreases in each round. -/
theorem exists_run {μ : σ → ℕ} (hμ : ∀ s s', Next body s s' → μ s' < μ s) (s : σ) :
    ∃ n r, run body n s = some r :=
  ⟨_, exists_run_measure hμ s⟩

/-- **A loop that ends returns** exactly if it gets to no round that fails. -/
theorem returns_iff (μ : σ → ℕ) (hμ : ∀ s s', Next body s s' → μ s' < μ s) (s : σ) :
    (∃ n a, run body n s = some (.ok a)) ↔ ∀ s' e, Reaches body s s' → body s' ≠ .error e := by
  constructor
  · rintro ⟨n, a, hrun⟩ s' e hreaches herror
    obtain ⟨k, hrun'⟩ := exists_run_error_iff.2 ⟨s', hreaches, herror⟩
    cases run_unique hrun hrun'
  · intro h
    obtain ⟨n, e | a, hrun⟩ := exists_run hμ s
    · obtain ⟨s', hreaches, herror⟩ := exists_run_error_iff.1 ⟨n, hrun⟩
      exact absurd herror (h s' e hreaches)
    · exact ⟨n, a, hrun⟩

end Loop
