import Mathlib.Data.Nat.Notation
import Mathlib.Logic.Basic

/-!
# Transition systems

Parties that take turns in any order are one function `step`: `step s a` is the state behind the
action `a`, or `none` if `a` is not possible in `s`. What is reached is a relation (`Reaches`), with
a condition that all actions on the way meet, so that it has an induction rule
(`Reaches.invariant`); what a given sequence of actions leads to can be computed (`run`), and is
reached (`reaches_of_run`). If the actions that do not meet the condition are fatal, then what is
alive is what is reached (`Reaches.alive_iff`).
-/

namespace Transition

variable {σ α : Type} {step : σ → α → Option σ} {C : σ → α → Prop} {s t u : σ}

/-- `t` is reached from `s` by actions that meet the condition. -/
inductive Reaches (step : σ → α → Option σ) (C : σ → α → Prop) (s : σ) : σ → Prop
  | refl : Reaches step C s s
  | tail {t u : σ} {a : α} : Reaches step C s t → C t a → step t a = some u → Reaches step C s u

/-- `t` is reached from `s`. -/
abbrev Reachable (step : σ → α → Option σ) : σ → σ → Prop :=
  Reaches step fun _ _ ↦ True

/-- **Invariants**: what holds at the start and is kept by each action that meets the condition
holds in all states reached by such actions. -/
theorem Reaches.invariant {I : σ → Prop} (h : Reaches step C s t) (hstart : I s)
    (hstep : ∀ t a u, I t → C t a → step t a = some u → I u) : I t := by
  induction h with
  | refl => exact hstart
  | tail _ hmeets hnext ih => exact hstep _ _ _ ih hmeets hnext

theorem Reaches.trans (h : Reaches step C s t) (h' : Reaches step C t u) : Reaches step C s u := by
  induction h' with
  | refl => exact h
  | tail _ hmeets hnext ih => exact ih.tail hmeets hnext

/-- **Fatal actions**: if nothing follows them, and no other action kills, then what is alive is
what is reached without one. -/
theorem Reaches.alive_iff {P : σ → Prop} (h : Reachable step s t) (hs : P s)
    (hdead : ∀ {t a u}, step t a = some u → P t)
    (hkeep : ∀ {t a u}, Reaches step C s t → C t a → step t a = some u → P u)
    (hfatal : ∀ {t a u}, Reaches step C s t → ¬ C t a → step t a = some u → ¬ P u) :
    P t ↔ Reaches step C s t := by
  constructor
  · induction h with
    | refl => exact fun _ ↦ .refl
    | @tail t u a _ _ hnext ih =>
      intro halive
      have hreaches := ih (hdead hnext)
      by_cases hmeets : C t a
      · exact hreaches.tail hmeets hnext
      · exact absurd halive (hfatal hreaches hmeets hnext)
  · intro h
    rcases h with _ | ⟨h, hmeets, hnext⟩
    · exact hs
    · exact hkeep h hmeets hnext

/-! ### Runs -/

/-- The state behind a sequence of actions. -/
def run (step : σ → α → Option σ) : σ → List α → Option σ
  | s, [] => some s
  | s, a :: as =>
    match step s a with
    | none => none
    | some t => run step t as

/-- What a run leads to is reached. -/
theorem reaches_of_run (as : List α) (h : run step s as = some t) : Reachable step s t := by
  induction as generalizing s with
  | nil =>
    obtain rfl := Option.some.inj h
    exact .refl
  | cons a as ih =>
    rw [run] at h
    rcases hnext : step s a with _ | u
    · rw [hnext] at h
      cases h
    · rw [hnext] at h
      exact (Reaches.refl.tail trivial hnext).trans (ih h)

/-- Where each action costs something, a run is no longer than what there is at its start. -/
theorem length_add_le_of_run {cost : σ → ℕ} (hcost : ∀ {s a t}, step s a = some t → cost t < cost s)
    (as : List α) (h : run step s as = some t) : as.length + cost t ≤ cost s := by
  induction as generalizing s with
  | nil =>
    obtain rfl := Option.some.inj h
    exact Nat.le_of_eq (Nat.zero_add _)
  | cons a as ih =>
    rw [run] at h
    rcases hnext : step s a with _ | u
    · rw [hnext] at h
      cases h
    · rw [hnext] at h
      have hrest := ih h
      have hlt := hcost hnext
      rw [List.length_cons]
      omega

theorem exists_reachable_of_run {β : Type} {f : σ → β} {b : β} (as : List α)
    (h : (run step s as).map f = some b) : ∃ t, Reachable step s t ∧ f t = b := by
  obtain ⟨t, ht, hb⟩ := Option.map_eq_some_iff.1 h
  exact ⟨t, reaches_of_run as ht, hb⟩

end Transition
