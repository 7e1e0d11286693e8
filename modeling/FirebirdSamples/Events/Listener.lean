import Mathlib.Data.Nat.Notation
import Mathlib.Tactic.ByContra
import Mathlib.Tactic.SplitIfs
import FirebirdSamples.Library.Transition

/-!
# Waiting for events

The class `Listener` of `samples/events_demo.cpp` is used by two threads. The event thread calls
`eventCallbackFunction` for each interest that is queued, which stores the counts it is given and
increments `fired`. The main thread queues interests (`requeue`) and waits (`wait`): it polls
`fired`, takes the counts, which makes them the new baseline, and clears `fired`.

A delivery between the last two steps is counted in `fired` and then cleared, and its counts are not
taken. If none comes there, and `fired` does not overflow, then counts that have not been taken are
announced by `fired`, and the next wait reports them (`outstanding_reported`).
-/

namespace FirebirdSamples.Events

open Transition

/-- Where the main thread stands. -/
inductive MainThread where
  /-- Outside of `wait`. -/
  | free
  /-- At the condition of the loop. -/
  | polling (timeoutMs waited : UInt32)
  /-- Behind the loop. -/
  | testing
  /-- At `isc_event_counts`. -/
  | counting
  /-- At the assignment to `fired`. -/
  | clearing (total : UInt32)
deriving DecidableEq

/-- Where the event thread stands. -/
inductive EventThread where
  /-- Outside of `eventCallbackFunction`. -/
  | idle
  /-- At the increment of `fired`. -/
  | stored
deriving DecidableEq

/-- A listener for one event name. Of the two buffers, only the count of the event matters. -/
structure Listener where
  fired : Int32
  /-- The count in the buffer with the baseline. -/
  eveBuffer : UInt32
  /-- The count in the buffer that the callback writes. -/
  eveResult : UInt32
  /-- The number of interests that are queued and not yet delivered. -/
  live : ℕ
  /-- What the last call of `wait` has returned. -/
  returned : UInt32
  main : MainThread
  event : EventThread
deriving DecidableEq

namespace Listener

/-- The listener behind the constructor, which queues an interest. -/
def constructed : Listener where
  fired := 0
  eveBuffer := 0
  eveResult := 0
  live := 1
  returned := 0
  main := .free
  event := .idle

/-- What the two threads do. -/
inductive Action where
  | requeue
  | wait (timeoutMs : UInt32)
  /-- The next step of the wait. -/
  | proceed
  /-- The callback, up to the increment. -/
  | store (length : ℕ) (count : UInt32)
  | increment

/-- The next step of a wait. -/
def proceed (s : Listener) : Option Listener :=
  match s.main with
  | .free => none
  | .polling timeoutMs waited =>
    if s.fired = 0 ∧ waited < timeoutMs then
      some { s with main := .polling timeoutMs (waited + 50) }
    else
      some { s with main := .testing }
  | .testing =>
    if s.fired = 0 then
      some { s with main := .free, returned := 0 }
    else
      some { s with main := .counting }
  | .counting =>
    some { s with main := .clearing (s.eveResult - s.eveBuffer), eveBuffer := s.eveResult }
  | .clearing total =>
    some { s with main := .free, fired := 0, returned := total }

/-- The count behind `memcpy`, which is not called for a block that is too long. -/
def stored (eveLen : ℕ) (s : Listener) (length : ℕ) (count : UInt32) : UInt32 :=
  if length ≤ eveLen then count else s.eveResult

/-- What an action does. -/
def step (eveLen : ℕ) (s : Listener) : Action → Option Listener
  | .requeue =>
    if s.main = .free then
      some { s with live := s.live + 1 }
    else
      none
  | .wait timeoutMs =>
    if s.main = .free then
      some { s with main := .polling timeoutMs 0 }
    else
      none
  | .proceed => s.proceed
  | .store length count =>
    if s.event = .idle ∧ 0 < s.live then
      some { s with
        live := s.live - 1
        event := .stored
        eveResult := s.stored eveLen length count }
    else
      none
  | .increment =>
    if s.event = .stored then
      some { s with fired := s.fired + 1, event := .idle }
    else
      none

/-! ### What is not lost -/

/-- There are counts that have not been taken. -/
def Outstanding (s : Listener) : Prop :=
  s.eveResult ≠ s.eveBuffer

/-- Outside of a wait, counts that have not been taken are announced. -/
def Announced (s : Listener) : Prop :=
  s.main = .free → s.Outstanding → s.fired ≠ 0

/-- The wait is about to return. -/
def Returns (s : Listener) : Prop :=
  s.main = .testing ∧ s.fired = 0 ∨ ∃ total, s.main = .clearing total

/-- The condition on actions: `fired` is not cleared over counts that a complete delivery has stored
behind `isc_event_counts`, and does not overflow to zero over counts that have not been taken. -/
def Timely (s : Listener) : Action → Prop
  | .proceed => ∀ total, s.main = .clearing total → s.event = .idle → ¬ s.Outstanding
  | .increment => s.fired + 1 = 0 → ¬ s.Outstanding
  | _ => True

/-- The condition that the two steps of a callback are not seen apart: no wait returns between them,
and outside of a wait the first one stores new counts only if `fired` is set already. -/
def Together (eveLen : ℕ) (s : Listener) : Action → Prop
  | .proceed => s.Returns → s.event = .idle
  | .store length count =>
    s.main = .free → s.fired = 0 → s.stored eveLen length count = s.eveBuffer
  | _ => True

/-- What carries the result: counts are announced outside of a callback, at every step of a wait. -/
def Sound (s : Listener) : Prop :=
  s.event = .idle → s.Outstanding → s.fired ≠ 0

variable {eveLen : ℕ} {s s' : Listener} {a : Action}

/-- What a step of a wait can do. -/
theorem proceed_cases (h : s.proceed = some s') :
    (s.main ≠ .free ∧ ¬ s.Returns ∧ ∃ main, main ≠ .free ∧ s' = { s with main := main }) ∨
      (s.main = .testing ∧ s.fired = 0 ∧ s' = { s with main := .free, returned := 0 }) ∨
      (s.main = .counting ∧ s' = { s with
        main := .clearing (s.eveResult - s.eveBuffer), eveBuffer := s.eveResult }) ∨
      ∃ total, s.main = .clearing total ∧
        s' = { s with main := .free, fired := 0, returned := total } := by
  rw [proceed] at h
  split at h
  · cases h
  · next hmain =>
    refine Or.inl ⟨by simp [hmain], by simp [Returns, hmain], ?_⟩
    split_ifs at h with hpoll
    · exact ⟨_, by simp, (Option.some.inj h).symm⟩
    · exact ⟨_, by simp, (Option.some.inj h).symm⟩
  · next hmain =>
    split_ifs at h with hfired
    · exact Or.inr (Or.inl ⟨hmain, hfired, (Option.some.inj h).symm⟩)
    · exact Or.inl ⟨by simp [hmain], by simp [Returns, hmain, hfired], _, by simp,
        (Option.some.inj h).symm⟩
  · next hmain => exact Or.inr (Or.inr (Or.inl ⟨hmain, (Option.some.inj h).symm⟩))
  · next total hmain => exact Or.inr (Or.inr (Or.inr ⟨total, hmain, (Option.some.inj h).symm⟩))

/-- A timely action keeps counts announced. -/
theorem sound_step (hsound : s.Sound) (htimely : s.Timely a) (h : step eveLen s a = some s') :
    s'.Sound := by
  cases a with
  | requeue | wait =>
    rw [step] at h
    split_ifs at h
    obtain rfl := Option.some.inj h
    exact hsound
  | proceed =>
    obtain ⟨-, -, main, -, rfl⟩ | ⟨-, -, rfl⟩ | ⟨-, rfl⟩ | ⟨total, hmain, rfl⟩ := proceed_cases h
    · exact hsound
    · exact hsound
    -- behind `isc_event_counts` nothing is outstanding
    · exact fun _ hout ↦ absurd rfl hout
    -- `fired` is cleared whatever has come since; the action is timely if nothing has
    · exact fun hidle hout ↦ absurd hout (htimely total hmain hidle)
  | store length count =>
    rw [step] at h
    split_ifs at h
    obtain rfl := Option.some.inj h
    exact fun hidle ↦ nomatch hidle
  | increment =>
    rw [step] at h
    split_ifs at h
    obtain rfl := Option.some.inj h
    -- the counter may wrap around to zero
    exact fun _ hout hzero ↦ htimely hzero hout

/-- If the two steps of a callback are not seen apart, counts are announced within it, too. -/
theorem announced_step (hsound : s.Sound) (hannounced : s.Announced) (htimely : s.Timely a)
    (htogether : s.Together eveLen a) (h : step eveLen s a = some s') : s'.Announced := by
  cases a with
  | requeue =>
    rw [step] at h
    split_ifs at h
    obtain rfl := Option.some.inj h
    exact hannounced
  | wait timeoutMs =>
    rw [step] at h
    split_ifs at h
    obtain rfl := Option.some.inj h
    exact fun hfree ↦ nomatch hfree
  | proceed =>
    obtain ⟨-, -, main, hmain, rfl⟩ | ⟨hmain, hfired, rfl⟩ | ⟨-, rfl⟩ | ⟨total, hmain, rfl⟩ :=
      proceed_cases h
    · exact fun hfree ↦ absurd hfree hmain
    · exact fun _ hout ↦ hsound (htogether (Or.inl ⟨hmain, hfired⟩)) hout
    · exact fun hfree ↦ nomatch hfree
    · exact fun _ hout ↦ absurd hout (htimely total hmain (htogether (Or.inr ⟨total, hmain⟩)))
  | store length count =>
    rw [step] at h
    split_ifs at h
    obtain rfl := Option.some.inj h
    exact fun hfree hout hzero ↦ hout (htogether hfree hzero)
  | increment =>
    rw [step] at h
    split_ifs at h
    obtain rfl := Option.some.inj h
    exact fun _ hout hzero ↦ htimely hzero hout

/-- A wait that finds `fired` set returns the counts that have not been taken. -/
theorem run_wait (hfree : s.main = .free) (hfired : s.fired ≠ 0) (timeoutMs : UInt32) :
    run (step eveLen) s [.wait timeoutMs, .proceed, .proceed, .proceed, .proceed] =
      some { s with
        fired := 0
        eveBuffer := s.eveResult
        returned := s.eveResult - s.eveBuffer } := by
  simp [run, step, proceed, hfree, hfired]

/-- **No delivery is lost** as long as no complete delivery comes between `isc_event_counts` and the
clearing of `fired` in a wait, and `fired` does not overflow to zero: whenever no wait and no
callback is in progress, counts that have not been taken are announced, and the next wait returns
them without another delivery. If the two steps of a callback are not seen apart, this is so also
within a callback. -/
theorem outstanding_reported (eveLen : ℕ) :
    (∀ s, Reaches (step eveLen) Timely constructed s → s.event = .idle → s.Announced ∧
      (s.main = .free → s.Outstanding → ∀ timeoutMs, ∃ s',
        run (step eveLen) s [.wait timeoutMs, .proceed, .proceed, .proceed, .proceed] = some s' ∧
          s'.main = .free ∧ s'.returned = s.eveResult - s.eveBuffer)) ∧
    ∀ s, Reaches (step eveLen) (fun s a ↦ s.Timely a ∧ s.Together eveLen a) constructed s →
      s.Announced := by
  constructor
  · intro s hs hidle
    have hsound : s.Sound :=
      hs.invariant (fun _ hout ↦ absurd rfl hout) fun _ _ _ hsound htimely h ↦
        sound_step hsound htimely h
    refine ⟨fun _ hout ↦ hsound hidle hout, fun hfree hout timeoutMs ↦ ?_⟩
    exact ⟨_, run_wait hfree (hsound hidle hout) timeoutMs, hfree, rfl⟩
  · intro s hs
    have hboth : s.Sound ∧ s.Announced :=
      hs.invariant (I := fun s ↦ s.Sound ∧ s.Announced)
        ⟨fun _ hout ↦ absurd rfl hout, fun _ hout ↦ absurd rfl hout⟩
        fun _ _ _ hboth hmeets h ↦ ⟨sound_step hboth.1 hmeets.1 h,
          announced_step hboth.1 hboth.2 hmeets.1 hmeets.2 h⟩
    exact hboth.2

/-- A delivery of one post outside of a wait. -/
theorem outstanding_reported_of_delivery :
    ∃ s : Listener, s.main = .free ∧ s.Outstanding ∧ s.Announced := by
  have hs : Reaches (step 32) Timely constructed ⟨1, 0, 1, 0, 0, .free, .idle⟩ :=
    .tail (.tail .refl (a := .store 32 1) trivial rfl) (a := .increment)
      (fun h ↦ absurd h (by decide)) rfl
  exact ⟨⟨1, 0, 1, 0, 0, .free, .idle⟩, rfl, show (1 : UInt32) ≠ 0 by decide,
    ((outstanding_reported 32).1 _ hs rfl).1⟩

/-- The condition on a wait cannot be left out: where it does not hold, counts are left behind that
nothing announces. -/
theorem not_announced_of_not_timely (hnot : ¬ s.Timely .proceed) :
    ∃ s', step eveLen s .proceed = some s' ∧ s'.event = .idle ∧ ¬ s'.Announced := by
  rw [Timely] at hnot
  obtain ⟨total, hmain, hidle, hout⟩ : ∃ total, s.main = .clearing total ∧ s.event = .idle ∧
      s.Outstanding := by
    by_contra hcontra
    exact hnot fun total hmain hidle hout ↦ hcontra ⟨total, hmain, hidle, hout⟩
  refine ⟨{ s with main := .free, fired := 0, returned := total }, ?_, hidle,
    fun h ↦ h rfl hout rfl⟩
  rw [step, proceed, hmain]

/-- A second delivery comes behind `isc_event_counts`, with two interests queued: it is lost, and
nothing is queued that could announce it. -/
theorem not_announced_of_late_delivery :
    ∃ s, Reachable (step 32) constructed s ∧ s.event = .idle ∧ s.live = 0 ∧ ¬ s.Announced := by
  refine ⟨⟨0, 1, 2, 0, 1, .free, .idle⟩, reaches_of_run [.wait 0, .proceed, .proceed,
    .requeue, .store 32 1, .increment, .wait 0, .proceed, .proceed, .proceed, .store 32 2,
    .increment, .proceed] rfl, rfl, rfl, fun h ↦ ?_⟩
  exact h rfl (show (2 : UInt32) ≠ 1 by decide) rfl

end Listener

end FirebirdSamples.Events
