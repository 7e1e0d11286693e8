import Mathlib.Data.List.Basic
import Mathlib.Data.Nat.Notation
import Mathlib.Logic.Function.Basic
import Mathlib.Tactic.SplitIfs
import FirebirdSamples.Threads.Helpers

/-!
# A deadlock and its victim

The sample `lock_manager` in two acts. In the first, a transaction holds a table while another
attachment asks for it in three ways, the last time until a thread (`releaser`) commits the holder.
In the second, two transactions update a row each and then the row of the other, one of them in a
thread of its own (`crossA`): neither update can go on, until the engine picks a victim, whose
transaction is rolled back in a handler.

Any call may fail at any time. What keeps a process alive and its transactions in order is stated
for all runs (`deadlock_broken`): no call is ever made in a transaction that has ended, one of the
two is a victim, and nobody waits for what will not come, apart from a holder that could not be
committed. The three threads go through `Phase`s, of which only two have a thread besides the main
one, and what a thread does in its phase is one lemma each.
-/

namespace FirebirdSamples.Threads.LockManager

open Transition

/-! ### The process -/

/-- The transactions that are kept in a variable. -/
inductive Tra where
  /-- `hold`, which has reserved the table. -/
  | hold
  /-- `ta` -/
  | a
  /-- `tb` -/
  | b
  deriving DecidableEq

/-- What has become of a transaction. -/
inductive Status where
  | unborn
  | active
  | ended
  deriving DecidableEq

/-- How the table is asked for. -/
inductive Mode where
  | noWait
  | lockTimeout
  | wait
  deriving DecidableEq

/-- A line of the output. -/
inductive Line where
  | holder
  | granted (m : Mode)
  | failed (m : Mode)
  | committed
  | building
  | aFailed
  /-- B's update proceeded (A was the victim). -/
  | bProceeded
  | bFailed
  | undetected
  deriving DecidableEq

deriving instance DecidableEq for EngineCall

/-- A call in front of the first act. -/
structure Preparation where
  call : EngineCall
  /-- In a `try` block of its own with an empty handler. -/
  tolerated : Bool
  deriving DecidableEq

/-- The calls in front of the first act. The last one, which reserves the table, is left out. -/
def preparations : List Preparation :=
  [⟨.attachOrCreate, false⟩, ⟨.attach, false⟩, ⟨.start, false⟩, ⟨.exec, true⟩, ⟨.commit, false⟩,
    ⟨.start, false⟩, ⟨.exec, false⟩, ⟨.commit, false⟩, ⟨.start, false⟩, ⟨.exec, false⟩,
    ⟨.exec, false⟩, ⟨.commit, false⟩]

/-- Where the main thread stands: at a call to the engine, or at a join. -/
inductive Main where
  /-- In front of the first act; with no call left, at the one that reserves the table. -/
  | preparing (rest : List Preparation)
  /-- In `probe`. -/
  | probe (m : Mode)
  /-- In `probe`, where the table has been granted. -/
  | commitProbe (m : Mode)
  | joinReleaser
  | startA
  | startB
  | updateA
  | updateB
  /-- At the second update of B. -/
  | crossB
  /-- In the handler behind it. -/
  | rollbackB
  | joinCross
  | endA
  | endB
  /-- In the handler of `main`. -/
  | reporting
  | returned (code : ℤ)
  deriving DecidableEq

/-- The main thread is at a call behind which an exception leaves the `try` block. -/
def Main.leaves : Main → Bool
  | .preparing _ | .startA | .startB | .updateA | .updateB | .endA | .endB => true
  | _ => false

/-- Where `releaser` stands. -/
inductive Releaser where
  | committing
  | finished
  | joined
  deriving DecidableEq

/-- Where `crossA` stands. -/
inductive CrossA where
  /-- At the second update of A. -/
  | updating
  /-- In the handler behind it. -/
  | rollingBack
  | finished
  | joined
  deriving DecidableEq

/-- The process. -/
structure State where
  main : Main
  /-- The thread, if it has been started. -/
  releaser : Option Releaser
  crossA : Option CrossA
  status : Tra → Status
  aVictim : Bool
  bVictim : Bool
  printed : List Line
  /-- A call has been made in a transaction that was not active. -/
  misused : Bool
  terminated : Bool

/-- The process at the beginning of the `try` block. -/
def start : State where
  main := .preparing preparations
  releaser := none
  crossA := none
  status _ := .unborn
  aVictim := false
  bVictim := false
  printed := []
  misused := false
  terminated := false

/-! ### Its steps -/

/-- How a call ends. -/
inductive Outcome where
  | returns
  /-- The table is held by another transaction, or the call waits in a cycle. -/
  | refused
  /-- Any other error. -/
  | fails
  deriving DecidableEq

/-- A step of one of the threads. -/
inductive Action where
  | main (o : Outcome)
  | releaser (o : Outcome)
  | crossA (o : Outcome)

/-- The outcome of its call. -/
def Action.outcome : Action → Outcome
  | .main o | .releaser o | .crossA o => o

namespace State

/-- A call is made in a transaction. -/
def use (s : State) (x : Tra) : State :=
  { s with misused := s.misused || s.status x ≠ .active }

/-- A transaction is committed or rolled back. -/
def finish (s : State) (x : Tra) : State :=
  { s.use x with status := Function.update s.status x .ended }

/-- A transaction is started. -/
def begin (s : State) (x : Tra) : State :=
  { s with status := Function.update s.status x .active }

def print (s : State) (line : Line) : State :=
  { s with printed := s.printed ++ [line] }

/-- A thread is left that has not been joined. -/
def Joinable (s : State) : Prop :=
  (s.releaser ≠ none ∧ s.releaser ≠ some .joined) ∨ (s.crossA ≠ none ∧ s.crossA ≠ some .joined)

instance (s : State) : Decidable s.Joinable :=
  inferInstanceAs (Decidable ((_ ∧ _) ∨ (_ ∧ _)))

/-- An exception leaves the `try` block of `main`, and destroys the threads. -/
def throw (s : State) : State :=
  if s.Joinable then { s with terminated := true } else { s with main := .reporting }

/-- Behind a call of `probe`. Before the last one, `releaser` is started. -/
def probed (s : State) : Mode → State
  | .noWait => { s with main := .probe .lockTimeout }
  | .lockTimeout => { s with main := .probe .wait, releaser := some .committing }
  | .wait => { s with main := .joinReleaser }

/-- The second update of B has failed. -/
def catchB (s : State) : State :=
  { (s.use .b).print .bFailed with bVictim := true, main := .rollbackB }

/-- The second update of A has failed. -/
def catchA (s : State) : State :=
  { (s.use .a).print .aFailed with aVictim := true, crossA := some .rollingBack }

/-- Each of the two updates waits for the transaction of the other. -/
def Cycle (s : State) : Prop :=
  s.main = .crossB ∧ s.crossA = some .updating ∧ s.status .a = .active ∧ s.status .b = .active

instance (s : State) : Decidable s.Cycle :=
  inferInstanceAs (Decidable (_ ∧ _ ∧ _ ∧ _))

/-- A step of the main thread. A call that waits returns once the other transaction has ended. -/
def mainStep (s : State) (o : Outcome) : Option State :=
  match s.main, o with
  | .preparing (_ :: rest), .returns => some { s with main := .preparing rest }
  | .preparing (p :: rest), .fails =>
    if p.tolerated then some { s with main := .preparing rest } else some s.throw
  | .preparing [], .returns =>
    some { (s.begin .hold).print .holder with main := .probe .noWait }
  | .probe m, .returns =>
    if s.status .hold = .active then none
    else some { s.print (.granted m) with main := .commitProbe m }
  | .probe m, .refused =>
    if m ≠ .wait ∧ s.status .hold = .active then some ((s.print (.failed m)).probed m) else none
  | .probe m, .fails => some ((s.print (.failed m)).probed m)
  | .commitProbe m, .returns => some (s.probed m)
  | .commitProbe m, .fails => some ((s.print (.failed m)).probed m)
  | .joinReleaser, .returns =>
    if s.releaser = some .finished then
      some { s.print .building with main := .startA, releaser := some .joined }
    else none
  | .startA, .returns => some { s.begin .a with main := .startB }
  | .startB, .returns => some { s.begin .b with main := .updateA }
  | .updateA, .returns => some { s.use .a with main := .updateB }
  | .updateB, .returns =>
    some { s.use .b with
      main := .crossB, crossA := some .updating, aVictim := false, bVictim := false }
  | .updateA, .fails => some (s.use .a).throw
  | .updateB, .fails => some (s.use .b).throw
  | .crossB, .returns =>
    if s.status .a = .active then none
    else some { (s.use .b).print .bProceeded with main := .joinCross }
  | .crossB, .refused => if s.Cycle then some s.catchB else none
  | .crossB, .fails => some s.catchB
  | .rollbackB, .returns => some { s.finish .b with main := .joinCross }
  | .rollbackB, .fails => some (s.use .b).throw
  | .joinCross, .returns =>
    if s.crossA = some .finished then some { s with main := .endA, crossA := some .joined }
    else none
  | .endA, .returns =>
    if s.aVictim then some { s with main := .endB } else some { s.finish .a with main := .endB }
  | .endA, .fails => if s.aVictim then none else some (s.use .a).throw
  | .endB, .returns =>
    if s.bVictim then some { s.print .undetected with main := .returned 0 }
    else some { (s.finish .b).print .undetected with main := .returned 0 }
  | .endB, .fails => if s.bVictim then none else some (s.use .b).throw
  | .preparing [], .fails | .startA, .fails | .startB, .fails => some s.throw
  | .reporting, .returns => some { s with main := .returned 1 }
  | _, _ => none

/-- A step of `releaser`. Its status wrapper does not throw, so it prints its line in any case. -/
def releaserStep (s : State) (o : Outcome) : Option State :=
  match s.releaser, o with
  | some .committing, .returns =>
    some { (s.finish .hold).print .committed with releaser := some .finished }
  | some .committing, .fails =>
    some { (s.use .hold).print .committed with releaser := some .finished }
  | _, _ => none

/-- A step of `crossA`. -/
def crossStep (s : State) (o : Outcome) : Option State :=
  match s.crossA, o with
  | some .updating, .returns =>
    if s.status .b = .active then none else some { s.use .a with crossA := some .finished }
  | some .updating, .refused => if s.Cycle then some s.catchA else none
  | some .updating, .fails => some s.catchA
  | some .rollingBack, .returns => some { s.finish .a with crossA := some .finished }
  | some .rollingBack, .fails => some { s.use .a with terminated := true }
  | _, _ => none

end State

/-- A step of the process, until it is terminated. -/
def step (s : State) (x : Action) : Option State :=
  if s.terminated then none
  else
    match x with
    | .main o => s.mainStep o
    | .releaser o => s.releaserStep o
    | .crossA o => s.crossStep o

/-! ### The phases of a run -/

namespace State

variable {s t : State} {o : Outcome} {x : Tra} {m : Mode} {rest : List Preparation}

theorem use_of_active (h : s.status x = .active) : s.use x = s := by
  have hused : (s.misused || decide (s.status x ≠ .active)) = s.misused := by
    rw [h]
    exact Bool.or_false _
  rw [use, hused]

theorem finish_of_active (h : s.status x = .active) :
    s.finish x = { s with status := Function.update s.status x .ended } := by
  rw [finish, use_of_active h]

/-- `releaser` commits the holder, or has tried to. -/
def ReleaserRuns (s : State) : Prop :=
  (s.releaser = some .committing ∧ s.status .hold = .active) ∨
    (s.releaser = some .finished ∧ s.status .hold ≠ .unborn)

/-- `crossA` is on its way: its transaction ends only in its handler, and without that it has
waited for the one of B to end. -/
def CrossRuns (s : State) : Prop :=
  (s.crossA = some .updating ∧ s.status .a = .active ∧ s.aVictim = false) ∨
    (s.crossA = some .rollingBack ∧ s.status .a = .active ∧ s.aVictim = true) ∨
    (s.crossA = some .finished ∧ ((s.aVictim = true ∧ s.status .a = .ended) ∨
      (s.aVictim = false ∧ s.status .a = .active ∧ s.status .b = .ended)))

/-- The same for the main thread. -/
def MainCrosses (s : State) : Prop :=
  (s.main = .crossB ∧ s.status .b = .active ∧ s.bVictim = false) ∨
    (s.main = .rollbackB ∧ s.status .b = .active ∧ s.bVictim = true) ∨
    (s.main = .joinCross ∧ ((s.bVictim = true ∧ s.status .b = .ended) ∨
      (s.bVictim = false ∧ s.status .b = .active ∧ s.status .a = .ended)))

/-- The second act up to the start of `crossA`. -/
def MainBuilds (s : State) : Prop :=
  s.main = .startA ∨ (s.main = .startB ∧ s.status .a = .active) ∨
    ((s.main = .updateA ∨ s.main = .updateB) ∧ s.status .a = .active ∧ s.status .b = .active)

/-- What is left of the two transactions is rolled back. -/
def MainEnds (s : State) : Prop :=
  (s.bVictim = true ∧ s.status .b = .ended ∨ s.bVictim = false ∧ s.status .b = .active) ∧
    (s.aVictim = true ∨ s.bVictim = true) ∧
    (s.main = .endA ∧ (s.aVictim = true ∧ s.status .a = .ended ∨
        s.aVictim = false ∧ s.status .a = .active) ∨
      s.main = .endB ∧ s.status .a = .ended)

/-- `main` returns, after an error or at the end. -/
def MainReturns (s : State) : Prop :=
  s.main = .reporting ∨ s.main = .returned 1 ∨
    (s.main = .returned 0 ∧ s.status .a = .ended ∧ s.status .b = .ended ∧
      (s.aVictim = true ∨ s.bVictim = true))

/-- **Where the three threads are at the same time.** -/
inductive Phase (s : State) : Prop where
  | preparing {rest : List Preparation} (hmain : s.main = .preparing rest)
    (hr : s.releaser = none) (hc : s.crossA = none) (hhold : s.status .hold = .unborn)
  /-- The holder is active, and nobody is there to end it. -/
  | probing {m : Mode} (hmain : s.main = .probe m) (hm : m ≠ .wait)
    (hhold : s.status .hold = .active) (hr : s.releaser = none) (hc : s.crossA = none)
  | waiting (hmain : s.main = .probe .wait ∨ s.main = .commitProbe .wait ∨ s.main = .joinReleaser)
    (hr : s.ReleaserRuns) (hc : s.crossA = none)
  | building (hmain : s.MainBuilds) (hr : s.releaser = some .joined) (hc : s.crossA = none)
  | crossing (hmain : s.MainCrosses) (hr : s.releaser = some .joined) (hc : s.CrossRuns)
  | ending (hmain : s.MainEnds) (hr : s.releaser = some .joined) (hc : s.crossA = some .joined)
  | returning (hmain : s.MainReturns) (hjoined : ¬ s.Joinable)

/-- What the output says is so. -/
structure Told (printed : List Line) (hold : Status) (aVictim bVictim : Bool) : Prop where
  granted : ∀ m, Line.granted m ∈ printed → m = .wait ∧ hold = .ended
  proceeded : Line.bProceeded ∈ printed → Line.aFailed ∈ printed
  aFailed : aVictim = true → Line.aFailed ∈ printed
  bFailed : bVictim = true → Line.bFailed ∈ printed

/-- **The invariant.** -/
structure Inv (s : State) : Prop where
  sober : s.misused = false
  told : Told s.printed (s.status .hold) s.aVictim s.bVictim
  phase : s.terminated = false → s.Phase

variable {printed : List Line} {hold : Status} {aVictim bVictim : Bool} {l : Line}

/-- Another line. -/
theorem Told.concat (h : Told printed hold aVictim bVictim)
    (hgranted : ∀ m, l = .granted m → m = .wait ∧ hold = .ended)
    (hproceeded : l = .bProceeded → Line.aFailed ∈ printed) :
    Told (printed ++ [l]) hold aVictim bVictim where
  granted m hm := by
    rcases List.mem_append.1 hm with hm | hm
    · exact h.granted m hm
    · exact hgranted m (List.mem_singleton.1 hm).symm
  proceeded hm := by
    refine List.mem_append_left _ ?_
    rcases List.mem_append.1 hm with hm | hm
    · exact h.proceeded hm
    · exact hproceeded (List.mem_singleton.1 hm).symm
  aFailed hv := List.mem_append_left _ (h.aFailed hv)
  bFailed hv := List.mem_append_left _ (h.bFailed hv)

/-- The holder ends. -/
theorem Told.finish (h : Told printed hold aVictim bVictim) :
    Told printed .ended aVictim bVictim where
  granted m hm := ⟨(h.granted m hm).1, rfl⟩
  proceeded := h.proceeded
  aFailed := h.aFailed
  bFailed := h.bFailed

/-- Before the holder ends, nothing has been granted. -/
theorem Told.of_ne_ended (h : Told printed hold aVictim bVictim) (hhold : hold ≠ .ended)
    (hold' : Status) : Told printed hold' aVictim bVictim where
  granted m hm := absurd (h.granted m hm).2 hhold
  proceeded := h.proceeded
  aFailed := h.aFailed
  bFailed := h.bFailed

/-- The second update of A has failed. -/
theorem Told.catchA (h : Told printed hold aVictim bVictim) :
    Told (printed ++ [.aFailed]) hold true bVictim where
  granted m hm := h.granted m ((List.mem_append.1 hm).resolve_right
    fun hmem ↦ Line.noConfusion (List.mem_singleton.1 hmem))
  proceeded _ := List.mem_concat_self
  aFailed _ := List.mem_concat_self
  bFailed hv := List.mem_append_left _ (h.bFailed hv)

/-- The second update of B has failed. -/
theorem Told.catchB (h : Told printed hold aVictim bVictim) :
    Told (printed ++ [.bFailed]) hold aVictim true where
  granted m hm := h.granted m ((List.mem_append.1 hm).resolve_right
    fun hmem ↦ Line.noConfusion (List.mem_singleton.1 hmem))
  proceeded hm := List.mem_append_left _ (h.proceeded ((List.mem_append.1 hm).resolve_right
    fun hmem ↦ Line.noConfusion (List.mem_singleton.1 hmem)))
  aFailed hv := List.mem_append_left _ (h.aFailed hv)
  bFailed _ := List.mem_concat_self

/-- An exception out of the `try` block. -/
theorem Inv.throw (hs : s.Inv) : s.throw.Inv := by
  rw [State.throw]
  split_ifs with h
  · exact ⟨hs.sober, hs.told, fun hdead ↦ nomatch hdead⟩
  · exact ⟨hs.sober, hs.told, fun _ ↦ .returning (Or.inl rfl) h⟩

/-! ### What the main thread does -/

theorem inv_preparing (hs : s.Inv) (hmain : s.main = .preparing rest) (hr : s.releaser = none)
    (hc : s.crossA = none) (hhold : s.status .hold = .unborn) (h : s.mainStep o = some t) :
    t.Inv := by
  unfold mainStep at h
  rw [hmain] at h
  rcases rest with _ | ⟨p, rest⟩
  · rcases o with _ | _ | _
    · obtain rfl := Option.some.inj h
      refine ⟨hs.sober, ?_, fun _ ↦ .probing rfl nofun rfl hr hc⟩
      exact (hs.told.concat (l := .holder) nofun nofun).of_ne_ended (by rw [hhold]; nofun) _
    · cases h
    · obtain rfl := Option.some.inj h
      exact hs.throw
  · rcases o with _ | _ | _
    · obtain rfl := Option.some.inj h
      exact ⟨hs.sober, hs.told, fun _ ↦ .preparing rfl hr hc hhold⟩
    · cases h
    · dsimp only at h
      split_ifs at h
      · obtain rfl := Option.some.inj h
        exact ⟨hs.sober, hs.told, fun _ ↦ .preparing rfl hr hc hhold⟩
      · obtain rfl := Option.some.inj h
        exact hs.throw

theorem inv_probing (hs : s.Inv) (hmain : s.main = .probe m) (hm : m ≠ .wait)
    (hhold : s.status .hold = .active) (hr : s.releaser = none) (hc : s.crossA = none)
    (h : s.mainStep o = some t) : t.Inv := by
  unfold mainStep at h
  rw [hmain] at h
  have hfailed : Inv ((s.print (.failed m)).probed m) := by
    have htold := hs.told.concat (l := .failed m) nofun nofun
    rcases m with _ | _ | _
    · exact ⟨hs.sober, htold, fun _ ↦ .probing rfl nofun hhold hr hc⟩
    · exact ⟨hs.sober, htold, fun _ ↦ .waiting (Or.inl rfl) (Or.inl ⟨rfl, hhold⟩) hc⟩
    · exact absurd rfl hm
  rcases o with _ | _ | _
  · dsimp only at h
    rw [if_pos hhold] at h
    cases h
  · dsimp only at h
    rw [if_pos ⟨hm, hhold⟩] at h
    obtain rfl := Option.some.inj h
    exact hfailed
  · obtain rfl := Option.some.inj h
    exact hfailed

theorem ReleaserRuns.ended (hr : s.ReleaserRuns) (hhold : s.status .hold ≠ .active) :
    s.status .hold = .ended := by
  rcases hr with ⟨-, hactive⟩ | ⟨-, hborn⟩
  · exact absurd hactive hhold
  · rcases hstatus : s.status .hold with _ | _ | _
    · exact absurd hstatus hborn
    · exact absurd hstatus hhold
    · rfl

theorem inv_waiting (hs : s.Inv)
    (hmain : s.main = .probe .wait ∨ s.main = .commitProbe .wait ∨ s.main = .joinReleaser)
    (hr : s.ReleaserRuns) (hc : s.crossA = none) (h : s.mainStep o = some t) : t.Inv := by
  unfold mainStep at h
  have hfailed : Inv ((s.print (.failed .wait)).probed .wait) :=
    ⟨hs.sober, hs.told.concat nofun nofun, fun _ ↦ .waiting (Or.inr (Or.inr rfl)) hr hc⟩
  rcases hmain with hmain | hmain | hmain
  · rw [hmain] at h
    rcases o with _ | _ | _
    · dsimp only at h
      split_ifs at h with hhold
      obtain rfl := Option.some.inj h
      refine ⟨hs.sober, hs.told.concat ?_ nofun, fun _ ↦ .waiting (Or.inr (Or.inl rfl)) hr hc⟩
      rintro m ⟨⟩
      exact ⟨rfl, hr.ended hhold⟩
    · dsimp only at h
      rw [if_neg fun hwait ↦ hwait.1 rfl] at h
      cases h
    · obtain rfl := Option.some.inj h
      exact hfailed
  · rw [hmain] at h
    rcases o with _ | _ | _
    · obtain rfl := Option.some.inj h
      exact ⟨hs.sober, hs.told, fun _ ↦ .waiting (Or.inr (Or.inr rfl)) hr hc⟩
    · cases h
    · obtain rfl := Option.some.inj h
      exact hfailed
  · rw [hmain] at h
    rcases o with _ | _ | _
    · dsimp only at h
      split_ifs at h
      obtain rfl := Option.some.inj h
      exact ⟨hs.sober, hs.told.concat nofun nofun, fun _ ↦ .building (Or.inl rfl) rfl hc⟩
    · cases h
    · cases h

theorem inv_building (hs : s.Inv) (hmain : s.MainBuilds) (hr : s.releaser = some .joined)
    (hc : s.crossA = none) (h : s.mainStep o = some t) : t.Inv := by
  unfold mainStep at h
  rcases hmain with hmain | ⟨hmain, ha⟩ | ⟨hmain | hmain, ha, hb⟩
  · rw [hmain] at h
    rcases o with _ | _ | _
    · obtain rfl := Option.some.inj h
      exact ⟨hs.sober, hs.told, fun _ ↦ .building (Or.inr (Or.inl ⟨rfl, rfl⟩)) hr hc⟩
    · cases h
    · obtain rfl := Option.some.inj h
      exact hs.throw
  · rw [hmain] at h
    rcases o with _ | _ | _
    · obtain rfl := Option.some.inj h
      exact ⟨hs.sober, hs.told,
        fun _ ↦ .building (Or.inr (Or.inr ⟨Or.inl rfl, ha, rfl⟩)) hr hc⟩
    · cases h
    · obtain rfl := Option.some.inj h
      exact hs.throw
  · rw [hmain] at h
    rcases o with _ | _ | _
    · obtain rfl := Option.some.inj h
      rw [use_of_active ha]
      exact ⟨hs.sober, hs.told,
        fun _ ↦ .building (Or.inr (Or.inr ⟨Or.inr rfl, ha, hb⟩)) hr hc⟩
    · cases h
    · obtain rfl := Option.some.inj h
      rw [use_of_active ha]
      exact hs.throw
  · rw [hmain] at h
    rcases o with _ | _ | _
    · obtain rfl := Option.some.inj h
      rw [use_of_active hb]
      refine ⟨hs.sober, ⟨hs.told.granted, hs.told.proceeded, nofun, nofun⟩, fun _ ↦ ?_⟩
      exact .crossing (Or.inl ⟨rfl, hb, rfl⟩) hr (Or.inl ⟨rfl, ha, rfl⟩)
    · cases h
    · obtain rfl := Option.some.inj h
      rw [use_of_active hb]
      exact hs.throw

/-- The handler of B is entered with its transaction active. -/
theorem inv_catchB (hs : s.Inv) (hb : s.status .b = .active) (hr : s.releaser = some .joined)
    (hc : s.CrossRuns) : s.catchB.Inv := by
  rw [catchB, use_of_active hb]
  exact ⟨hs.sober, hs.told.catchB,
    fun _ ↦ .crossing (Or.inr (Or.inl ⟨rfl, hb, rfl⟩)) hr hc⟩

/-- Once B has ended, A may go on, whatever it is at. -/
theorem CrossRuns.finish_b (hc : s.CrossRuns) (hb : s.status .b = .active) :
    CrossRuns { s with status := Function.update s.status .b .ended, main := .joinCross } := by
  rcases hc with hc | hc | ⟨hc, hvictim | ⟨-, -, hended⟩⟩
  · exact Or.inl hc
  · exact Or.inr (Or.inl hc)
  · exact Or.inr (Or.inr ⟨hc, Or.inl hvictim⟩)
  · rw [hb] at hended
    cases hended

theorem inv_crossing (hs : s.Inv) (hmain : s.MainCrosses) (hr : s.releaser = some .joined)
    (hc : s.CrossRuns) (h : s.mainStep o = some t) : t.Inv := by
  unfold mainStep at h
  rcases hmain with ⟨hmain, hb, hv⟩ | ⟨hmain, hb, hv⟩ | ⟨hmain, hb⟩
  · rw [hmain] at h
    rcases o with _ | _ | _
    · dsimp only at h
      split_ifs at h with ha
      obtain rfl := Option.some.inj h
      rw [use_of_active hb]
      -- A does not hold its row any more, so it has been the victim
      obtain ⟨hvictim, hended⟩ : s.aVictim = true ∧ s.status .a = .ended := by
        rcases hc with ⟨-, hactive, -⟩ | ⟨-, hactive, -⟩ | ⟨-, hvictim | ⟨-, hactive, -⟩⟩
        · exact absurd hactive ha
        · exact absurd hactive ha
        · exact hvictim
        · exact absurd hactive ha
      refine ⟨hs.sober, hs.told.concat nofun fun _ ↦ hs.told.aFailed hvictim, fun _ ↦ ?_⟩
      exact .crossing (Or.inr (Or.inr ⟨rfl, Or.inr ⟨hv, hb, hended⟩⟩)) hr hc
    · dsimp only at h
      split_ifs at h
      obtain rfl := Option.some.inj h
      exact inv_catchB hs hb hr hc
    · obtain rfl := Option.some.inj h
      exact inv_catchB hs hb hr hc
  · rw [hmain] at h
    rcases o with _ | _ | _
    · obtain rfl := Option.some.inj h
      rw [finish_of_active hb]
      exact ⟨hs.sober, hs.told, fun _ ↦
        .crossing (Or.inr (Or.inr ⟨rfl, Or.inl ⟨hv, rfl⟩⟩)) hr (hc.finish_b hb)⟩
    · cases h
    · obtain rfl := Option.some.inj h
      rw [use_of_active hb]
      exact hs.throw
  · rw [hmain] at h
    rcases o with _ | _ | _
    · dsimp only at h
      split_ifs at h with hfinished
      obtain rfl := Option.some.inj h
      refine ⟨hs.sober, hs.told, fun _ ↦ .ending ?_ hr rfl⟩
      rcases hc with ⟨hc, -⟩ | ⟨hc, -⟩ | ⟨-, ha⟩
      · rw [hfinished] at hc
        cases hc
      · rw [hfinished] at hc
        cases hc
      · rcases ha with ⟨hav, ha⟩ | ⟨hav, ha, hbe⟩
        · exact ⟨hb.imp_right fun hb ↦ ⟨hb.1, hb.2.1⟩, Or.inl hav,
            Or.inl ⟨rfl, Or.inl ⟨hav, ha⟩⟩⟩
        · rcases hb with ⟨hbv, hb⟩ | ⟨-, hb, -⟩
          · exact ⟨Or.inl ⟨hbv, hb⟩, Or.inr hbv, Or.inl ⟨rfl, Or.inr ⟨hav, ha⟩⟩⟩
          · rw [hbe] at hb
            cases hb
    · cases h
    · cases h

theorem inv_ending (hs : s.Inv) (hmain : s.MainEnds) (hr : s.releaser = some .joined)
    (hc : s.crossA = some .joined) (h : s.mainStep o = some t) : t.Inv := by
  have hjoined : ¬ s.Joinable := fun hj ↦ hj.elim (fun hj ↦ hj.2 hr) fun hj ↦ hj.2 hc
  unfold mainStep at h
  obtain ⟨hb, hvictim, ⟨hmain, ha⟩ | ⟨hmain, ha⟩⟩ := hmain
  · rw [hmain] at h
    rcases ha with ⟨hav, ha⟩ | ⟨hav, ha⟩
    · rcases o with _ | _ | _
      · dsimp only at h
        rw [if_pos hav] at h
        obtain rfl := Option.some.inj h
        exact ⟨hs.sober, hs.told, fun _ ↦ .ending ⟨hb, hvictim, Or.inr ⟨rfl, ha⟩⟩ hr hc⟩
      · cases h
      · dsimp only at h
        rw [if_pos hav] at h
        cases h
    · have hnot : ¬ s.aVictim = true := by simp [hav]
      rcases o with _ | _ | _
      · dsimp only at h
        rw [if_neg hnot, finish_of_active ha] at h
        obtain rfl := Option.some.inj h
        exact ⟨hs.sober, hs.told, fun _ ↦ .ending ⟨hb, hvictim, Or.inr ⟨rfl, rfl⟩⟩ hr hc⟩
      · cases h
      · dsimp only at h
        rw [if_neg hnot, use_of_active ha] at h
        obtain rfl := Option.some.inj h
        exact hs.throw
  · rw [hmain] at h
    have htold := hs.told.concat (l := .undetected) nofun nofun
    rcases hb with ⟨hbv, hb⟩ | ⟨hbv, hb⟩
    · rcases o with _ | _ | _
      · dsimp only at h
        rw [if_pos hbv] at h
        obtain rfl := Option.some.inj h
        exact ⟨hs.sober, htold, fun _ ↦
          .returning (Or.inr (Or.inr ⟨rfl, ha, hb, hvictim⟩)) hjoined⟩
      · cases h
      · dsimp only at h
        rw [if_pos hbv] at h
        cases h
    · have hnot : ¬ s.bVictim = true := by simp [hbv]
      rcases o with _ | _ | _
      · dsimp only at h
        rw [if_neg hnot, finish_of_active hb] at h
        obtain rfl := Option.some.inj h
        exact ⟨hs.sober, htold, fun _ ↦
          .returning (Or.inr (Or.inr ⟨rfl, ha, rfl, hvictim⟩)) hjoined⟩
      · cases h
      · dsimp only at h
        rw [if_neg hnot, use_of_active hb] at h
        obtain rfl := Option.some.inj h
        exact hs.throw

theorem inv_returning (hs : s.Inv) (hmain : s.MainReturns) (hjoined : ¬ s.Joinable)
    (h : s.mainStep o = some t) : t.Inv := by
  unfold mainStep at h
  rcases hmain with hmain | hmain | ⟨hmain, -⟩
  · rw [hmain] at h
    rcases o with _ | _ | _
    · obtain rfl := Option.some.inj h
      exact ⟨hs.sober, hs.told, fun _ ↦ .returning (Or.inr (Or.inl rfl)) hjoined⟩
    · cases h
    · cases h
  · rw [hmain] at h
    cases o <;> cases h
  · rw [hmain] at h
    cases o <;> cases h

theorem inv_mainStep (hs : s.Inv) (halive : s.terminated = false) (h : s.mainStep o = some t) :
    t.Inv := by
  rcases hs.phase halive with ⟨hmain, hr, hc, hhold⟩ | ⟨hmain, hm, hhold, hr, hc⟩ |
    ⟨hmain, hr, hc⟩ | ⟨hmain, hr, hc⟩ | ⟨hmain, hr, hc⟩ | ⟨hmain, hr, hc⟩ | ⟨hmain, hjoined⟩
  · exact inv_preparing hs hmain hr hc hhold h
  · exact inv_probing hs hmain hm hhold hr hc h
  · exact inv_waiting hs hmain hr hc h
  · exact inv_building hs hmain hr hc h
  · exact inv_crossing hs hmain hr hc h
  · exact inv_ending hs hmain hr hc h
  · exact inv_returning hs hmain hjoined h

/-! ### What the other threads do -/

/-- While `releaser` is there, the main thread waits. -/
theorem Phase.of_releaser (h : s.Phase) {r : Releaser} (hr : s.releaser = some r)
    (hne : r ≠ .joined) :
    (s.main = .probe .wait ∨ s.main = .commitProbe .wait ∨ s.main = .joinReleaser) ∧
      s.ReleaserRuns ∧ s.crossA = none := by
  have hnot : s.releaser ≠ some .joined := by
    rw [hr]
    exact fun h ↦ hne (Option.some.inj h)
  rcases h with ⟨-, hr', -⟩ | ⟨-, -, -, hr', -⟩ | ⟨hmain, hr', hc⟩ | ⟨-, hr', -⟩ | ⟨-, hr', -⟩ |
    ⟨-, hr', -⟩ | ⟨-, hjoined⟩
  · rw [hr] at hr'
    cases hr'
  · rw [hr] at hr'
    cases hr'
  · exact ⟨hmain, hr', hc⟩
  · exact absurd hr' hnot
  · exact absurd hr' hnot
  · exact absurd hr' hnot
  · exact absurd (Or.inl ⟨by rw [hr]; exact Option.some_ne_none r, hnot⟩) hjoined

/-- While `crossA` is there, both updates are on their way. -/
theorem Phase.of_crossA (h : s.Phase) {c : CrossA} (hc : s.crossA = some c) (hne : c ≠ .joined) :
    s.MainCrosses ∧ s.releaser = some .joined ∧ s.CrossRuns := by
  have hnot : s.crossA ≠ some .joined := by
    rw [hc]
    exact fun h ↦ hne (Option.some.inj h)
  have hsome : s.crossA ≠ none := by
    rw [hc]
    exact Option.some_ne_none c
  rcases h with ⟨-, -, hc', -⟩ | ⟨-, -, -, -, hc'⟩ | ⟨-, -, hc'⟩ | ⟨-, -, hc'⟩ | ⟨hmain, hr, hc'⟩ |
    ⟨-, -, hc'⟩ | ⟨-, hjoined⟩
  · exact absurd hc' hsome
  · exact absurd hc' hsome
  · exact absurd hc' hsome
  · exact absurd hc' hsome
  · exact ⟨hmain, hr, hc'⟩
  · exact absurd hc' hnot
  · exact absurd (Or.inr ⟨hsome, hnot⟩) hjoined

/-- `main` has returned 0. -/
theorem Phase.of_returned (h : s.Phase) (hmain : s.main = .returned 0) :
    s.status .a = .ended ∧ s.status .b = .ended ∧ (s.aVictim = true ∨ s.bVictim = true) := by
  rcases h with ⟨hat, -⟩ | ⟨hat, -⟩ | ⟨hat, -⟩ | ⟨hat, -⟩ | ⟨hat, -⟩ | ⟨hat, -⟩ |
    ⟨hat | hat | ⟨-, hended⟩, -⟩
  case returning.inr.inr => exact hended
  all_goals simp [MainBuilds, MainCrosses, MainEnds, hmain] at hat

theorem inv_releaserStep (hs : s.Inv) (halive : s.terminated = false)
    (h : s.releaserStep o = some t) : t.Inv := by
  unfold releaserStep at h
  rcases hreleaser : s.releaser with _ | _ | _ | _
  · rw [hreleaser] at h
    cases h
  · obtain ⟨hmain, hr, hc⟩ := (hs.phase halive).of_releaser hreleaser nofun
    have hhold : s.status .hold = .active := by
      rcases hr with ⟨-, hhold⟩ | ⟨hr, -⟩
      · exact hhold
      · rw [hreleaser] at hr
        cases hr
    have hborn : s.status .hold ≠ .unborn := by
      rw [hhold]
      nofun
    rw [hreleaser] at h
    have htold := hs.told.concat (l := .committed) nofun nofun
    rcases o with _ | _ | _
    · obtain rfl := Option.some.inj h
      rw [finish_of_active hhold]
      exact ⟨hs.sober, htold.finish, fun _ ↦ .waiting hmain (Or.inr ⟨rfl, nofun⟩) hc⟩
    · cases h
    · obtain rfl := Option.some.inj h
      rw [use_of_active hhold]
      exact ⟨hs.sober, htold, fun _ ↦ .waiting hmain (Or.inr ⟨rfl, hborn⟩) hc⟩
  · rw [hreleaser] at h
    cases o <;> cases h
  · rw [hreleaser] at h
    cases o <;> cases h

/-- The handler of A is entered with its transaction active. -/
theorem inv_catchA (hs : s.Inv) (ha : s.status .a = .active) (hmain : s.MainCrosses)
    (hr : s.releaser = some .joined) : s.catchA.Inv := by
  rw [catchA, use_of_active ha]
  exact ⟨hs.sober, hs.told.catchA,
    fun _ ↦ .crossing hmain hr (Or.inr (Or.inl ⟨rfl, ha, rfl⟩))⟩

/-- Once A has ended, B may go on, whatever it is at. -/
theorem MainCrosses.finish_a (hmain : s.MainCrosses) :
    MainCrosses { s with
      status := Function.update s.status .a .ended, crossA := some .finished } := by
  rcases hmain with hmain | hmain | ⟨hmain, hb | ⟨hv, hb, -⟩⟩
  · exact Or.inl hmain
  · exact Or.inr (Or.inl hmain)
  · exact Or.inr (Or.inr ⟨hmain, Or.inl hb⟩)
  · exact Or.inr (Or.inr ⟨hmain, Or.inr ⟨hv, hb, rfl⟩⟩)

theorem inv_crossStep (hs : s.Inv) (halive : s.terminated = false) (h : s.crossStep o = some t) :
    t.Inv := by
  unfold crossStep at h
  rcases hcross : s.crossA with _ | _ | _ | _ | _
  · rw [hcross] at h
    cases h
  · obtain ⟨hmain, hr, hc⟩ := (hs.phase halive).of_crossA hcross nofun
    obtain ⟨ha, hv⟩ : s.status .a = .active ∧ s.aVictim = false := by
      rcases hc with ⟨-, hc⟩ | ⟨hc, -⟩ | ⟨hc, -⟩
      · exact hc
      · rw [hcross] at hc
        cases hc
      · rw [hcross] at hc
        cases hc
    rw [hcross] at h
    rcases o with _ | _ | _
    · dsimp only at h
      split_ifs at h with hb
      obtain rfl := Option.some.inj h
      rw [use_of_active ha]
      -- B does not hold its row any more, so it has been the victim
      have hended : s.status .b = .ended := by
        rcases hmain with ⟨-, hactive, -⟩ | ⟨-, hactive, -⟩ | ⟨-, hended | ⟨-, hactive, -⟩⟩
        · exact absurd hactive hb
        · exact absurd hactive hb
        · exact hended.2
        · exact absurd hactive hb
      exact ⟨hs.sober, hs.told, fun _ ↦
        .crossing hmain hr (Or.inr (Or.inr ⟨rfl, Or.inr ⟨hv, ha, hended⟩⟩))⟩
    · dsimp only at h
      split_ifs at h
      obtain rfl := Option.some.inj h
      exact inv_catchA hs ha hmain hr
    · obtain rfl := Option.some.inj h
      exact inv_catchA hs ha hmain hr
  · obtain ⟨hmain, hr, hc⟩ := (hs.phase halive).of_crossA hcross nofun
    obtain ⟨ha, hv⟩ : s.status .a = .active ∧ s.aVictim = true := by
      rcases hc with ⟨hc, -⟩ | ⟨-, hc⟩ | ⟨hc, -⟩
      · rw [hcross] at hc
        cases hc
      · exact hc
      · rw [hcross] at hc
        cases hc
    rw [hcross] at h
    rcases o with _ | _ | _
    · obtain rfl := Option.some.inj h
      rw [finish_of_active ha]
      exact ⟨hs.sober, hs.told, fun _ ↦
        .crossing hmain.finish_a hr (Or.inr (Or.inr ⟨rfl, Or.inl ⟨hv, rfl⟩⟩))⟩
    · cases h
    · obtain rfl := Option.some.inj h
      rw [use_of_active ha]
      exact ⟨hs.sober, hs.told, nofun⟩
  · rw [hcross] at h
    cases o <;> cases h
  · rw [hcross] at h
    cases o <;> cases h

/-! ### What ends the process -/

theorem not_joinable (hr : s.releaser = none ∨ s.releaser = some .joined)
    (hc : s.crossA = none ∨ s.crossA = some .joined) : ¬ s.Joinable := by
  rintro (⟨hnone, hjoined⟩ | ⟨hnone, hjoined⟩)
  · exact hr.elim hnone hjoined
  · exact hc.elim hnone hjoined

theorem terminated_throw : s.throw.terminated = true ↔ s.terminated = true ∨ s.Joinable := by
  rw [State.throw]
  split_ifs with h
  · exact ⟨fun _ ↦ Or.inr h, fun _ ↦ rfl⟩
  · exact ⟨Or.inl, fun h' ↦ h'.resolve_right h⟩

theorem terminated_probed (m : Mode) : (s.probed m).terminated = s.terminated := by
  cases m <;> rfl

/-- No thread is left to be joined there. -/
theorem Phase.not_joinable (h : s.Phase) (hmain : Main.leaves s.main = true) : ¬ s.Joinable := by
  rcases h with ⟨-, hr, hc, -⟩ | ⟨hat, -⟩ | ⟨hat, -⟩ | ⟨-, hr, hc⟩ | ⟨hat, -⟩ | ⟨-, hr, hc⟩ |
    ⟨-, hjoined⟩
  · exact State.not_joinable (Or.inl hr) (Or.inl hc)
  · rw [hat] at hmain
    cases hmain
  · rcases hat with hat | hat | hat <;> rw [hat] at hmain <;> cases hmain
  · exact State.not_joinable (Or.inr hr) (Or.inl hc)
  · rcases hat with ⟨hat, -⟩ | ⟨hat, -⟩ | ⟨hat, -⟩ <;> rw [hat] at hmain <;> cases hmain
  · exact State.not_joinable (Or.inr hr) (Or.inr hc)
  · exact hjoined

/-- A step of the main thread, outside the handler of B, either cannot end the process, or throws
where the exception leaves the `try` block. -/
theorem terminated_mainStep_of_ne (h : s.mainStep o = some t)
    (hne : o = .fails → s.main ≠ .rollbackB) :
    t.terminated = s.terminated ∨
      (s.main.leaves = true ∧ (t.terminated = true → s.terminated = true ∨ s.Joinable)) := by
  unfold mainStep at h
  split at h
  case h_30 => cases h
  all_goals
    next hmain =>
      try split_ifs at h
      all_goals
        obtain rfl := Option.some.inj h
        first
        | exact Or.inl rfl
        | exact Or.inl (terminated_probed _)
        | exact Or.inr ⟨by rw [hmain]; rfl, terminated_throw.1⟩
        | exact absurd hmain (hne rfl)

/-- The main thread ends the process only in the handler of B. -/
theorem terminated_mainStep (hphase : s.Phase) (halive : s.terminated = false)
    (h : s.mainStep o = some t) : t.terminated = true ↔ o = .fails ∧ s.main = .rollbackB := by
  constructor
  · intro hdead
    by_contra hne
    rcases terminated_mainStep_of_ne h fun ho hmain ↦ hne ⟨ho, hmain⟩ with heq | ⟨hmain, hjoinable⟩
    · rw [hdead, halive] at heq
      cases heq
    · rcases hjoinable hdead with hdead | hjoinable
      · rw [halive] at hdead
        cases hdead
      · exact hphase.not_joinable hmain hjoinable
  · rintro ⟨rfl, hmain⟩
    have hcross : s.CrossRuns := by
      rcases hphase with ⟨hat, -⟩ | ⟨hat, -⟩ | ⟨hat, -⟩ | ⟨hat, -⟩ | ⟨-, -, hc⟩ | ⟨hat, -⟩ |
        ⟨hat, -⟩
      all_goals first
        | exact hc
        | simp [MainBuilds, MainEnds, MainReturns, hmain] at hat
    have hsome : s.Joinable := by
      rcases hcross with ⟨hc, -⟩ | ⟨hc, -⟩ | ⟨hc, -⟩
      all_goals exact Or.inr ⟨by rw [hc]; nofun, by rw [hc]; nofun⟩
    unfold mainStep at h
    rw [hmain] at h
    obtain rfl := Option.some.inj h
    exact terminated_throw.2 (Or.inr hsome)

theorem terminated_releaserStep (h : s.releaserStep o = some t) : t.terminated = s.terminated := by
  unfold releaserStep at h
  split at h
  · obtain rfl := Option.some.inj h
    rfl
  · obtain rfl := Option.some.inj h
    rfl
  · cases h

/-- `crossA` ends the process only in its handler. -/
theorem terminated_crossStep (halive : s.terminated = false) (h : s.crossStep o = some t) :
    t.terminated = true ↔ o = .fails ∧ s.crossA = some .rollingBack := by
  have hnot : ∀ {u : State}, u.terminated = s.terminated → ¬ u.terminated = true := by
    intro u heq
    rw [heq, halive]
    nofun
  unfold crossStep at h
  split at h
  · next hc =>
    split_ifs at h
    obtain rfl := Option.some.inj h
    exact iff_of_false (hnot rfl) nofun
  · next hc =>
    split_ifs at h
    obtain rfl := Option.some.inj h
    exact iff_of_false (hnot rfl) nofun
  · next hc =>
    obtain rfl := Option.some.inj h
    exact iff_of_false (hnot rfl) fun h ↦ by rw [hc] at h; exact nomatch h.2
  · next hc =>
    obtain rfl := Option.some.inj h
    exact iff_of_false (hnot rfl) nofun
  · next hc =>
    obtain rfl := Option.some.inj h
    exact iff_of_true rfl ⟨rfl, hc⟩
  · cases h

end State

open State

variable {s t : State} {x : Action}

/-- The action is not an exception in one of the two handlers that roll a victim back. -/
def Harmless (s : State) : Action → Prop
  | .main o => ¬ (o = .fails ∧ s.main = .rollbackB)
  | .releaser _ => True
  | .crossA o => ¬ (o = .fails ∧ s.crossA = some .rollingBack)

theorem step_of_alive (h : step s x = some t) : s.terminated = false := by
  by_contra hdead
  unfold step at h
  rw [if_pos (by simpa using hdead)] at h
  cases h

theorem inv_start : start.Inv where
  sober := rfl
  told := ⟨nofun, nofun, nofun, nofun⟩
  phase _ := .preparing rfl rfl rfl rfl

theorem inv_step (hs : s.Inv) (h : step s x = some t) : t.Inv := by
  have halive := step_of_alive h
  unfold step at h
  rw [if_neg (by simp [halive])] at h
  rcases x with o | o | o
  · exact inv_mainStep hs halive h
  · exact inv_releaserStep hs halive h
  · exact inv_crossStep hs halive h

theorem inv_of_reaches {C : State → Action → Prop} (h : Reaches step C start s) : s.Inv :=
  h.invariant inv_start fun _ _ _ hs _ h ↦ inv_step hs h

/-- A step ends the process exactly if it is not harmless. -/
theorem terminated_step (hs : s.Inv) (h : step s x = some t) :
    t.terminated = true ↔ ¬ Harmless s x := by
  have halive := step_of_alive h
  unfold step at h
  rw [if_neg (by simp [halive])] at h
  rcases x with o | o | o
  · rw [terminated_mainStep (hs.phase halive) halive h, Harmless, not_not]
  · rw [terminated_releaserStep h, halive, Harmless, not_true]
    exact iff_of_false nofun id
  · rw [terminated_crossStep halive h, Harmless, not_not]

/-- The process is alive exactly if no handler has thrown. -/
theorem alive_iff (h : Reachable step start s) :
    s.terminated = false ↔ Reaches step Harmless start s := by
  refine h.alive_iff (P := fun s ↦ s.terminated = false) rfl step_of_alive ?_ ?_
  · intro t a u ht hharmless hnext
    rw [Bool.eq_false_iff]
    exact fun hdead ↦ (terminated_step (inv_of_reaches ht) hnext).1 hdead hharmless
  · intro t a u ht hharmful hnext
    rw [(terminated_step (inv_of_reaches ht) hnext).2 hharmful]
    nofun

/-! ### Progress -/

/-- The steps that are left to the main thread, and to the threads it will start. -/
def Main.cost : Main → ℕ
  | .preparing rest => rest.length + 23
  | .probe .noWait => 22
  | .commitProbe .noWait => 21
  | .probe .lockTimeout => 20
  | .commitProbe .lockTimeout => 19
  | .probe .wait => 16
  | .commitProbe .wait => 15
  | .joinReleaser => 14
  | .startA => 13
  | .startB => 12
  | .updateA => 11
  | .updateB => 10
  | .crossB => 6
  | .rollbackB => 5
  | .joinCross => 4
  | .endA => 3
  | .endB => 2
  | .reporting => 1
  | .returned _ => 0

def Releaser.cost : Option Releaser → ℕ
  | some .committing => 2
  | some .finished => 1
  | some .joined | none => 0

def CrossA.cost : Option CrossA → ℕ
  | some .updating => 3
  | some .rollingBack => 2
  | some .finished => 1
  | some .joined | none => 0

/-- The steps that are left to the process. -/
def State.cost (s : State) : ℕ :=
  s.main.cost + Releaser.cost s.releaser + CrossA.cost s.crossA + (!s.terminated).toNat

theorem cost_throw (halive : s.terminated = false) (h : 1 < s.main.cost) :
    s.throw.cost < s.cost := by
  rw [State.throw]
  split_ifs
  · simp only [State.cost, halive, Bool.not_false, Bool.not_true, Bool.toNat_true, Bool.toNat_false]
    omega
  · simp only [State.cost]
    rw [show Main.cost .reporting = 1 from rfl]
    omega

theorem cost_throw_use (y : Tra) (halive : s.terminated = false) (h : 1 < s.main.cost) :
    (s.use y).throw.cost < s.cost :=
  cost_throw (s := s.use y) halive h

theorem cost_probed (m : Mode) (h : s.main = .probe m ∨ s.main = .commitProbe m) :
    (s.probed m).cost < s.cost := by
  rcases h with h | h <;> rcases m with _ | _ | _
  all_goals
    simp only [State.probed, State.cost, h, Main.cost, Releaser.cost]
    omega

theorem cost_commitProbe (m : Mode) : (Main.commitProbe m).cost < (Main.probe m).cost := by
  rcases m with _ | _ | _ <;> decide

theorem cost_mainStep {o : Outcome} (halive : s.terminated = false) (h : s.mainStep o = some t) :
    t.cost < s.cost := by
  unfold mainStep at h
  split at h
  -- a probe has failed, or its transaction has been committed
  case h_5 m hmain | h_6 m hmain | h_7 m hmain | h_8 m hmain =>
    try split_ifs at h
    obtain rfl := Option.some.inj h
    first
    | exact cost_probed (s := s.print (.failed m)) m (Or.inl hmain)
    | exact cost_probed (s := s.print (.failed m)) m (Or.inr hmain)
    | exact cost_probed m (Or.inr hmain)
  -- an exception, in a transaction or not
  case h_14 hmain | h_15 hmain | h_20 hmain | h_23 hmain | h_25 hmain =>
    try split_ifs at h
    obtain rfl := Option.some.inj h
    exact cost_throw_use _ halive (by rw [hmain, Main.cost]; omega)
  case h_26 hmain | h_27 hmain | h_28 hmain =>
    obtain rfl := Option.some.inj h
    exact cost_throw halive (by rw [hmain, Main.cost]; omega)
  case h_2 p rest hmain =>
    split_ifs at h
    · obtain rfl := Option.some.inj h
      simp only [State.cost, hmain, Main.cost, List.length_cons]
      omega
    · obtain rfl := Option.some.inj h
      exact cost_throw halive (by rw [hmain, Main.cost]; omega)
  case h_4 m hmain =>
    have hlt := cost_commitProbe m
    split_ifs at h
    obtain rfl := Option.some.inj h
    simp only [State.cost, State.print, hmain]
    omega
  case h_30 => cases h
  all_goals
    next hmain =>
      try split_ifs at h
      all_goals
        obtain rfl := Option.some.inj h
        simp only [State.cost, State.print, State.begin, State.use, State.finish, State.catchB,
          hmain, Main.cost, Releaser.cost, CrossA.cost, List.length_cons]
        omega

theorem cost_releaserStep {o : Outcome} (h : s.releaserStep o = some t) : t.cost < s.cost := by
  unfold releaserStep at h
  split at h
  case h_3 => cases h
  all_goals
    next hr =>
      obtain rfl := Option.some.inj h
      simp only [State.cost, State.print, State.use, State.finish, hr, Releaser.cost]
      omega

theorem cost_crossStep {o : Outcome} (halive : s.terminated = false) (h : s.crossStep o = some t) :
    t.cost < s.cost := by
  unfold crossStep at h
  split at h
  case h_6 => cases h
  all_goals
    next hc =>
      try split_ifs at h
      obtain rfl := Option.some.inj h
      simp only [State.cost, State.print, State.use, State.finish, State.catchA, hc, CrossA.cost,
        halive, Bool.not_false, Bool.not_true, Bool.toNat_true, Bool.toNat_false]
      omega

/-- Each step costs something. -/
theorem cost_step (h : step s x = some t) : t.cost < s.cost := by
  have halive := step_of_alive h
  unfold step at h
  rw [if_neg (by simp [halive])] at h
  rcases x with o | o | o
  · exact cost_mainStep halive h
  · exact cost_releaserStep h
  · exact cost_crossStep halive h

/-- A thread can go on without an error of the engine's. -/
def CanStep (s : State) : Prop :=
  ∃ x : Action, x.outcome ≠ .fails ∧ step s x ≠ none

theorem canStep_main (halive : s.terminated = false) {o : Outcome} (ho : o ≠ .fails)
    (h : s.mainStep o ≠ none) : CanStep s := by
  refine ⟨.main o, ho, ?_⟩
  unfold step
  rw [if_neg (by simp [halive])]
  exact h

theorem canStep_releaser (halive : s.terminated = false)
    (h : s.releaser = some .committing) : CanStep s := by
  refine ⟨.releaser .returns, nofun, ?_⟩
  unfold step State.releaserStep
  rw [if_neg (by simp [halive]), h]
  nofun

theorem canStep_crossA (halive : s.terminated = false)
    (h : s.crossA = some .updating ∧ s.status .b = .ended ∨ s.crossA = some .rollingBack) :
    CanStep s := by
  refine ⟨.crossA .returns, nofun, ?_⟩
  unfold step State.crossStep
  rw [if_neg (by simp [halive])]
  rcases h with ⟨h, hb⟩ | h
  · rw [h]
    dsimp only
    rw [if_neg (by simp [hb])]
    nofun
  · rw [h]
    nofun

/-- While the third probe waits for the table, the holder can be committed, unless it could not. -/
theorem State.ReleaserRuns.canStep (hr : s.ReleaserRuns) (halive : s.terminated = false)
    (hmain : s.main = .probe .wait ∨ s.main = .commitProbe .wait ∨ s.main = .joinReleaser) :
    CanStep s ∨ s.main = .probe .wait ∧ s.releaser = some .finished ∧ s.status .hold = .active := by
  rcases hr with ⟨hr, -⟩ | ⟨hr, -⟩
  · exact Or.inl (canStep_releaser halive hr)
  · rcases hmain with hmain | hmain | hmain
    · by_cases hhold : s.status .hold = .active
      · exact Or.inr ⟨hmain, hr, hhold⟩
      · refine Or.inl (canStep_main (o := .returns) halive nofun ?_)
        unfold mainStep
        rw [hmain]
        dsimp only
        rw [if_neg hhold]
        nofun
    · refine Or.inl (canStep_main (o := .returns) halive nofun ?_)
      unfold mainStep
      rw [hmain]
      nofun
    · refine Or.inl (canStep_main (o := .returns) halive nofun ?_)
      unfold mainStep
      rw [hmain]
      dsimp only
      rw [if_pos hr]
      nofun

/-- **One of the two updates can always go on**: the other transaction has ended, or both wait, and
the engine picks one. -/
theorem State.CrossRuns.canStep (hc : s.CrossRuns) (hmain : s.MainCrosses)
    (halive : s.terminated = false) : CanStep s := by
  rcases hmain with ⟨hmain, hb, -⟩ | ⟨hmain, -⟩ | ⟨hmain, hb⟩
  · rcases hc with ⟨hc, ha, -⟩ | ⟨hc, -⟩ | ⟨-, ⟨-, ha⟩ | ⟨-, -, hended⟩⟩
    · refine canStep_main (o := .refused) halive nofun ?_
      unfold mainStep
      rw [hmain]
      dsimp only
      rw [if_pos ⟨hmain, hc, ha, hb⟩]
      nofun
    · exact canStep_crossA halive (Or.inr hc)
    · refine canStep_main (o := .returns) halive nofun ?_
      unfold mainStep
      rw [hmain]
      dsimp only
      rw [if_neg (by simp [ha])]
      nofun
    · rw [hb] at hended
      cases hended
  · refine canStep_main (o := .returns) halive nofun ?_
    unfold mainStep
    rw [hmain]
    nofun
  · rcases hc with ⟨hc, ha, -⟩ | ⟨hc, -⟩ | ⟨hc, -⟩
    · rcases hb with ⟨-, hb⟩ | ⟨-, -, hended⟩
      · exact canStep_crossA halive (Or.inl ⟨hc, hb⟩)
      · rw [ha] at hended
        cases hended
    · exact canStep_crossA halive (Or.inr hc)
    · refine canStep_main (o := .returns) halive nofun ?_
      unfold mainStep
      rw [hmain]
      dsimp only
      rw [if_pos hc]
      nofun

/-- **Nobody waits for what will not come.** -/
theorem State.Phase.canStep (h : s.Phase) (halive : s.terminated = false) :
    CanStep s ∨ (∃ code, s.main = .returned code) ∨
      s.main = .probe .wait ∧ s.releaser = some .finished ∧ s.status .hold = .active := by
  rcases h with @⟨rest, hmain, -⟩ | ⟨hmain, hm, hhold, -⟩ | ⟨hmain, hr, -⟩ | ⟨hmain, -⟩ |
    ⟨hmain, -, hc⟩ | ⟨⟨-, -, hmain⟩, -⟩ | ⟨hmain | hmain | ⟨hmain, -⟩, -⟩
  · refine Or.inl (canStep_main (o := .returns) halive nofun ?_)
    unfold mainStep
    rw [hmain]
    rcases rest with _ | ⟨p, rest⟩ <;> nofun
  · refine Or.inl (canStep_main (o := .refused) halive nofun ?_)
    unfold mainStep
    rw [hmain]
    dsimp only
    rw [if_pos ⟨hm, hhold⟩]
    nofun
  · exact (hr.canStep halive hmain).imp_right Or.inr
  · refine Or.inl (canStep_main (o := .returns) halive nofun ?_)
    unfold mainStep
    rcases hmain with hmain | ⟨hmain, -⟩ | ⟨hmain | hmain, -⟩
    all_goals
      rw [hmain]
      nofun
  · exact Or.inl (hc.canStep hmain halive)
  · refine Or.inl (canStep_main (o := .returns) halive nofun ?_)
    unfold mainStep
    rcases hmain with ⟨hmain, -⟩ | ⟨hmain, -⟩
    all_goals
      rw [hmain]
      dsimp only
      split_ifs <;> nofun
  · refine Or.inl (canStep_main (o := .returns) halive nofun ?_)
    unfold mainStep
    rw [hmain]
    nofun
  · exact Or.inr (Or.inl ⟨_, hmain⟩)
  · exact Or.inr (Or.inl ⟨_, hmain⟩)

/-- A run in which the engine picks A. -/
def pickA : List Action :=
  List.replicate 13 (.main .returns) ++ [.main .refused, .main .refused, .releaser .returns] ++
    List.replicate 7 (.main .returns) ++ [.crossA .refused, .crossA .returns] ++
    List.replicate 4 (.main .returns)

end FirebirdSamples.Threads.LockManager
