import Mathlib.Data.Int.Notation
import Mathlib.Data.List.Basic
import Mathlib.Data.Nat.Notation
import Mathlib.Tactic.SplitIfs
import FirebirdSamples.Library.Transition

/-!
# Exceptions and helper threads

The samples `sorting`, `parallel_workers` and `threading` start threads of their own, make calls to
the engine that take a while, and join the threads. Everything is within a `try` block whose handler
reports the error. C++ terminates the process if an exception leaves the function of a thread, or if
a thread that has not been joined is destroyed.

So the process is terminated exactly if a helper throws in a function without a handler, or the main
thread throws between the start of a helper and its join (`reaches_harmless_iff`). Otherwise, an
exception of the main thread ends in `report`, with all helpers told to stop and joined
(`orderly_of_harmless`).
-/

namespace FirebirdSamples.Threads

open Transition

/-- The calls to the engine. -/
inductive EngineCall where
  | attach
  | attachOrCreate
  | start
  | exec
  | query
  | prepare
  | getPlan
  | commit
  | commitRetaining
  | free
  | detach
  | getXpbBuilder
  | insertString
  | insertInt
  | getBufferLength
  | getBuffer
  | attachDatabase

/-- The function of a helper. -/
structure HelperFunction where
  /-- The calls in front of its loop. -/
  before : List EngineCall
  /-- What a round of the loop can be; empty if there is no loop. The loop goes on while it has not
  been told to stop. -/
  bodies : List (List EngineCall)
  after : List EngineCall
  /-- All of it is in a `try` block with an empty handler. -/
  catches : Bool

/-- A part of the `try` block of `main`. -/
inductive Part where
  | call (c : EngineCall)
  /-- In a `try` block of its own with an empty handler. -/
  | tolerated (c : EngineCall)
  /-- Helpers are started, calls are made, the helpers are told to stop, and joined. -/
  | round (helpers : ℕ) (work : List EngineCall)

/-! ### The samples -/

/-- A sample. -/
inductive Sample where
  /-- With the number of cases that are measured. -/
  | sorting (cases : ℕ)
  | parallelWorkers
  | threading

namespace Sample

/-- `watcher`, the lambda of `poller`, and the one of the workers. -/
def helper : Sample → HelperFunction
  | sorting _ =>
    { before := [.attach]
      bodies := [[.start, .query, .commit]]
      after := [.detach]
      catches := false }
  | parallelWorkers =>
    { before := [.attach]
      bodies := [[.start, .query, .commit], [.start, .query, .query, .commit]]
      after := []
      catches := true }
  | threading =>
    { before := [.attach, .start, .query, .commit]
      bodies := []
      after := []
      catches := false }

/-- The `try` block of `main`. -/
def main : Sample → List Part
  | sorting cases =>
    [.call .attachOrCreate, .call .start, .call .exec, .call .commit, .call .start, .call .exec,
      .call .commit, .call .start, .call .query, .call .query, .call .commit] ++
    List.replicate cases (.round 1 [.start, .prepare, .getPlan, .query, .commit, .free]) ++
    [.call .detach]
  | parallelWorkers =>
    [.call .attachOrCreate, .call .getXpbBuilder, .call .insertString, .call .insertString,
      .call .insertString, .call .insertInt, .call .getBufferLength, .call .getBuffer,
      .call .attachDatabase, .call .start, .call .query, .call .query, .call .commit,
      .call .attachOrCreate, .call .start, .call .query, .call .query, .tolerated .exec,
      .call .exec, .call .commitRetaining, .call .exec, .call .commitRetaining, .call .query,
      .round 1 [.exec, .commitRetaining], .call .query, .call .commit]
  | threading =>
    [.call .attachOrCreate, .call .start, .tolerated .exec, .call .commit, .call .start,
      .call .exec, .call .commit, .call .start, .call .query, .call .commit,
      .round 12 [.start, .query, .query, .commit], .call .start, .call .query, .call .commit]

end Sample

/-! ### The threads -/

/-- Where a helper stands. -/
inductive HelperThread where
  | before (rest : List EngineCall)
  /-- At the condition of the loop. -/
  | testing
  | looping (rest : List EngineCall)
  | after (rest : List EngineCall)
  | finished

/-- The helper is at a call to the engine. -/
def HelperThread.calls : HelperThread → Bool
  | .before rest | .looping rest | .after rest => !rest.isEmpty
  | .testing | .finished => false

/-- A helper that has been started. -/
structure Helper where
  thread : HelperThread
  /-- It has been told to stop. -/
  told : Bool
  joined : Bool

/-- Where the main thread stands. -/
inductive MainThread where
  /-- In front of a part. -/
  | parts (rest : List Part)
  | starting (helpers : ℕ) (work : List EngineCall) (rest : List Part)
  | working (work : List EngineCall) (rest : List Part)
  | joining (rest : List Part)
  /-- In the handler. -/
  | reporting
  | returned (code : ℤ)

/-- No helper is running. -/
def MainThread.alone : MainThread → Bool
  | .parts _ | .reporting | .returned _ => true
  | _ => false

/-- The helpers are being joined. -/
def MainThread.joins : MainThread → Bool
  | .joining _ => true
  | _ => false

/-- A process. -/
structure Process where
  main : MainThread
  helpers : List Helper
  /-- `running`, or the negation of `stop`. -/
  running : Bool
  /-- A call of the main thread has thrown out of the `try` block. -/
  threw : Bool
  terminated : Bool

namespace Process

/-- The process at the beginning of the `try` block. -/
def started (sample : Sample) : Process where
  main := .parts sample.main
  helpers := []
  running := true
  threw := false
  terminated := false

/-- A step of one of the threads, whose call to the engine may throw. -/
inductive Action where
  | main (throws : Bool)
  /-- With the choice of a round. -/
  | helper (i : ℕ) (throws : Bool) (choice : ℕ)

/-- No thread is left that has not been joined. -/
def AllJoined (s : Process) : Prop :=
  ∀ h ∈ s.helpers, h.joined = true

instance (s : Process) : Decidable s.AllJoined :=
  inferInstanceAs (Decidable (∀ h ∈ s.helpers, h.joined = true))

/-- The `try` block is left: the threads are destroyed, and the main thread goes on, if it can. -/
def leave (s : Process) (main : MainThread) : Process :=
  if s.AllJoined then { s with main } else { s with terminated := true }

/-- A call of the main thread, and where it goes on. -/
def callEngine (s : Process) (throws : Bool) (main : MainThread) : Process :=
  if throws then leave { s with threw := true } .reporting else { s with main }

/-- All helpers are told to stop, if they look at it. -/
def tellAll (f : HelperFunction) (helpers : List Helper) : List Helper :=
  helpers.map fun h ↦ { h with told := h.told || !f.bodies.isEmpty }

/-- A step of the main thread. Only a call to the engine can throw. -/
def mainStep (f : HelperFunction) (s : Process) (throws : Bool) : Option Process :=
  match s.main, throws with
  | .parts (.call _ :: rest), throws => some (s.callEngine throws (.parts rest))
  | .parts (.tolerated _ :: rest), _ => some { s with main := .parts rest }
  | .working (_ :: work) rest, throws => some (s.callEngine throws (.working work rest))
  | .parts [], false => some (s.leave (.returned 0))
  | .parts (.round n work :: rest), false =>
    some { s with main := .starting n work rest, running := true }
  | .starting 0 work rest, false => some { s with main := .working work rest }
  | .starting (n + 1) work rest, false =>
    some { s with
      main := .starting n work rest
      helpers := s.helpers ++ [{ thread := .before f.before, told := false, joined := false }] }
  | .working [] rest, false =>
    some { s with
      main := .joining rest
      running := false
      helpers := tellAll f s.helpers }
  | .joining rest, false =>
    match s.helpers.findIdx? (!·.joined) with
    | none => some { s with main := .parts rest }
    | some i =>
      match s.helpers[i]? with
      | some { thread := .finished, told, joined := _ } =>
        some { s with helpers := s.helpers.set i { thread := .finished, told, joined := true } }
      | _ => none
  | .reporting, false => some { s with main := .returned 1 }
  | _, _ => none

/-- A step of a helper that does not throw. -/
def advance (f : HelperFunction) (running : Bool) (choice : ℕ) : HelperThread → Option HelperThread
  | .before (_ :: rest) => some (.before rest)
  | .before [] => some (if f.bodies.isEmpty then .after f.after else .testing)
  | .testing => if running then f.bodies[choice]?.map .looping else some (.after f.after)
  | .looping (_ :: rest) => some (.looping rest)
  | .looping [] => some .testing
  | .after (_ :: rest) => some (.after rest)
  | .after [] => some .finished
  | .finished => none

/-- A step of a helper. An exception ends it or the process. -/
def helperStep (f : HelperFunction) (s : Process) (i : ℕ) (throws : Bool) (choice : ℕ) :
    Option Process :=
  match s.helpers[i]? with
  | none => none
  | some h =>
    if throws then
      if h.thread.calls then
        if f.catches then
          some { s with helpers := s.helpers.set i { h with thread := .finished } }
        else
          some { s with terminated := true }
      else
        none
    else
      match advance f s.running choice h.thread with
      | none => none
      | some thread => some { s with helpers := s.helpers.set i { h with thread } }

/-- A step of the process, until it is terminated. -/
def step (f : HelperFunction) (s : Process) (a : Action) : Option Process :=
  if s.terminated then none
  else
    match a with
    | .main throws => s.mainStep f throws
    | .helper i throws choice => s.helperStep f i throws choice

/-! ### Runs without harm -/

/-- The main thread throws only if all helpers have been joined, and a helper throws only if its
function catches the exception. -/
def Harmless (f : HelperFunction) (s : Process) : Action → Prop
  | .main throws => throws = true → s.AllJoined
  | .helper _ throws _ => throws = true → f.catches = true

/-- What holds as long as no harm is done. -/
structure Orderly (f : HelperFunction) (s : Process) : Prop where
  alive : s.terminated = false
  joined : s.main.alone = true → s.AllJoined
  told : ∀ h ∈ s.helpers, h.joined = true ∨ s.main.joins = true → f.bodies ≠ [] → h.told = true
  reports : s.threw = true → s.main = .reporting ∨ s.main = .returned 1

variable {f : HelperFunction} {s t : Process} {i choice : ℕ} {throws : Bool}

theorem leave_of_allJoined (h : s.AllJoined) (main : MainThread) :
    s.leave main = { s with main } :=
  if_pos h

/-- A call of the main thread does no harm if it does not throw, or nothing is left to be joined. -/
theorem Orderly.callEngine (hs : s.Orderly f) (hthrew : s.threw = false) {main : MainThread}
    (halone : main.alone = true → s.AllJoined) (hjoins : main.joins = false)
    (hthrows : throws = true → s.AllJoined) : (s.callEngine throws main).Orderly f := by
  rw [Process.callEngine]
  split_ifs with h
  · have hall : AllJoined { s with threw := true } := hthrows h
    rw [leave_of_allJoined hall]
    exact ⟨hs.alive, fun _ ↦ hall, fun h hmem hjoined ↦ hs.told h hmem (Or.inl (hall h hmem)),
      fun _ ↦ Or.inl rfl⟩
  · refine ⟨hs.alive, halone, fun h hmem hjoined ↦ hs.told h hmem ?_, fun h ↦ ?_⟩
    · rcases hjoined with hjoined | hjoined
      · exact Or.inl hjoined
      · rw [hjoins] at hjoined
        cases hjoined
    · rw [hthrew] at h
      cases h

/-- Away from the handler, nothing has been thrown. -/
theorem Orderly.threw_eq_false (hs : s.Orderly f) (hreporting : s.main ≠ .reporting)
    (hreturned : s.main ≠ .returned 1) : s.threw = false :=
  Bool.eq_false_iff.2 fun h ↦ (hs.reports h).elim hreporting hreturned

/-- The main thread goes on without an exception, with the helpers as they are. -/
theorem Orderly.goOn (hs : s.Orderly f) {main : MainThread} {running : Bool}
    (hthrew : s.threw = false) (halone : main.alone = true → s.AllJoined)
    (hjoins : main.joins = false) : Orderly f { s with main, running } where
  alive := hs.alive
  joined := halone
  told h hmem hjoined := hs.told h hmem (Or.inl (hjoined.resolve_right (by simp [hjoins])))
  reports h := absurd h (by simp [hthrew])

/-- A helper is started, which has neither been told to stop nor joined. -/
theorem Orderly.start (hs : s.Orderly f) (hthrew : s.threw = false) (n : ℕ) (work : List EngineCall)
    (rest : List Part) (thread : HelperThread) :
    Orderly f { s with
      main := .starting n work rest
      helpers := s.helpers ++ [{ thread, told := false, joined := false }] } where
  alive := hs.alive
  joined h := nomatch h
  told h hmem hjoined := by
    rcases List.mem_append.1 hmem with hmem | hmem
    · exact hs.told h hmem (Or.inl (hjoined.resolve_right (fun h ↦ nomatch h)))
    · obtain rfl := List.mem_singleton.1 hmem
      exact (hjoined.elim (fun h ↦ nomatch h) fun h ↦ nomatch h)
  reports h := absurd h (by simp [hthrew])

/-- The helpers are told to stop, before any of them is joined. -/
theorem Orderly.tell (hs : s.Orderly f) (hthrew : s.threw = false) (rest : List Part) :
    Orderly f { s with
      main := .joining rest
      running := false
      helpers := tellAll f s.helpers } where
  alive := hs.alive
  joined h := nomatch h
  told h hmem _ hbodies := by
    obtain ⟨h', -, rfl⟩ := List.mem_map.1 hmem
    simp [hbodies]
  reports h := absurd h (by simp [hthrew])

/-- A helper is joined, while the helpers are. -/
theorem Orderly.join (hs : s.Orderly f) (hthrew : s.threw = false) {rest : List Part}
    (hmain : s.main = .joining rest) {h : Helper} (hget : s.helpers[i]? = some h) :
    Orderly f { s with helpers := s.helpers.set i { h with joined := true } } where
  alive := hs.alive
  joined halone := by
    rw [hmain] at halone
    cases halone
  told h' hmem _ := by
    have hjoins : s.main.joins = true := by
      rw [hmain]
      rfl
    rcases List.mem_or_eq_of_mem_set hmem with hmem | rfl
    · exact hs.told h' hmem (Or.inr hjoins)
    · exact hs.told h (List.mem_of_getElem? hget) (Or.inr hjoins)
  reports h := absurd h (by simp [hthrew])

/-- A harmless step of the main thread. -/
theorem orderly_mainStep (hs : s.Orderly f) (hharmless : throws = true → s.AllJoined)
    (h : s.mainStep f throws = some t) : t.Orderly f := by
  have hthrew : s.main ≠ .reporting → s.main ≠ .returned 1 → s.threw = false := hs.threw_eq_false
  unfold mainStep at h
  split at h
  -- between the rounds, where all helpers are joined
  · next rest _ hmain =>
    obtain rfl := Option.some.inj h
    have hall := hs.joined (by rw [hmain]; rfl)
    exact hs.callEngine (hthrew (by simp [hmain]) (by simp [hmain])) (fun _ ↦ hall) rfl hharmless
  · next rest _ hmain =>
    obtain rfl := Option.some.inj h
    have hall := hs.joined (by rw [hmain]; rfl)
    exact hs.goOn (hthrew (by simp [hmain]) (by simp [hmain])) (fun _ ↦ hall) rfl
  -- within a round, where a harmless call does not throw
  · next work rest _ hmain =>
    obtain rfl := Option.some.inj h
    exact hs.callEngine (hthrew (by simp [hmain]) (by simp [hmain])) (fun h ↦ nomatch h) rfl
      hharmless
  · next hmain =>
    obtain rfl := Option.some.inj h
    have hall := hs.joined (by rw [hmain]; rfl)
    rw [leave_of_allJoined hall]
    exact hs.goOn (hthrew (by simp [hmain]) (by simp [hmain])) (fun _ ↦ hall) rfl
  · next hmain =>
    obtain rfl := Option.some.inj h
    exact hs.goOn (hthrew (by simp [hmain]) (by simp [hmain])) (fun h ↦ nomatch h) rfl
  · next hmain =>
    obtain rfl := Option.some.inj h
    exact hs.goOn (hthrew (by simp [hmain]) (by simp [hmain])) (fun h ↦ nomatch h) rfl
  · next n work rest hmain =>
    obtain rfl := Option.some.inj h
    exact hs.start (hthrew (by simp [hmain]) (by simp [hmain])) n work rest _
  · next rest hmain =>
    obtain rfl := Option.some.inj h
    exact hs.tell (hthrew (by simp [hmain]) (by simp [hmain])) rest
  -- the helpers are joined one by one
  · next rest hmain =>
    have hthrew' := hthrew (by simp [hmain]) (by simp [hmain])
    split at h
    · next hnone =>
      obtain rfl := Option.some.inj h
      refine hs.goOn hthrew' (fun _ h hmem ↦ ?_) rfl
      simpa using List.findIdx?_eq_none_iff.1 hnone h hmem
    · next i _ =>
      split at h
      · next hget =>
        obtain rfl := Option.some.inj h
        exact hs.join hthrew' hmain hget
      · cases h
  · next hmain =>
    obtain rfl := Option.some.inj h
    have hall := hs.joined (by rw [hmain]; rfl)
    exact ⟨hs.alive, fun _ ↦ hall, fun h hmem _ ↦ hs.told h hmem (Or.inl (hall h hmem)),
      fun _ ↦ Or.inr rfl⟩
  · cases h

/-- Another place of a helper. -/
theorem Orderly.move (hs : s.Orderly f) {h : Helper} (hget : s.helpers[i]? = some h)
    (thread : HelperThread) :
    Orderly f { s with helpers := s.helpers.set i { h with thread } } where
  alive := hs.alive
  joined halone h' hmem := by
    rcases List.mem_or_eq_of_mem_set hmem with hmem | rfl
    · exact hs.joined halone h' hmem
    · exact hs.joined halone h (List.mem_of_getElem? hget)
  told h' hmem := by
    rcases List.mem_or_eq_of_mem_set hmem with hmem | rfl
    · exact hs.told h' hmem
    · exact hs.told h (List.mem_of_getElem? hget)
  reports := hs.reports

/-- A harmless step of a helper. -/
theorem orderly_helperStep (hs : s.Orderly f) (hharmless : throws = true → f.catches = true)
    (h : s.helperStep f i throws choice = some t) : t.Orderly f := by
  rw [helperStep] at h
  split at h
  · cases h
  · next hget =>
    split_ifs at h with hthrows _ hcatches
    · obtain rfl := Option.some.inj h
      exact hs.move hget _
    · exact absurd (hharmless hthrows) hcatches
    · split at h
      · cases h
      · obtain rfl := Option.some.inj h
        exact hs.move hget _

theorem orderly_started (f : HelperFunction) (sample : Sample) : (started sample).Orderly f where
  alive := rfl
  joined _ _ hmem := absurd hmem List.not_mem_nil
  told _ hmem := absurd hmem List.not_mem_nil
  reports h := nomatch h

theorem orderly_step {a : Action} (hs : s.Orderly f) (hharmless : s.Harmless f a)
    (h : step f s a = some t) : t.Orderly f := by
  unfold step at h
  rw [if_neg (by simp [hs.alive])] at h
  cases a with
  | main throws => exact orderly_mainStep hs hharmless h
  | helper i throws choice => exact orderly_helperStep hs hharmless h

/-- A step that is not harmless terminates the process. -/
theorem terminated_of_not_harmless {a : Action} (hs : s.Orderly f) (hharmful : ¬ s.Harmless f a)
    (h : step f s a = some t) : t.terminated = true := by
  unfold step at h
  rw [if_neg (by simp [hs.alive])] at h
  cases a with
  | main throws =>
    obtain ⟨rfl, hnot⟩ : throws = true ∧ ¬ s.AllJoined := by
      rw [Harmless] at hharmful
      tauto
    have hmain : s.main.alone ≠ true := fun halone ↦ hnot (hs.joined halone)
    dsimp only at h
    unfold mainStep at h
    split at h
    · next hparts =>
      rw [hparts] at hmain
      exact absurd rfl hmain
    · next hparts =>
      rw [hparts] at hmain
      exact absurd rfl hmain
    · obtain rfl := Option.some.inj h
      rw [Process.callEngine, if_pos rfl, leave]
      exact congrArg Process.terminated (if_neg hnot)
    all_goals contradiction
  | helper i throws choice =>
    obtain ⟨rfl, hnot⟩ : throws = true ∧ f.catches ≠ true := by
      rw [Harmless] at hharmful
      tauto
    dsimp only at h
    rw [helperStep] at h
    split at h
    · cases h
    · rw [if_pos rfl, if_neg hnot] at h
      split_ifs at h
      obtain rfl := Option.some.inj h
      rfl

/-- Harmless runs are orderly. -/
theorem orderly_of_harmless {sample : Sample}
    (h : Reaches (step f) (Harmless f) (started sample) s) : s.Orderly f :=
  h.invariant (orderly_started f sample) fun _ _ _ hs hharmless h ↦ orderly_step hs hharmless h

/-- The process is alive exactly if all steps have been harmless. -/
theorem reaches_harmless_iff {sample : Sample} (h : Reachable (step f) (started sample) s) :
    s.terminated = false ↔ Reaches (step f) (Harmless f) (started sample) s := by
  refine ⟨fun halive ↦ ?_, fun h ↦ (orderly_of_harmless h).alive⟩
  induction h with
  | refl => exact .refl
  | @tail t u a _ _ hnext ih =>
    -- a terminated process takes no step
    have ht : t.terminated = false := by
      by_contra hterminated
      unfold step at hnext
      rw [if_pos (by simpa using hterminated)] at hnext
      cases hnext
    by_cases hharmless : t.Harmless f a
    · exact (ih ht).tail hharmless hnext
    · rw [terminated_of_not_harmless (orderly_of_harmless (ih ht)) hharmless hnext] at halive
      cases halive

/-- **An error ends in `report`** as long as no helper throws out of its function, and the main
thread does not throw between the start of a helper and its join: the process is not terminated, and
once a call of the main thread has thrown out of the `try` block, all helpers have been told to stop
and joined, and `main` reports the error and returns 1. With any other exception of this kind, the
process is terminated. -/
theorem error_reported (sample : Sample) :
    (∀ s, Reaches (step sample.helper) (Harmless sample.helper) (started sample) s →
      s.terminated = false ∧
        (s.threw = true → (∀ h ∈ s.helpers, h.joined = true ∧
          (sample.helper.bodies ≠ [] → h.told = true)) ∧
            (s.main = .reporting ∧ step sample.helper s (.main false) =
              some { s with main := .returned 1 } ∨ s.main = .returned 1))) ∧
    ∀ s, Reachable (step sample.helper) (started sample) s →
      (s.terminated = false ↔
        Reaches (step sample.helper) (Harmless sample.helper) (started sample) s) := by
  refine ⟨fun s h ↦ ?_, fun s h ↦ reaches_harmless_iff h⟩
  have hs := orderly_of_harmless h
  refine ⟨hs.alive, fun hthrew ↦ ⟨fun h hmem ↦ ?_, ?_⟩⟩
  · have hjoined : h.joined = true := by
      refine hs.joined ?_ h hmem
      rcases hs.reports hthrew with hmain | hmain
      · rw [hmain]
        rfl
      · rw [hmain]
        rfl
    exact ⟨hjoined, hs.told h hmem (Or.inl hjoined)⟩
  · refine (hs.reports hthrew).imp_left fun hmain ↦ ⟨hmain, ?_⟩
    unfold step mainStep
    rw [if_neg (by simp [hs.alive]), hmain]

/-- The first call of the main thread throws. -/
theorem error_reported_of_first_call :
    ∃ s, Reaches (step Sample.threading.helper) (Harmless Sample.threading.helper)
      (started .threading) s ∧ s.threw = true ∧ s.terminated = false := by
  have h : Reaches (step Sample.threading.helper) (Harmless Sample.threading.helper)
      (started .threading) _ :=
    .tail .refl (a := .main true) (fun _ _ hmem ↦ absurd hmem List.not_mem_nil) rfl
  exact ⟨_, h, rfl, ((error_reported .threading).1 _ h).1⟩

/-- The `attach` of `watcher` throws, the main thread of `parallel_workers` throws while the poller
runs, and the `attach` of a worker throws. -/
theorem terminated_of_exception :
    (∃ s, Reachable (step (Sample.sorting 2).helper) (started (.sorting 2)) s ∧
      s.terminated = true) ∧
    (∃ s, Reachable (step Sample.parallelWorkers.helper) (started .parallelWorkers) s ∧
      s.terminated = true) ∧
    ∃ s, Reachable (step Sample.threading.helper) (started .threading) s ∧ s.terminated = true :=
  ⟨exists_reachable_of_run (List.replicate 13 (.main false) ++ [.helper 0 true 0]) rfl,
    exists_reachable_of_run (List.replicate 26 (.main false) ++ [.main true]) rfl,
    exists_reachable_of_run (List.replicate 12 (.main false) ++ [.helper 0 true 0]) rfl⟩

end Process

end FirebirdSamples.Threads
