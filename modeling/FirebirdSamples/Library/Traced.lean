import Mathlib.Data.List.Basic

/-!
# Computations that leave a trace

A computation that records what it does, entry by entry, and ends with a value or an exception. The
trace is kept when an exception is thrown, so that it also says how far a failed computation came.

`Traced.after` puts a trace in front of a computation. Every equation about a traced program can be
stated with it: sequencing behind a value leaves the trace of the first part in front
(`bind_of_ok`), and behind an exception nothing is run (`bind_of_error`).
-/

/-- A trace of entries `ω`, and a value `α` or an exception `ε`. -/
structure Traced (ω ε α : Type) where
  /-- What has been recorded, in order. -/
  log : List ω
  /-- How the computation ended. -/
  result : Except ε α

namespace Traced

variable {ω ε α β : Type}

/-- A computation behind a trace. -/
def after (t : Traced ω ε α) (log : List ω) : Traced ω ε α where
  log := log ++ t.log
  result := t.result

/-- Run a computation and continue with its value. -/
protected def bind (t : Traced ω ε α) (f : α → Traced ω ε β) : Traced ω ε β :=
  match t.result with
  | .ok a => (f a).after t.log
  | .error e => ⟨t.log, .error e⟩

instance : Monad (Traced ω ε) where
  pure a := ⟨[], .ok a⟩
  bind := Traced.bind

/-- Record an entry. -/
def emit (w : ω) : Traced ω ε PUnit :=
  ⟨[w], .ok ⟨⟩⟩

/-- A computation that records nothing. -/
def lift (x : Except ε α) : Traced ω ε α :=
  ⟨[], x⟩

@[simp] theorem after_after (t : Traced ω ε α) (log log' : List ω) :
    (t.after log).after log' = t.after (log' ++ log) := by
  rw [after, after, after, List.append_assoc]

@[simp] theorem after_log (t : Traced ω ε α) (log : List ω) : (t.after log).log = log ++ t.log :=
  rfl

theorem bind_of_ok (log : List ω) (a : α) (f : α → Traced ω ε β) :
    ((⟨log, .ok a⟩ : Traced ω ε α) >>= f) = (f a).after log :=
  rfl

theorem bind_of_error (log : List ω) (e : ε) (f : α → Traced ω ε β) :
    ((⟨log, .error e⟩ : Traced ω ε α) >>= f) = ⟨log, .error e⟩ :=
  rfl

theorem emit_bind (w : ω) (f : PUnit → Traced ω ε β) : emit w >>= f = (f ⟨⟩).after [w] := rfl

theorem lift_ok_bind (a : α) (f : α → Traced ω ε β) : lift (.ok a) >>= f = f a := rfl

theorem lift_error_bind (e : ε) (f : α → Traced ω ε β) :
    (lift (.error e) : Traced ω ε α) >>= f = ⟨[], .error e⟩ :=
  rfl

end Traced
