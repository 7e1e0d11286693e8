import FirebirdSamples.Library.StreamProgram
import FirebirdSamples.Wire.Arc4
import FirebirdSamples.Wire.Xdr
import Mathlib.Logic.Relation

/-!
# The asynchronous reader

The class `Reader` of `samples/nodejs/srp-handshake.js`, and the processes that use it. The `data`
handler (`Reader.onData`) and the part of `take` that runs once enough bytes are there
(`Reader.take`) are the script's statements on the fields `chunks`, `len`, `waiter` and `dec`. An
`async` function is a program over the byte stream (`Async`): each `await this.take(n)` is a
request, and everything it does to the outside — arming the decryptor, writing to the socket,
handing a result to its caller — is an effect in its log.

**Interleaving.** A `Process` is one such program in front of one reader. Two kinds of steps change
it: a `data` event (`Process.data`), at any time and with any bytes, and a step of the program
(`Process.step`). A `take` that finds too few bytes leaves a promise behind and stores its resolver
in `waiter`; a later event resolves it, and the program tests `len` again when it resumes. Nothing
is assumed about when events arrive between two steps.

**The invariant.** `Tracks p plain s` says that the program has consumed a prefix of the delivered
plaintext along its reference run, that the buffer holds exactly the rest, that `len` is the number
of bytes in the buffer, and that a program still waiting for an unresolved promise really lacks
bytes. Every event preserves it (`Tracks.data`), and so does every step that does not answer a
negative request (`Tracks.step`).
-/

namespace FirebirdSamples.Wire

/-! ### Programs -/

/-- What the script's functions throw. -/
inductive JsError where
  /-- An access outside a buffer, or a number that does not fit. -/
  | rangeError
  /-- A text that is not a number. -/
  | syntaxError
  /-- `new Error(message)`. -/
  | error (message : String)
  /-- The bound on the rounds of a loop is used up. The script has no such bound and no such
  error. -/
  | outOfFuel
  deriving DecidableEq

/-- What an `async` function does to the outside. -/
inductive Effect (ρ : Type) where
  /-- `r.enableDecryption(cipher)`. -/
  | enableDecryption (cipher : Arc4)
  /-- `socket.write(bytes)`. -/
  | write (bytes : Buffer)
  /-- A result handed to the caller. -/
  | note (r : ρ)

/-- An `async` function that reads from a `Reader`. -/
abbrev Async (ρ α : Type) : Type :=
  StreamProgram UInt8 (Effect ρ) JsError α

variable {ρ α : Type}

namespace Await

open StreamProgram

/-- `await this.take(n)`. -/
def take (n : ℤ) : Async ρ Buffer :=
  request n

/-- A value that may be missing, or the error of the accessor. -/
def orThrow (e : JsError) : Option α → Async ρ α
  | some a => done a
  | none => fail e

/-- `int()`. -/
def int : Async ρ ℤ := do
  let b ← take 4
  orThrow .rangeError (Buffer.readInt32BE b)

/-- `bytes()`. -/
def bytes : Async ρ Buffer := do
  let n ← int
  let data ← take n
  let _ ← take (padding n)
  pure data

end Await

/-! ### The reader -/

/-- The fields of a `Reader`. The resolver in `waiter` is named by the promise it resolves. -/
structure Reader where
  /-- The buffers received and not yet consumed. -/
  chunks : List Buffer
  /-- The number of bytes `chunks` is believed to hold. -/
  len : ℤ
  /-- The resolver of the promise a `take` waits for. -/
  waiter : Option ℕ
  /-- The decryptor, once it is armed. -/
  dec : Option Arc4

namespace Reader

/-- The constructor. -/
def new : Reader where
  chunks := []
  len := 0
  waiter := none
  dec := none

/-- The bytes the buffers hold. -/
def buffered (r : Reader) : Buffer :=
  r.chunks.flatten

/-- A buffer as the `data` handler stores it. -/
def decode (r : Reader) (d : Buffer) : Buffer :=
  match r.dec with
  | some c => (c.transform d).1
  | none => d

/-- The `data` handler, apart from the call of the waiter. -/
def onData (r : Reader) (d : Buffer) : Reader where
  chunks := r.chunks ++ [r.decode d]
  len := r.len + d.length
  waiter := r.waiter
  dec := r.dec.map fun c ↦ (c.transform d).2

/-- The part of `take` after its loop: the bytes returned and the reader left behind. -/
def take (r : Reader) (n : ℤ) : Buffer × Reader :=
  let all := r.chunks.flatten
  (Buffer.subarray all 0 n,
    { r with chunks := [Buffer.subarray all n all.length], len := all.length - n })

/-- The effect of a program on its reader. -/
def perform (r : Reader) : Effect ρ → Reader
  | .enableDecryption cipher => { r with dec := some cipher }
  | .write _ => r
  | .note _ => r

theorem decode_of_none {r : Reader} (h : r.dec = none) (d : Buffer) : r.decode d = d := by
  rw [decode, h]

theorem decode_of_some {r : Reader} {c : Arc4} (h : r.dec = some c) (d : Buffer) :
    r.decode d = (c.transform d).1 := by
  rw [decode, h]

@[simp] theorem length_decode (r : Reader) (d : Buffer) : (r.decode d).length = d.length := by
  unfold decode
  split
  · exact Arc4.length_transform _ _
  · rfl

@[simp] theorem buffered_onData (r : Reader) (d : Buffer) :
    (r.onData d).buffered = r.buffered ++ r.decode d := by
  simp [buffered, onData]

@[simp] theorem buffered_perform (r : Reader) (w : Effect ρ) :
    (r.perform w).buffered = r.buffered := by
  cases w <;> rfl

@[simp] theorem len_perform (r : Reader) (w : Effect ρ) : (r.perform w).len = r.len := by
  cases w <;> rfl

/-- The reader holds exactly these bytes, and counts them correctly. -/
structure Holds (r : Reader) (bs : Buffer) : Prop where
  /-- The bytes in the buffers. -/
  buffered_eq : r.buffered = bs
  /-- Their number. -/
  len_eq : r.len = bs.length

/-- **A granted request**: for a count the buffer can honour, `take` splits the buffer there. -/
theorem Holds.take {r : Reader} {bs : Buffer} (h : r.Holds bs) {n : ℤ} (hn : 0 ≤ n)
    (hle : n ≤ r.len) :
    (r.take n).1 = bs.take n.toNat ∧ (r.take n).2.Holds (bs.drop n.toNat) := by
  have hall : r.chunks.flatten = bs := h.buffered_eq
  have hlen : n ≤ bs.length := by rw [← h.len_eq]; exact hle
  refine ⟨?_, ?_, ?_⟩
  · show Buffer.subarray r.chunks.flatten 0 n = _
    rw [hall, Buffer.subarray_zero hn]
  · show [Buffer.subarray r.chunks.flatten n r.chunks.flatten.length].flatten = _
    rw [hall, Buffer.subarray_length hn hlen, List.flatten_singleton]
  · show ((r.chunks.flatten.length : ℤ) - n) = _
    rw [hall, List.length_drop]
    omega

end Reader

/-! ### Processes -/

/-- What a process is doing: running its program, or suspended in the loop of a `take`. -/
inductive Task (ρ α : Type) where
  | running (p : Async ρ α)
  | awaiting (promise : ℕ) (n : ℤ) (k : Buffer → Async ρ α)

/-- The program a task still has to run. A suspended `take` has not been granted. -/
def Task.program : Task ρ α → Async ρ α
  | .running p => p
  | .awaiting _ n k => .take n k

/-- One program in front of one reader. -/
structure Process (ρ α : Type) where
  /-- The reader. -/
  reader : Reader
  /-- What the program is doing. -/
  task : Task ρ α
  /-- The number of promises made so far; the next one gets this name. -/
  promises : ℕ
  /-- The promises that are resolved. -/
  resolved : List ℕ
  /-- The effects so far. -/
  log : List (Effect ρ)

namespace Process

/-- A program in front of a fresh reader. -/
def start (p : Async ρ α) : Process ρ α where
  reader := .new
  task := .running p
  promises := 0
  resolved := []
  log := []

/-- A `data` event: the handler of the reader, then the call of the waiter. -/
def data (s : Process ρ α) (d : Buffer) : Process ρ α :=
  { s with
    reader := s.reader.onData d
    resolved := s.reader.waiter.toList ++ s.resolved }

/-- One pass of the loop of `take`. -/
def takeStep (s : Process ρ α) (n : ℤ) (k : Buffer → Async ρ α) : Process ρ α :=
  if s.reader.len < n then
    { s with
      reader := { s.reader with waiter := some s.promises }
      task := .awaiting s.promises n k
      promises := s.promises + 1 }
  else
    { s with
      reader := (s.reader.take n).2
      task := .running (k (s.reader.take n).1) }

/-- A step of the program; `none` when it has ended or waits for an unresolved promise. -/
def step (s : Process ρ α) : Option (Process ρ α) :=
  match s.task with
  | .running (.done _) => none
  | .running (.fail _) => none
  | .running (.take n k) => some (s.takeStep n k)
  | .running (.act w k) =>
    some { s with reader := s.reader.perform w, task := .running k, log := s.log ++ [w] }
  | .awaiting promise n k => if promise ∈ s.resolved then some (s.takeStep n k) else none

/-- **What a step does**: one pass of the loop of a pending `take`, or one effect. -/
theorem step_cases {s s' : Process ρ α} (h : s.step = some s') :
    (∃ n k, s.task.program = .take n k ∧ s' = s.takeStep n k) ∨
      ∃ w k, s.task = .running (.act w k) ∧
        s' = { s with reader := s.reader.perform w, task := .running k, log := s.log ++ [w] } := by
  unfold step at h
  split at h
  · cases h
  · cases h
  · next n k htask =>
    exact Or.inl ⟨n, k, by rw [htask]; rfl, (Option.some.inj h).symm⟩
  · next w k htask => exact Or.inr ⟨w, k, htask, (Option.some.inj h).symm⟩
  · next promise n k htask =>
    split at h
    · exact Or.inl ⟨n, k, by rw [htask]; rfl, (Option.some.inj h).symm⟩
    · cases h

/-- The request the program is about to make, or suspended in, is not negative. -/
def NextNonneg (s : Process ρ α) : Prop :=
  ∀ n k, s.task.program = .take n k → 0 ≤ n

/-- The states of a program after a sequence of events and steps, with the bytes received so far.
Steps are taken only from states that satisfy `C`. -/
inductive ReachesIf (C : Process ρ α → Prop) (p : Async ρ α) : Buffer → Process ρ α → Prop where
  | start : ReachesIf C p [] (Process.start p)
  | data {raw : Buffer} {s : Process ρ α} (d : Buffer) (h : ReachesIf C p raw s) :
      ReachesIf C p (raw ++ d) (s.data d)
  | step {raw : Buffer} {s s' : Process ρ α} (h : ReachesIf C p raw s) (hC : C s)
      (hs : s.step = some s') : ReachesIf C p raw s'

/-- The states of a program after any sequence of events and steps. -/
abbrev Reaches (p : Async ρ α) (raw : Buffer) (s : Process ρ α) : Prop :=
  ReachesIf (fun _ ↦ True) p raw s

/-- Finitely many steps of the program, with no event in between. -/
abbrev Steps : Process ρ α → Process ρ α → Prop :=
  Relation.ReflTransGen fun s s' ↦ s.step = some s'

end Process

/-! ### The invariant -/

open StreamProgram

/-- The state `s` has consumed a prefix of the plaintext `plain` along a run of `p`, and its reader
holds the rest. -/
structure Tracks (p : Async ρ α) (plain : Buffer) (s : Process ρ α) : Prop where
  /-- The consumed prefix, along the reference run. -/
  runs : ∃ cs, Runs p cs s.log s.task.program ∧ cs ++ s.reader.buffered = plain
  /-- The count of the buffered bytes is right. -/
  len_eq : s.reader.len = s.reader.buffered.length
  /-- A program waiting for an unresolved promise lacks bytes, and the next event wakes it. -/
  wakes : ∀ promise n k, s.task = .awaiting promise n k → promise ∉ s.resolved →
    s.reader.len < n ∧ s.reader.waiter = some promise

theorem Tracks.holds {p : Async ρ α} {plain : Buffer} {s : Process ρ α} (h : Tracks p plain s) :
    s.reader.Holds s.reader.buffered :=
  ⟨rfl, h.len_eq⟩

theorem tracks_start (p : Async ρ α) : Tracks p [] (Process.start p) where
  runs := ⟨[], .refl p, rfl⟩
  len_eq := rfl
  wakes _ _ _ h := by cases h

/-- **Events preserve the invariant.** -/
theorem Tracks.data {p : Async ρ α} {plain : Buffer} {s : Process ρ α} (h : Tracks p plain s)
    (d : Buffer) : Tracks p (plain ++ s.reader.decode d) (s.data d) where
  runs := by
    obtain ⟨cs, hrun, hcs⟩ := h.runs
    refine ⟨cs, hrun, ?_⟩
    show cs ++ (s.reader.onData d).buffered = _
    rw [Reader.buffered_onData, ← List.append_assoc, hcs]
  len_eq := by
    show s.reader.len + d.length = ((s.reader.onData d).buffered.length : ℤ)
    rw [Reader.buffered_onData, List.length_append, Reader.length_decode, h.len_eq]
    push_cast
    rfl
  wakes promise n k htask hres := by
    -- an unresolved promise cannot be the one whose resolver the event just called
    have hres' : promise ∉ s.reader.waiter.toList ∧ promise ∉ s.resolved := by
      simpa [Process.data, not_or] using hres
    obtain ⟨-, hwaiter⟩ := h.wakes promise n k htask hres'.2
    exact absurd (by simp [hwaiter]) hres'.1

/-- **Steps preserve the invariant**, unless they answer a negative request. -/
theorem Tracks.step {p : Async ρ α} {plain : Buffer} {s s' : Process ρ α} (h : Tracks p plain s)
    (hnext : s.NextNonneg) (hs : s.step = some s') : Tracks p plain s' := by
  obtain ⟨cs, hrun, hcs⟩ := h.runs
  rcases Process.step_cases hs with ⟨n, k, hprog, rfl⟩ | ⟨w, k, htask, rfl⟩
  · have hn : 0 ≤ n := hnext n k hprog
    rw [hprog] at hrun
    unfold Process.takeStep
    split_ifs with hlt
    · exact ⟨⟨cs, hrun, hcs⟩, h.len_eq, fun promise m k' htask _ ↦ by
        cases htask
        exact ⟨hlt, rfl⟩⟩
    · obtain ⟨hdata, hholds⟩ := h.holds.take hn (by omega)
      have hlen : n.toNat ≤ s.reader.buffered.length := by
        have := h.len_eq
        omega
      have hgrant : ((s.reader.take n).1.length : ℤ) = n := by
        rw [hdata, List.length_take, Nat.min_eq_left hlen, Int.toNat_of_nonneg hn]
      refine ⟨⟨cs ++ (s.reader.take n).1, hrun.grant hgrant, ?_⟩, ?_, fun _ _ _ htask ↦ by
        cases htask⟩
      · show (cs ++ (s.reader.take n).1) ++ (s.reader.take n).2.buffered = plain
        rw [hdata, hholds.buffered_eq, List.append_assoc, List.take_append_drop, hcs]
      · show (s.reader.take n).2.len = _
        rw [hholds.len_eq, hholds.buffered_eq]
  · rw [htask] at hrun
    refine ⟨⟨cs, hrun.perform, ?_⟩, ?_, fun _ _ _ h' ↦ by cases h'⟩
    · show cs ++ (s.reader.perform w).buffered = plain
      rw [Reader.buffered_perform, hcs]
    · show (s.reader.perform w).len = ((s.reader.perform w).buffered.length : ℤ)
      rw [Reader.buffered_perform, Reader.len_perform, h.len_eq]

end FirebirdSamples.Wire
