import Mathlib.Tactic.Push
import Mathlib.Tactic.SplitIfs
import FirebirdSamples.Grammar.Rules
import FirebirdSamples.Library.TextLines
import FirebirdSamples.Library.Transition

/-!
# The thread that reads the trace and the one that stops it

In the samples `trace.cpp` (for the C++ interface and for `fb-cpp`) and `trace.pas`, the main thread
reads the output of the trace session line by line, takes the id of the session from the line that
has it, and joins the worker when there are no more lines. The worker waits until there is an id,
and stops the session with this id.

If the main thread is at the join and has not seen an id, then both wait forever. An interleaving
that leads there exists exactly if the id is zero behind the last line (`reachable_stuck_iff`): in
C++ if no line has an id or the last line with one has a zero, and in Pascal if no line has an id
other than zero (`not_stuck_iff`).
-/

namespace FirebirdSamples.Trace

open Grammar TextLines Transition

/-! ### The two threads -/

/-- An answer to the query for a line. A character stands for a byte. -/
inductive Answer where
  | line (text : Text)
  /-- Anything that does not begin with `isc_info_svc_line`. -/
  | other

/-- `nextLine`, on the answers to come. The service ends its output with an empty line. -/
def nextLine : List Answer → Option (Text × List Answer)
  | .line text :: rest => if text = [] then none else some (text, rest)
  | _ => none

/-- Where the main thread stands. -/
inductive MainThread where
  | reading
  /-- In `worker.join()`. -/
  | joining
  | finished
deriving DecidableEq

/-- Where the worker stands. -/
inductive Worker where
  /-- At the statements that are to be traced. -/
  | observing
  /-- In the loop that waits for the id. -/
  | waiting
  | stopping
  | done
deriving DecidableEq

/-- The sample behind the start of the worker. -/
structure Sample where
  /-- The answers to come. -/
  rest : List Answer
  sessionId : Int32
  main : MainThread
  worker : Worker

/-- The sample when the worker starts. -/
def Sample.started (answers : List Answer) : Sample where
  rest := answers
  sessionId := 0
  main := .reading
  worker := .observing

/-- What the two threads do. -/
inductive Action where
  /-- `nextLine` and what is done with its line. -/
  | read
  | join
  | observe
  /-- The condition of the worker's loop. -/
  | check
  | stop

/-- What an action does, with `note id line` for the id behind a line. -/
def step (note : Int32 → Text → Int32) (s : Sample) : Action → Option Sample
  | .read =>
    if s.main = .reading then
      match nextLine s.rest with
      | none => some { s with main := .joining }
      | some (line, rest) => some { s with rest, sessionId := note s.sessionId line }
    else
      none
  | .join =>
    if s.main = .joining ∧ s.worker = .done then some { s with main := .finished } else none
  | .observe => if s.worker = .observing then some { s with worker := .waiting } else none
  | .check =>
    if s.worker = .waiting then
      if s.sessionId = 0 then some s else some { s with worker := .stopping }
    else
      none
  | .stop => if s.worker = .stopping then some { s with worker := .done } else none

/-- The main thread waits for the worker, and the worker for an id that no step will set. -/
def Sample.Stuck (note : Int32 → Text → Int32) (s : Sample) : Prop :=
  s.main = .joining ∧ s.worker = .waiting ∧ ∀ t, Reachable (step note) s t → t.sessionId = 0

/-! ### The samples -/

namespace Cpp

/-- `isspace`. -/
def isspace (x : Char) : Bool :=
  x == ' ' || (9 ≤ x.toNat && x.toNat ≤ 13)

/-- The conversion `%d`: a number, and what is behind it. -/
def number (s : Text) : Option (ℤ × Text) :=
  let t := s.dropWhile isspace
  let unsigned := if t.head? = some '-' ∨ t.head? = some '+' then t.tail else t
  let digits := unsigned.takeWhile Char.isDigit
  let n : ℤ := Nat.ofDigitChars 10 digits 0
  if digits = [] then none
  else some (if t.head? = some '-' then -n else n, unsigned.drop digits.length)

/-- `sscanf`, for a format with no other conversion than `%d`: the numbers that are assigned. -/
def sscanf : (format s : Text) → List ℤ
  | [], _ => []
  | '%' :: 'd' :: format, s =>
    match number s with
    | none => []
    | some (n, s) => n :: sscanf format s
  | c :: format, s =>
    if isspace c then sscanf format (s.dropWhile isspace)
    else
      match s with
      | [] => []
      | x :: s => if x = c then sscanf format s else []

/-- What `%d` leaves in an `int`. For a number that does not fit, this is not defined. -/
def toInt (beyond : ℤ → Int32) (n : ℤ) : Int32 :=
  if -2147483648 ≤ n ∧ n < 2147483648 then Int32.ofInt n else beyond n

/-- The id in a line, if `sscanf` returns 1. -/
def scanned (beyond : ℤ → Int32) (line : Text) : Option Int32 :=
  match sscanf "Trace session ID %d started".toList (line.takeWhile (· ≠ '\x00')) with
  | [id] => some (toInt beyond id)
  | _ => none

/-- The loop over the lines in `main`. -/
def note (beyond : ℤ → Int32) (sessionId : Int32) (line : Text) : Int32 :=
  (scanned beyond line).getD sessionId

end Cpp

namespace Pascal

/-- `Pos`: where a text occurs first, from 1 on, or 0. -/
def pos (sub s : Text) : ℕ :=
  match (List.range s.length).find? fun i ↦ sub.isPrefixOf (s.drop i) with
  | some i => i + 1
  | none => 0

/-- `Copy`. -/
def copy (s : Text) (index : ℕ) (count : ℤ) : Text :=
  (s.drop (index - 1)).take count.toNat

/-- `Trim`. -/
def trim (s : Text) : Text :=
  strip (fun x ↦ x.toNat ≤ 32) s

/-- The base that a number is written in, and its digits. -/
def base : Text → ℕ × Text
  | '$' :: s | 'x' :: s | 'X' :: s | '0' :: 'x' :: s | '0' :: 'X' :: s => (16, s)
  | '%' :: s => (2, s)
  | '&' :: s => (8, s)
  | s => (10, s)

/-- The value of a digit. -/
def digit (x : Char) : ℕ :=
  if x.isDigit then x.toNat - 48
  else if 'a' ≤ x ∧ x ≤ 'f' then x.toNat - 87
  else if 'A' ≤ x ∧ x ≤ 'F' then x.toNat - 55
  else 16

/-- `TryStrToInt`: a number with or without a sign, decimal or with a prefix for its base. -/
def tryStrToInt (s : Text) : Option Int32 :=
  let negative := s.head? = some '-'
  let (b, digits) := base (if negative ∨ s.head? = some '+' then s.tail else s)
  let n := digits.foldl (fun n x ↦ n * b + digit x) 0
  let limit := if b ≠ 10 then 4294967296 else if negative then 2147483649 else 2147483648
  if digits ≠ [] ∧ (∀ x ∈ digits, digit x < b) ∧ n < limit then
    some (Int32.ofInt (if negative then -n else n))
  else
    none

/-- `Trace session ID `. -/
def lead : Text :=
  "Trace session ID ".toList

/-- The id in a line. -/
def parsed (line : Text) : Option Int32 :=
  if pos lead line = 1 then
    tryStrToInt (trim (copy line (lead.length + 1)
      ((pos " started".toList line : ℤ) - lead.length - 1)))
  else
    none

/-- The loop over the lines in the main program. -/
def note (SessionID : Int32) (line : Text) : Int32 :=
  if SessionID = 0 then (parsed line).getD SessionID else SessionID

end Pascal

/-! ### Where both wait -/

/-- The lines up to the end of the output. -/
def linesRead : List Answer → List Text
  | .line text :: rest => if text = [] then [] else text :: linesRead rest
  | _ => []

namespace Sample

variable {note : Int32 → Text → Int32} {s t : Sample} {a : Action}

/-- The lines that the main thread has yet to read. -/
def pending (s : Sample) : List Text :=
  if s.main = .reading then linesRead s.rest else []

/-- What is read is the first of the lines. -/
theorem linesRead_eq (rest : List Answer) :
    (nextLine rest = none ∧ linesRead rest = []) ∨
      ∃ line rest',
        nextLine rest = some (line, rest') ∧ linesRead rest = line :: linesRead rest' := by
  match rest with
  | [] => exact Or.inl ⟨rfl, rfl⟩
  | .other :: _ => exact Or.inl ⟨rfl, rfl⟩
  | .line text :: rest =>
    rw [nextLine, linesRead]
    split_ifs
    · exact Or.inl ⟨rfl, rfl⟩
    · exact Or.inr ⟨text, rest, rfl, rfl⟩

/-- The id that there will be behind the last line does not change. -/
theorem foldl_pending_step (h : step note s a = some t) :
    t.pending.foldl note t.sessionId = s.pending.foldl note s.sessionId := by
  cases a with
  | read =>
    rw [step] at h
    split_ifs at h with hmain
    rw [pending, pending, if_pos hmain]
    obtain ⟨hnext, hlines⟩ | ⟨line, rest, hnext, hlines⟩ := linesRead_eq s.rest
    · rw [hnext] at h
      obtain rfl := Option.some.inj h
      rw [hlines]
      rfl
    · rw [hnext] at h
      obtain rfl := Option.some.inj h
      rw [hlines, if_pos hmain, List.foldl_cons]
  | join =>
    rw [step] at h
    split_ifs at h with hmain
    obtain rfl := Option.some.inj h
    rw [pending, pending, hmain.1]
    rfl
  | observe | stop =>
    rw [step] at h
    split_ifs at h
    obtain rfl := Option.some.inj h
    rfl
  | check =>
    rw [step] at h
    split_ifs at h
    · obtain rfl := Option.some.inj h
      rfl
    · obtain rfl := Option.some.inj h
      rfl

/-- Once both wait without an id, nothing changes any more. -/
theorem stuck_of_zero (hmain : s.main = .joining) (hworker : s.worker = .waiting)
    (hzero : s.sessionId = 0) : s.Stuck note := by
  refine ⟨hmain, hworker, fun t ht ↦ ?_⟩
  have hinv : t.main = .joining ∧ t.worker = .waiting ∧ t.sessionId = 0 := by
    refine ht.invariant (I := fun s ↦ s.main = .joining ∧ s.worker = .waiting ∧ s.sessionId = 0)
      ⟨hmain, hworker, hzero⟩ fun s a t hs _ h ↦ ?_
    obtain ⟨hmain, hworker, hzero⟩ := hs
    cases a with
    | check =>
      rw [step, if_pos hworker, if_pos hzero] at h
      obtain rfl := Option.some.inj h
      exact ⟨hmain, hworker, hzero⟩
    | read | join | observe | stop => simp [step, hmain, hworker] at h
  exact hinv.2.2

/-- The main thread can read all lines before the worker looks for the id. -/
theorem exists_reachable_joining (answers : List Answer) (id : Int32) :
    ∃ rest, Reachable (step note) ⟨answers, id, .reading, .observing⟩
      ⟨rest, (linesRead answers).foldl note id, .joining, .observing⟩ := by
  induction answers generalizing id with
  | nil => exact ⟨[], .tail .refl (a := .read) trivial rfl⟩
  | cons answer answers ih =>
    obtain ⟨hnext, hlines⟩ | ⟨line, rest, hnext, hlines⟩ := linesRead_eq (answer :: answers)
    · refine ⟨answer :: answers, .tail .refl (a := .read) trivial ?_⟩
      rw [step, if_pos rfl, hnext, hlines]
      rfl
    · -- the induction goes on behind the line that has been read
      obtain rfl : rest = answers := by
        cases answer with
        | other => cases hnext
        | line text =>
          rw [nextLine] at hnext
          split_ifs at hnext
          exact (Prod.mk.inj (Option.some.inj hnext)).2.symm
      obtain ⟨rest', hrest'⟩ := ih (note id line)
      rw [hlines, List.foldl_cons]
      refine ⟨rest', .trans (.tail .refl (a := .read) trivial ?_) hrest'⟩
      rw [step, if_pos rfl, hnext]

/-- **The two threads can get stuck** exactly if the lines leave no id but zero. -/
theorem reachable_stuck_iff (answers : List Answer) :
    (∃ s, Reachable (step note) (started answers) s ∧ s.Stuck note) ↔
      (linesRead answers).foldl note 0 = 0 := by
  constructor
  · rintro ⟨s, hs, hmain, -, hzero⟩
    -- at the join there are no lines to come, so the id there will be is the one there is
    have hinv : s.pending.foldl note s.sessionId = (linesRead answers).foldl note 0 :=
      hs.invariant
        (I := fun s ↦ s.pending.foldl note s.sessionId = (linesRead answers).foldl note 0)
        rfl fun _ _ _ hs _ h ↦ (foldl_pending_step h).trans hs
    rw [pending, hmain] at hinv
    exact hinv.symm.trans (hzero s .refl)
  · intro hzero
    obtain ⟨rest, hrest⟩ : ∃ rest, Reachable (step note) (started answers)
        ⟨rest, (linesRead answers).foldl note 0, .joining, .observing⟩ :=
      exists_reachable_joining answers 0
    exact ⟨⟨rest, _, .joining, .waiting⟩, hrest.tail (a := .observe) trivial rfl,
      stuck_of_zero rfl rfl hzero⟩

end Sample

/-! ### When the samples cannot get stuck -/

/-- The last value found is the one that is kept. -/
theorem foldl_getD {α β : Type} (f : α → Option β) (l : List α) (x : β) :
    l.foldl (fun x a ↦ (f a).getD x) x = (l.filterMap f).getLast?.getD x := by
  induction l generalizing x with
  | nil => rfl
  | cons a l ih =>
    rw [List.foldl_cons, ih]
    rcases ha : f a with _ | y
    · rw [List.filterMap_cons_none ha]
      rfl
    · rw [List.filterMap_cons_some ha, List.getLast?_cons, Option.getD_some, Option.getD_some]

/-- The first id other than zero is the one that is kept. -/
theorem Pascal.foldl_note_eq_zero_iff (lines : List Text) :
    lines.foldl note 0 = 0 ↔ ∀ line ∈ lines, ∀ id, parsed line = some id → id = 0 := by
  have hkept : ∀ (lines : List Text) (id : Int32), id ≠ 0 → lines.foldl note id = id := by
    intro lines id hid
    induction lines with
    | nil => rfl
    | cons line lines ih => rw [List.foldl_cons, note, if_neg hid, ih]
  induction lines with
  | nil => exact iff_of_true rfl fun _ h ↦ absurd h List.not_mem_nil
  | cons line lines ih =>
    rw [List.foldl_cons, List.forall_mem_cons, note, if_pos rfl]
    rcases hparsed : parsed line with _ | id
    · rw [Option.getD_none, and_iff_right fun _ h ↦ nomatch h]
      exact ih
    · rw [Option.getD_some]
      rcases eq_or_ne id 0 with rfl | hid
      · rw [and_iff_right fun _ h ↦ (Option.some.inj h).symm]
        exact ih
      · rw [hkept lines id hid]
        exact iff_of_false hid fun h ↦ hid (h.1 id rfl)

/-- **The samples cannot get stuck** exactly if, in C++, there is a line with an id, and the last
one has another id than zero, and in Pascal, some line has an id other than zero. -/
theorem not_stuck_iff (beyond : ℤ → Int32) (answers : List Answer) :
    ((∀ s, Reachable (step (Cpp.note beyond)) (.started answers) s → ¬ s.Stuck (Cpp.note beyond)) ↔
      ∃ id, ((linesRead answers).filterMap (Cpp.scanned beyond)).getLast? = some id ∧ id ≠ 0) ∧
    ((∀ s, Reachable (step Pascal.note) (.started answers) s → ¬ s.Stuck Pascal.note) ↔
      ∃ line ∈ linesRead answers, ∃ id, Pascal.parsed line = some id ∧ id ≠ 0) := by
  have hnone : ∀ note : Int32 → Text → Int32,
      (∀ s, Reachable (step note) (.started answers) s → ¬ s.Stuck note) ↔
        (linesRead answers).foldl note 0 ≠ 0 := by
    intro note
    rw [Ne, ← Sample.reachable_stuck_iff]
    push Not
    rfl
  constructor
  · rw [hnone, show (linesRead answers).foldl (Cpp.note beyond) 0 = _ from foldl_getD _ _ _]
    rcases ((linesRead answers).filterMap (Cpp.scanned beyond)).getLast? with _ | id
    · simp
    · simp
  · rw [hnone, Ne, Pascal.foldl_note_eq_zero_iff]
    push Not
    rfl

/-- The usual stream has a line with the id. -/
example : Cpp.scanned (fun _ ↦ 0) "Trace session ID 7 started".toList = some 7 ∧
    Pascal.parsed "Trace session ID 7 started".toList = some 7 := by
  decide +kernel

/-- Without any line, the worker waits for an id, and the main thread for the worker. -/
theorem stuck_of_no_line :
    (∃ s, Reachable (step (Cpp.note fun _ ↦ 0)) (.started []) s ∧ s.Stuck (Cpp.note fun _ ↦ 0)) ∧
      ∃ s, Reachable (step Pascal.note) (.started []) s ∧ s.Stuck Pascal.note :=
  ⟨(Sample.reachable_stuck_iff []).2 rfl, (Sample.reachable_stuck_iff []).2 rfl⟩

end FirebirdSamples.Trace
