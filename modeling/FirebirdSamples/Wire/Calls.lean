import FirebirdSamples.Wire.ReaderRuns

/-!
# Sequential calls on a reader

A client of the class `Reader` of `samples/nodejs/srp-handshake.js` that awaits one
`int()`, `bytes()` or `take(n)` after the other (`runCalls`). What a call returned, or the error it
threw, is noted before the next call starts.

Two results, for every segmentation of the stream and every interleaving of its `data` events with
the steps of the client:

* `calls_read_items` — on a stream that starts with what `Writer` serialised, the calls return the
  items, and the bytes consumed are those of the completed items and a part of the next one;
* `calls_sound_of_nextNonneg` — on any stream whatsoever, the count of buffered bytes stays right
  and each completed call has consumed what it announced (`Consumes`), **as long as no `take` is
  asked for a negative number of bytes**. `bytes()` asks for one whenever its length word has the
  high bit set, and then both statements fail (`calls_unsound_of_high_bit`).
-/

namespace FirebirdSamples.Wire

open StreamProgram

/-! ### The client -/

/-- A call of a method of the reader. -/
inductive Call where
  | int
  | bytes
  | take (n : ℤ)
  deriving DecidableEq

/-- What a call returns. -/
inductive Value where
  | int (v : ℤ)
  | bytes (b : Buffer)
  deriving DecidableEq

/-- A completed call: what was called, and what it returned or threw. -/
abbrev Completed : Type :=
  Call × Except JsError Value

namespace Call

/-- The program of a call. -/
def run : Call → Async Completed Value
  | .int => .int <$> Await.int
  | .bytes => .bytes <$> Await.bytes
  | .take n => .bytes <$> Await.take n

end Call

/-- Await the calls one after the other. -/
def runCalls : List Call → Async Completed Unit
  | [] => pure ()
  | c :: cs => do
    let r ← c.run.attempt
    perform (.note (c, r))
    runCalls cs

/-! ### Items -/

/-- An item that `Writer` serialises. -/
inductive Item where
  /-- A signed 32-bit number. -/
  | int (v : Word)
  /-- A byte string. -/
  | bytes (b : Opaque)

namespace Item

/-- Append the item to a writer. -/
def write (w : Writer) : Item → Option Writer
  | .int v => w.int v
  | .bytes b => w.bytes b

/-- The call that reads the item. -/
def call : Item → Call
  | .int _ => .int
  | .bytes _ => .bytes

/-- The result that call should have. -/
def value : Item → Value
  | .int v => .int v
  | .bytes b => .bytes b

/-- The bytes of the item. -/
def encode : Item → Buffer
  | .int v => xdrInt v
  | .bytes b => xdrBytes b

/-- The call that reads the item, completed with it. -/
def completed (i : Item) : Completed :=
  (i.call, .ok i.value)

end Item

/-- Write the items one after the other. -/
def serialize (items : List Item) : Option Buffer :=
  (items.foldlM Item.write .new).map Writer.buf

theorem Item.write_eq (w : Writer) (i : Item) :
    ∃ w', i.write w = some w' ∧ w'.buf = w.buf ++ i.encode := by
  rcases i with v | b
  · exact w.int_of_isInt32 v.2
  · exact w.bytes_of_length_lt b.2

theorem foldlM_write (items : List Item) (w : Writer) :
    ∃ w', items.foldlM Item.write w = some w' ∧ w'.buf = w.buf ++ items.flatMap Item.encode := by
  induction items generalizing w with
  | nil => exact ⟨w, rfl, by simp⟩
  | cons i items ih =>
    obtain ⟨w₁, hw₁, hbuf₁⟩ := i.write_eq w
    obtain ⟨w₂, hw₂, hbuf₂⟩ := ih w₁
    refine ⟨w₂, ?_, ?_⟩
    · rw [List.foldlM_cons, hw₁]
      exact hw₂
    · rw [hbuf₂, hbuf₁, List.flatMap_cons, List.append_assoc]

/-- Serialising never throws on items, and concatenates their bytes. -/
theorem serialize_eq (items : List Item) : serialize items = some (items.flatMap Item.encode) := by
  obtain ⟨w, hw, hbuf⟩ := foldlM_write items .new
  rw [serialize, hw, Option.map_some, hbuf]
  rfl

/-! ### Reading items -/

section Reading

variable {ρ : Type}

theorem readInt32BE_xdrInt {v : ℤ} (h : IsInt32 v) : Buffer.readInt32BE (xdrInt v) = some v := by
  have := Buffer.readInt32BE_wordBE h []
  rwa [List.append_nil] at this

/-- `int()` reads exactly the four bytes of an integer. -/
theorem runs_int {v : ℤ} (h : IsInt32 v) :
    Runs (Await.int : Async ρ ℤ) (xdrInt v) [] (.done v) := by
  have hrun : Runs (Await.int : Async ρ ℤ) (xdrInt v ++ []) [] (.done v) := by
    refine .take rfl ?_
    show Runs (Await.orThrow .rangeError (Buffer.readInt32BE (xdrInt v)) : Async ρ ℤ) _ _ _
    rw [readInt32BE_xdrInt h]
    exact .refl _
  rwa [List.append_nil] at hrun

/-- `take(n)` reads `n` bytes. -/
theorem runs_take {n : ℤ} {d : Buffer} (h : (d.length : ℤ) = n) :
    Runs (Await.take n : Async ρ Buffer) d [] (.done d) := by
  have hrun : Runs (Await.take n : Async ρ Buffer) (d ++ []) [] (.done d) := .take h (.refl _)
  rwa [List.append_nil] at hrun

/-- `bytes()` reads exactly an opaque, its padding included. -/
theorem runs_bytes {b : Buffer} (h : b.length < 2147483648) :
    Runs (Await.bytes : Async ρ Buffer) (xdrBytes b) [] (.done b) := by
  have hpad : ((List.replicate (padding b.length).toNat (0 : UInt8)).length : ℤ) =
      padding b.length := by
    rw [List.length_replicate, Int.toNat_of_nonneg (padding_nonneg _)]
  have htail : Runs (Await.take (padding b.length) >>= fun _ ↦ pure b : Async ρ Buffer)
      (List.replicate (padding b.length).toNat 0 ++ []) [] (.done b) :=
    (runs_take hpad).bind_done (.refl _)
  rw [List.append_nil] at htail
  exact (runs_int (isInt32_length h)).bind_done ((runs_take rfl).bind_done htail)

end Reading

/-- **One call reads one item.** -/
theorem runs_call (i : Item) : Runs i.call.run.attempt i.encode [] (.done (.ok i.value)) := by
  refine Runs.attempt (r := .ok i.value) ?_
  rcases i with v | b
  · have := (runs_int (ρ := Completed) v.2).bind fun v ↦ pure (Value.int v)
    exact this
  · have := (runs_bytes (ρ := Completed) b.2).bind fun b ↦ pure (Value.bytes b)
    exact this

/-- The reference run of the calls that match the items. -/
theorem runs_calls (items : List Item) :
    Runs (runCalls (items.map Item.call)) (items.flatMap Item.encode)
      (items.map fun i ↦ .note i.completed) (.done ()) := by
  induction items with
  | nil => exact .refl _
  | cons i items ih => exact (runs_call i).bind_done (.act ih)

/-- Where the calls stand after a prefix of the stream: some items are read completely and noted,
and the bytes after them are a part of the next one. -/
theorem runs_calls_cases (items : List Item) {cs s s' : Buffer} {ws : List (Effect Completed)}
    {q : Async Completed Unit} (h : Runs (runCalls (items.map Item.call)) cs ws q)
    (hs : cs ++ s = items.flatMap Item.encode ++ s') :
    ∃ got left part, items = got ++ left ∧ ws = got.map (fun i ↦ .note i.completed) ∧
      cs = got.flatMap Item.encode ++ part ∧ part <+: (left.take 1).flatMap Item.encode := by
  induction items generalizing cs ws with
  | nil =>
    obtain ⟨rfl, rfl, -⟩ := runs_done_iff.1 h
    exact ⟨[], [], [], rfl, rfl, rfl, List.prefix_refl _⟩
  | cons i items ih =>
    rw [List.flatMap_cons, List.append_assoc] at hs
    rw [List.map_cons, runCalls] at h
    rcases (runs_call i).bind_cases_of_done h hs with
      ⟨p', ds, -, hi, rfl, -⟩ | ⟨cs', rfl, hrun⟩
    · refine ⟨[], i :: items, cs, rfl, rfl, rfl, ds, ?_⟩
      rw [List.take_succ_cons, List.take_zero, List.flatMap_singleton, hi]
    · have hs' : cs' ++ s = items.flatMap Item.encode ++ s' := by
        rw [List.append_assoc] at hs
        exact List.append_cancel_left hs
      cases hrun with
      | refl =>
        exact ⟨[], i :: items, i.encode ++ [], rfl, rfl, by simp, by simp⟩
      | act hrun =>
        obtain ⟨got, left, part, rfl, rfl, rfl, hpart⟩ := ih hrun hs'
        exact ⟨i :: got, left, part, rfl, rfl, by simp, hpart⟩

/-- **Serialised items are read back under every segmentation and interleaving.** Serialising
succeeds; on the serialised bytes and anything behind them, the completed calls are those of the
first items, the consumed bytes are those items and a part of the next one, the rest is still
buffered, the last call leaves exactly what follows the items, and it completes without another
event once all of them have arrived. -/
theorem calls_read_items (items : List Item) (rest : Buffer) :
    ∃ stream, serialize items = some stream ∧
      ∀ raw s, Process.Reaches (runCalls (items.map Item.call)) raw s → raw <+: stream ++ rest →
        (∃ got left part, items = got ++ left ∧
          s.log = got.map (fun i ↦ .note i.completed) ∧
          part <+: (left.take 1).flatMap Item.encode ∧
          got.flatMap Item.encode ++ part ++ s.reader.buffered = raw) ∧
        (s.task.program.outcome ≠ none →
          s.log = items.map (fun i ↦ .note i.completed) ∧ raw = stream ++ s.reader.buffered) ∧
        (stream <+: raw → ∃ s', Process.Steps s s' ∧ s'.task.program = .done () ∧
          raw = stream ++ s'.reader.buffered) := by
  refine ⟨_, serialize_eq items, fun raw s h hraw ↦ ?_⟩
  have href : Runs _ _ _ (ended (.ok ())) := runs_calls items
  have hclear : ∀ c, Effect.enableDecryption c ∉
      items.map fun i ↦ (.note i.completed : Effect Completed) := by
    intro c hc
    obtain ⟨i, -, hi⟩ := List.mem_map.1 hc
    cases hi
  obtain ⟨ht, -⟩ := tracks_of_runs href hclear h hraw
  refine ⟨?_, fun hout ↦ ?_, fun hstream ↦ ?_⟩
  · obtain ⟨cs, hrun, hcs⟩ := ht.runs
    obtain ⟨t, hpre⟩ := hraw
    obtain ⟨got, left, part, hitems, hlog, rfl, hpart⟩ := runs_calls_cases items hrun
      (s := s.reader.buffered ++ t) (by rw [← List.append_assoc, hcs, hpre])
    exact ⟨got, left, part, hitems, hlog, hpart, hcs⟩
  · obtain ⟨-, hlog, heq⟩ := ht.ended href hraw hout
    exact ⟨hlog, heq⟩
  · exact ht.finishes href hstream

/-- The items 5 and `[1, 2, 3]`, cut inside the first word and inside the payload, with one more
byte behind them: the client waits for the rest of the word, and one event later it can finish. -/
theorem calls_read_items_cut_twice :
    ∃ s, Process.Reaches (runCalls [.int, .bytes]) [0, 0, 0, 5, 0, 0, 0, 3, 1, 2, 3, 0, 9] s ∧
      s.log = [] ∧ ∃ s', Process.Steps s s' ∧ s'.task.program = .done () ∧
        s'.reader.buffered = [9] := by
  obtain ⟨stream, hstream, hall⟩ :=
    calls_read_items [.int ⟨5, by decide⟩, .bytes ⟨[1, 2, 3], by decide⟩] [9]
  obtain rfl : [0, 0, 0, 5, 0, 0, 0, 3, 1, 2, 3, 0] = stream := by
    rw [serialize_eq] at hstream
    exact Option.some.inj hstream
  have hreach : Process.Reaches (runCalls [.int, .bytes])
      ((([] ++ [0, 0]) ++ [0, 5, 0, 0, 0, 3, 1]) ++ [2, 3, 0, 9]) _ :=
    .data _ (.data _ (.step (.data _ .start) trivial rfl))
  obtain ⟨-, -, hfin⟩ := hall _ _ hreach (by decide)
  obtain ⟨s', hsteps, hdone, hraw⟩ := hfin (by decide)
  have hraw' : ([0, 0, 0, 5, 0, 0, 0, 3, 1, 2, 3, 0] ++ [9] : Buffer) =
      [0, 0, 0, 5, 0, 0, 0, 3, 1, 2, 3, 0] ++ s'.reader.buffered := hraw
  have hbuf : [9] = s'.reader.buffered := List.append_cancel_left hraw'
  exact ⟨_, hreach, rfl, s', hsteps, hdone, hbuf.symm⟩

/-! ### Any stream -/

/-- What a completed call has consumed, and what it returned for it. -/
inductive Consumes : Call → Buffer → Except JsError Value → Prop where
  | int {word : Buffer} {v : ℤ} (hword : word.length = 4)
      (hv : Buffer.readInt32BE word = some v) : Consumes .int word (.ok (.int v))
  | bytes {word data pad : Buffer} (hword : word.length = 4)
      (hdata : Buffer.readInt32BE word = some (data.length : ℤ))
      (hpad : (pad.length : ℤ) = padding data.length) :
      Consumes .bytes (word ++ (data ++ pad)) (.ok (.bytes data))
  | take {n : ℤ} {data : Buffer} (hdata : (data.length : ℤ) = n) :
      Consumes (.take n) data (.ok (.bytes data))

theorem silent_int {ρ : Type} : (Await.int : Async ρ ℤ).Silent := by
  intro d
  show (Await.orThrow .rangeError (Buffer.readInt32BE d) : Async ρ ℤ).Silent
  rcases Buffer.readInt32BE d with _ | v
  · trivial
  · trivial

theorem silent_call (c : Call) : c.run.attempt.Silent := by
  refine Silent.attempt ?_
  rcases c with _ | _ | n
  · exact silent_int.bind fun v ↦ trivial
  · refine Silent.bind (silent_int.bind fun n ↦ ?_) fun b ↦ trivial
    exact fun data pad ↦ trivial
  · exact fun data ↦ trivial

/-- A granted word is a number: `int()` never throws. -/
theorem runs_int_done {ρ : Type} {f : ℤ → Async ρ Value} {cs : Buffer} {ws : List (Effect ρ)}
    {r : Except JsError Value} (h : Runs (attempt (Await.int >>= f)) cs ws (.done r)) :
    ∃ word v ds, word.length = 4 ∧ Buffer.readInt32BE word = some v ∧ cs = word ++ ds ∧
      Runs (f v).attempt ds ws (.done r) := by
  obtain ⟨word, ds, hlen, rfl, hrun⟩ := Runs.exists_grant h
  have hword : word.length = 4 := by omega
  obtain ⟨v, hv, -⟩ := Buffer.readInt32BE_eq_some_of_length hword
  refine ⟨word, v, ds, hword, hv, rfl, ?_⟩
  have hprog : ((Await.orThrow .rangeError (Buffer.readInt32BE word) : Async ρ ℤ) >>= f) = f v := by
    rw [hv]
    rfl
  rw [← hprog]
  exact hrun

/-- **One completed call.** -/
theorem consumes_of_runs {c : Call} {cs : Buffer} {ws : List (Effect Completed)}
    {r : Except JsError Value} (h : Runs c.run.attempt cs ws (.done r)) : Consumes c cs r := by
  rcases c with _ | _ | n
  · obtain ⟨word, v, ds, hword, hv, rfl, hrun⟩ := runs_int_done h
    obtain ⟨rfl, -, hr⟩ := runs_done_iff.1 hrun
    obtain rfl : Except.ok (Value.int v) = r := by injection hr with hr; exact hr.symm
    rw [List.append_nil]
    exact .int hword hv
  · rw [Call.run, Await.bytes, map_bind] at h
    obtain ⟨word, v, ds, hword, hv, rfl, hrun⟩ := runs_int_done h
    obtain ⟨data, ds₁, hdata, rfl, hrun₁⟩ := Runs.exists_grant hrun
    obtain ⟨pad, ds₂, hpad, rfl, hrun₂⟩ := Runs.exists_grant hrun₁
    obtain ⟨rfl, -, hr⟩ := runs_done_iff.1 hrun₂
    obtain rfl : Except.ok (Value.bytes data) = r := by injection hr with hr; exact hr.symm
    rw [List.append_nil]
    subst hdata
    exact .bytes hword hv hpad
  · obtain ⟨data, ds, hdata, rfl, hrun⟩ := Runs.exists_grant h
    obtain ⟨rfl, -, hr⟩ := runs_done_iff.1 hrun
    obtain rfl : Except.ok (Value.bytes data) = r := by injection hr with hr; exact hr.symm
    rw [List.append_nil]
    exact .take hdata

/-- **Any sequence of calls.** The bytes consumed are those of the completed calls, in order, and a
part read by the call in progress. -/
theorem runs_calls_consumes (calls : List Call) {cs : Buffer} {ws : List (Effect Completed)}
    {q : Async Completed Unit} (h : Runs (runCalls calls) cs ws q) :
    ∃ (notes : List Completed) (segs : List Buffer) (part : Buffer),
      List.Forall₂ (fun note seg ↦ Consumes note.1 seg note.2) notes segs ∧
      ws = notes.map .note ∧ notes.map Prod.fst <+: calls ∧ cs = segs.flatten ++ part ∧
      (q.outcome ≠ none → notes.map Prod.fst = calls ∧ part = []) := by
  induction calls generalizing cs ws with
  | nil =>
    obtain ⟨rfl, rfl, rfl⟩ := runs_done_iff.1 h
    exact ⟨[], [], [], .nil, rfl, List.prefix_refl _, rfl, fun _ ↦ ⟨rfl, rfl⟩⟩
  | cons c calls ih =>
    rw [runCalls] at h
    rcases h.bind_cases with ⟨p', hp, rfl⟩ | ⟨r, cs₁, ws₁, cs₂, ws₂, hp, hf, rfl, rfl⟩
    · refine ⟨[], [], cs, .nil, hp.eq_nil_of_silent (silent_call c), List.nil_prefix, rfl, ?_⟩
      -- a call in progress is not the end: an attempt does not throw, and a note follows it
      intro hq
      obtain ⟨p'', rfl⟩ := hp.exists_attempt
      rcases p'' with _ | _ | _ | _ <;> exact absurd rfl hq
    · obtain rfl := hp.eq_nil_of_silent (silent_call c)
      have hc := consumes_of_runs hp
      cases hf with
      | refl =>
        exact ⟨[], [], cs₁ ++ [], .nil, rfl, List.nil_prefix, rfl, fun hq ↦ absurd rfl hq⟩
      | act hf =>
        obtain ⟨notes, segs, part, hall, rfl, hpre, rfl, hend⟩ := ih hf
        refine ⟨(c, r) :: notes, cs₁ :: segs, part, .cons hc hall, rfl, ?_, by simp, ?_⟩
        · rw [List.map_cons, List.cons_prefix_cons]
          exact ⟨rfl, hpre⟩
        · intro hq
          obtain ⟨hnotes, hpart⟩ := hend hq
          exact ⟨by rw [List.map_cons, hnotes], hpart⟩

theorem runs_calls_clear (calls : List Call) (cs : Buffer) (ws : List (Effect Completed))
    (q : Async Completed Unit) (h : Runs (runCalls calls) cs ws q) (c : Arc4) :
    Effect.enableDecryption c ∉ ws := by
  obtain ⟨notes, -, -, -, rfl, -⟩ := runs_calls_consumes calls h
  intro hc
  obtain ⟨note, -, hnote⟩ := List.mem_map.1 hc
  cases hnote

/-- **The reader on hostile input.** Whatever bytes arrive, in whatever pieces, and whatever calls
are made: in every state of a run that never answers a request for a negative number of bytes,
`len` counts the buffered bytes, the received bytes are the segments of the completed calls, a part
of the call in progress and the buffered ones, in this order, and a completed `bytes()` has returned
as many bytes as its length word says. -/
theorem calls_sound_of_nextNonneg (calls : List Call) {raw : Buffer}
    {s : Process Completed Unit}
    (h : Process.ReachesIf Process.NextNonneg (runCalls calls) raw s) :
    s.reader.len = s.reader.buffered.length ∧
      ∃ (notes : List Completed) (segs : List Buffer) (part : Buffer),
        List.Forall₂ (fun note seg ↦ Consumes note.1 seg note.2) notes segs ∧
        s.log = notes.map .note ∧ notes.map Prod.fst <+: calls ∧
        segs.flatten ++ part ++ s.reader.buffered = raw ∧
        (s.task.program.outcome ≠ none → notes.map Prod.fst = calls ∧ part = []) := by
  have ht := tracks_of_nextNonneg (runs_calls_clear calls) h
  obtain ⟨cs, hrun, hcs⟩ := ht.runs
  obtain ⟨notes, segs, part, hall, hlog, hpre, rfl, hend⟩ := runs_calls_consumes calls hrun
  exact ⟨ht.len_eq, notes, segs, part, hall, hlog, hpre, hcs, hend⟩

set_option maxRecDepth 4000 in
/-- An opaque of three bytes, still without its padding: nothing is asked for that is negative. -/
theorem calls_sound_of_nextNonneg_three_bytes :
    ∃ s, Process.ReachesIf Process.NextNonneg (runCalls [.bytes]) [0, 0, 0, 3, 97, 98, 99] s ∧
      s.reader.len = 0 ∧ s.reader.len = s.reader.buffered.length := by
  have hreach : Process.ReachesIf Process.NextNonneg (runCalls [.bytes])
      ([] ++ [0, 0, 0, 3, 97, 98, 99]) _ :=
    .step (.step (.data _ .start) (fun n k h ↦ by injection h with h; omega) rfl)
      (fun n k h ↦ by injection h with h; rw [← h]; decide) rfl
  exact ⟨_, hreach, rfl, (calls_sound_of_nextNonneg [.bytes] hreach).1⟩

set_option maxRecDepth 4000 in
/-- **A length word with the high bit set** is asked for as a negative number of bytes: `len` says
four while one byte is buffered, and the call returns two bytes without an error. -/
theorem calls_unsound_of_high_bit :
    (∃ s, Process.Reaches (runCalls [.bytes]) [255, 255, 255, 255, 97, 98, 99] s ∧
      s.reader.len = 4 ∧ s.reader.buffered = [99]) ∧
      ∃ s, Process.Reaches (runCalls [.bytes]) [255, 255, 255, 255, 97, 98, 99] s ∧
        s.log = [.note (.bytes, .ok (.bytes [97, 98]))] ∧
        Buffer.readInt32BE [255, 255, 255, 255] = some (-1) := by
  have hreach : Process.Reaches (runCalls [.bytes]) ([] ++ [255, 255, 255, 255, 97, 98, 99]) _ :=
    .step (.step (.data _ .start) trivial rfl) trivial rfl
  refine ⟨⟨_, hreach, rfl, rfl⟩, _, .step (.step hreach trivial rfl) trivial rfl, rfl, rfl⟩

end FirebirdSamples.Wire
