import FirebirdSamples.Wire.Calls
import Mathlib.Data.List.Basic

/-!
# Parsing a response packet

`readResponse` of `samples/nodejs/srp-handshake.js`, called after the opcode of an `op_response` was
read: handle, blob id, response data, and a status vector of clauses ended by a zero. The loop over
the vector is bounded by a number of rounds (`fuel`); every statement is about all bounds from the
length of the vector on.

**Packets.** `Response` is the public encoding: a clause of one of the kinds in `NumTag` carries an
integer, a clause of one of the kinds in `TextTag` a string, and `Response.outcome` is what a client
should make of it.

**The mix-up of two tags.** The script takes 19 for the tag of a warning and reads an integer behind
it. A warning has tag 18, and 19 is the tag of an SQL state, which carries a string. Packets without
these two kinds of clauses are read exactly (`runs_readResponse`); for every sequence of clause
kinds that contains one of them, there are packets that are not (`readsExactly_response_iff`): zero
bytes in an SQL state end the loop early, and a warning with code zero adds an empty text to the
error.
-/

namespace FirebirdSamples.Wire

open StreamProgram

variable {ρ : Type}

/-! ### The parser -/

/-- The loop of `readResponse` over the status vector. -/
def readStatus : ℕ → List String → Async ρ (List String)
  | 0, _ => fail .outOfFuel
  | fuel + 1, text => do
    let t ← Await.int
    if t = 0 then
      pure text
    else if t = 1 ∨ t = 4 ∨ t = 19 then
      let c ← Await.int
      readStatus fuel (if t = 1 ∧ c ≠ 0 then text ++ ["gds " ++ toString c] else text)
    else
      let b ← Await.bytes
      readStatus fuel (text ++ [Buffer.toText b])

/-- The error `readResponse` throws. -/
def serverError (text : List String) : JsError :=
  .error ("server error: " ++ ", ".intercalate text)

/-- `readResponse(r)`. -/
def readResponse (fuel : ℕ) : Async ρ ℤ := do
  let handle ← Await.int
  let _ ← Await.take 8
  let _ ← Await.bytes
  let text ← readStatus fuel []
  if text.length ≠ 0 then
    fail (serverError text)
  else
    pure handle

/-! ### Packets -/

/-- The kinds of clauses that carry an integer. -/
inductive NumTag where
  | gds
  | number
  | warning
  deriving DecidableEq

/-- The kinds of clauses that carry a string. -/
inductive TextTag where
  | string
  | interpreted
  | sqlState
  deriving DecidableEq

/-- `isc_arg_gds`, `isc_arg_number`, `isc_arg_warning`. -/
def NumTag.code : NumTag → ℤ
  | .gds => 1
  | .number => 4
  | .warning => 18

/-- `isc_arg_string`, `isc_arg_interpreted`, `isc_arg_sql_state`. -/
def TextTag.code : TextTag → ℤ
  | .string => 2
  | .interpreted => 5
  | .sqlState => 19

/-- The kind of a clause. -/
abbrev Tag : Type :=
  NumTag ⊕ TextTag

/-- A clause of a status vector. -/
inductive Clause where
  | num (tag : NumTag) (v : Word)
  | text (tag : TextTag) (b : Opaque)

namespace Clause

/-- The kind of the clause. -/
def tag : Clause → Tag
  | num tag _ => .inl tag
  | text tag _ => .inr tag

/-- The bytes of the clause. -/
def encode : Clause → Buffer
  | num tag v => xdrInt tag.code ++ xdrInt v
  | text tag b => xdrInt tag.code ++ xdrBytes b

/-- What an error shows of the clause: a non-zero gds code, or a string. -/
def shown : Clause → Option String
  | num .gds v => if v.1 ≠ 0 then some ("gds " ++ toString v.1) else none
  | num _ _ => none
  | text _ b => some (Buffer.toText b)

end Clause

/-- An `op_response`, without its opcode. -/
structure Response where
  /-- The object handle. -/
  handle : Word
  /-- The blob id. -/
  blobId : {b : Buffer // b.length = 8}
  /-- The response data. -/
  data : Opaque
  /-- The status vector. -/
  vector : List Clause

namespace Response

/-- The bytes of the packet behind its opcode. -/
def encode (resp : Response) : Buffer :=
  xdrInt resp.handle ++ (resp.blobId ++ (xdrBytes resp.data ++
    (resp.vector.flatMap Clause.encode ++ xdrInt 0)))

/-- What the packet says: the handle, or an error that lists what its clauses show. -/
def outcome (resp : Response) : Except JsError ℤ :=
  let texts := resp.vector.filterMap Clause.shown
  if texts = [] then .ok resp.handle else .error (serverError texts)

/-- The parser reads exactly the packet, for every segmentation of the stream and whatever follows,
and ends as the packet says. -/
def ConsumedExactly (resp : Response) : Prop :=
  ∃ bound, ∀ fuel, bound ≤ fuel →
    ReadsExactly (readResponse fuel : Async Completed ℤ) resp.encode resp.outcome

end Response

/-! ### Reading clauses -/

theorem NumTag.code_ne_zero (tag : NumTag) : tag.code ≠ 0 := by
  rcases tag <;> decide

theorem TextTag.code_ne_zero (tag : TextTag) : tag.code ≠ 0 := by
  rcases tag <;> decide

theorem NumTag.isInt32_code (tag : NumTag) : IsInt32 tag.code := by
  rcases tag <;> decide

theorem TextTag.isInt32_code (tag : TextTag) : IsInt32 tag.code := by
  rcases tag <;> decide

/-- The zero that ends a vector. -/
theorem runs_readStatus_zero (fuel : ℕ) (text : List String) :
    Runs (readStatus (fuel + 1) text : Async ρ (List String)) (xdrInt 0) [] (.done text) := by
  rw [← List.append_nil (xdrInt 0)]
  refine (runs_int (by decide)).bind_done ?_
  rw [if_pos rfl]
  exact .refl _

/-- A tag taken for one that an integer follows. -/
theorem runs_readStatus_int (fuel : ℕ) (text : List String) {t c : ℤ} (ht : IsInt32 t)
    (hint : t = 1 ∨ t = 4 ∨ t = 19) (hc : IsInt32 c) :
    Runs (readStatus (fuel + 1) text : Async ρ (List String)) (xdrInt t ++ xdrInt c) []
      (readStatus fuel (if t = 1 ∧ c ≠ 0 then text ++ ["gds " ++ toString c] else text)) := by
  refine (runs_int ht).bind_done ?_
  rw [if_neg (by omega), if_pos hint]
  exact (runs_int hc).bind _

/-- A tag taken for one that a string follows. -/
theorem runs_readStatus_bytes (fuel : ℕ) (text : List String) {t : ℤ} {b : Buffer}
    (ht : IsInt32 t) (hzero : t ≠ 0) (hint : ¬ (t = 1 ∨ t = 4 ∨ t = 19))
    (hb : b.length < 2147483648) :
    Runs (readStatus (fuel + 1) text : Async ρ (List String)) (xdrInt t ++ xdrBytes b) []
      (readStatus fuel (text ++ [Buffer.toText b])) := by
  refine (runs_int ht).bind_done ?_
  rw [if_neg hzero, if_neg hint]
  exact (runs_bytes hb).bind _

/-- **One clause**, of a kind the script knows. -/
theorem runs_clause (fuel : ℕ) (text : List String) {c : Clause} (hw : c.tag ≠ .inl .warning)
    (hs : c.tag ≠ .inr .sqlState) :
    Runs (readStatus (fuel + 1) text : Async ρ (List String)) c.encode []
      (readStatus fuel (text ++ c.shown.toList)) := by
  rcases c with ⟨_ | _ | _, v, hv⟩ | ⟨_ | _ | _, b, hb⟩
  · have hrun := runs_readStatus_int (ρ := ρ) fuel text (t := 1) (by decide) (by decide) hv
    have htext : text ++ (Clause.num .gds ⟨v, hv⟩).shown.toList =
        if (1 : ℤ) = 1 ∧ v ≠ 0 then text ++ ["gds " ++ toString v] else text := by
      by_cases h : v = 0 <;> simp [Clause.shown, h]
    rw [htext]
    exact hrun
  · have hrun := runs_readStatus_int (ρ := ρ) fuel text (t := 4) (by decide) (by decide) hv
    rw [if_neg (by omega)] at hrun
    rw [show (Clause.num .number ⟨v, hv⟩).shown.toList = [] from rfl, List.append_nil]
    exact hrun
  · exact absurd rfl hw
  · exact runs_readStatus_bytes fuel text (t := 2) (by decide) (by decide) (by decide) hb
  · exact runs_readStatus_bytes fuel text (t := 5) (by decide) (by decide) (by decide) hb
  · exact absurd rfl hs

/-- **A whole vector** of such clauses. -/
theorem runs_readStatus (vector : List Clause) {fuel : ℕ} (text : List String)
    (hfuel : vector.length < fuel) (hw : .inl .warning ∉ vector.map Clause.tag)
    (hs : .inr .sqlState ∉ vector.map Clause.tag) :
    Runs (readStatus fuel text : Async ρ (List String))
      (vector.flatMap Clause.encode ++ xdrInt 0) []
      (.done (text ++ vector.filterMap Clause.shown)) := by
  induction vector generalizing fuel text with
  | nil =>
    obtain ⟨fuel, rfl⟩ : ∃ n, fuel = n + 1 := ⟨fuel - 1, by simp at hfuel; omega⟩
    rw [List.filterMap_nil, List.append_nil]
    exact runs_readStatus_zero fuel text
  | cons c vector ih =>
    rw [List.length_cons] at hfuel
    obtain ⟨fuel, rfl⟩ : ∃ n, fuel = n + 1 := ⟨fuel - 1, by omega⟩
    rw [List.map_cons, List.mem_cons, not_or] at hw hs
    have hclause := runs_clause (ρ := ρ) fuel text (c := c) (Ne.symm hw.1) (Ne.symm hs.1)
    have hrest := ih (text ++ c.shown.toList) (Nat.lt_of_succ_lt_succ hfuel) hw.2 hs.2
    have htext : text ++ c.shown.toList ++ vector.filterMap Clause.shown =
        text ++ (c :: vector).filterMap Clause.shown := by
      rw [List.append_assoc]
      rcases hshown : c.shown with _ | x <;> simp [hshown]
    rw [htext] at hrest
    rw [List.flatMap_cons, List.append_assoc]
    exact hclause.trans hrest

/-- The end of `readResponse`, once the vector is read. -/
def finishResponse (handle : ℤ) (text : List String) : Async ρ ℤ :=
  if text.length ≠ 0 then fail (serverError text) else pure handle

/-- The part of the packet in front of the vector. -/
theorem runs_readResponse_head (resp : Response) {fuel : ℕ} {cs : Buffer}
    {q : Async ρ (List String)} (h : Runs (readStatus fuel []) cs [] q) :
    Runs (readResponse fuel) (xdrInt resp.handle ++ (resp.blobId ++ (xdrBytes resp.data ++ cs))) []
      (q >>= finishResponse resp.handle) := by
  refine (runs_int resp.handle.2).bind_done ((runs_take ?_).bind_done
    ((runs_bytes resp.data.2).bind_done (h.bind _)))
  rw [resp.blobId.2]
  rfl

theorem finishResponse_eq (handle : ℤ) (text : List String) :
    (finishResponse handle text : Async ρ ℤ) =
      ended (if text = [] then .ok handle else .error (serverError text)) := by
  rcases text with _ | ⟨x, text⟩ <;> rfl

/-- The whole packet, as far as the vector is read to an end. -/
theorem runs_readResponse_done (resp : Response) {fuel : ℕ} {cs : Buffer} {text : List String}
    (h : Runs (readStatus fuel [] : Async ρ (List String)) cs [] (.done text)) :
    Runs (readResponse fuel : Async ρ ℤ)
      (xdrInt resp.handle ++ (resp.blobId ++ (xdrBytes resp.data ++ cs))) []
      (ended (if text = [] then .ok resp.handle else .error (serverError text))) := by
  rw [← finishResponse_eq]
  exact runs_readResponse_head resp h

/-- **A response without warnings and SQL states is read exactly.** -/
theorem runs_readResponse (resp : Response) {fuel : ℕ} (hfuel : resp.vector.length < fuel)
    (hw : .inl .warning ∉ resp.vector.map Clause.tag)
    (hs : .inr .sqlState ∉ resp.vector.map Clause.tag) :
    Runs (readResponse fuel : Async ρ ℤ) resp.encode [] (ended resp.outcome) :=
  runs_readResponse_done resp (runs_readStatus resp.vector [] hfuel hw hs)

/-! ### Packets that are not read exactly -/

/-- A clause of a given kind with a payload of zeros: the number zero, the empty string, and four
NUL bytes in an SQL state. -/
def zeroClause : Tag → Clause
  | .inl tag => .num tag ⟨0, by decide⟩
  | .inr .string => .text .string ⟨[], by decide⟩
  | .inr .interpreted => .text .interpreted ⟨[], by decide⟩
  | .inr .sqlState => .text .sqlState ⟨[0, 0, 0, 0], by decide⟩

/-- A response with clauses of the given kinds and payloads of zeros. -/
def zeroResponse (tags : List Tag) : Response where
  handle := ⟨0, by decide⟩
  blobId := ⟨List.replicate 8 0, rfl⟩
  data := ⟨[], by decide⟩
  vector := tags.map zeroClause

theorem map_tag_zeroResponse (tags : List Tag) :
    (zeroResponse tags).vector.map Clause.tag = tags := by
  show (tags.map zeroClause).map Clause.tag = tags
  rw [List.map_map]
  refine (List.map_congr_left fun tag _ ↦ ?_).trans (List.map_id tags)
  rcases tag with _ | _ | _ | _ <;> rfl

/-- The clauses that make the script add a text: those with a string, and warnings. -/
def addsText : Tag → Bool
  | .inl tag => tag = .warning
  | .inr _ => true

/-- A clause of zeros other than an SQL state is skipped whole, and adds an empty text at most. -/
theorem runs_zeroClause (fuel : ℕ) (text : List String) {tag : Tag} (h : tag ≠ .inr .sqlState) :
    Runs (readStatus (fuel + 1) text : Async ρ (List String)) (zeroClause tag).encode []
      (readStatus fuel (text ++ if addsText tag then [""] else [])) := by
  by_cases hw : tag = .inl .warning
  · subst hw
    -- the code of the warning is read as the length of a string
    exact runs_readStatus_bytes fuel text (t := 18) (b := []) (by decide) (by decide) (by decide)
      (by decide)
  · have htag : (zeroClause tag).tag = tag := by
      rcases tag with _ | _ | _ | _ <;> rfl
    have hrun := runs_clause (ρ := ρ) fuel text (c := zeroClause tag) (by rwa [htag])
      (by rwa [htag])
    have hshown : (zeroClause tag).shown.toList = if addsText tag then [""] else [] := by
      rcases tag with (_ | _ | _) | (_ | _ | _)
      · rfl
      · rfl
      · exact absurd rfl hw
      · rfl
      · rfl
      · exact absurd rfl h
    rwa [hshown] at hrun

theorem runs_zeroClauses (tags : List Tag) (fuel : ℕ) (text : List String)
    (h : .inr .sqlState ∉ tags) :
    Runs (readStatus (fuel + tags.length) text : Async ρ (List String))
      ((tags.map zeroClause).flatMap Clause.encode) []
      (readStatus fuel (text ++ List.replicate (tags.countP addsText) "")) := by
  induction tags generalizing text with
  | nil =>
    rw [List.countP_nil, List.replicate_zero, List.append_nil]
    exact .refl _
  | cons tag tags ih =>
    rw [List.mem_cons, not_or] at h
    have hrest := ih (text ++ if addsText tag then [""] else []) h.2
    have htext : (text ++ if addsText tag then [""] else []) ++
        List.replicate (tags.countP addsText) "" =
          text ++ List.replicate ((tag :: tags).countP addsText) "" := by
      rw [List.append_assoc, List.countP_cons]
      by_cases hadds : addsText tag <;> simp [hadds, List.replicate_succ]
    rw [htext] at hrest
    exact (runs_zeroClause (fuel + tags.length) text (Ne.symm h.1)).trans hrest

/-- Four NUL bytes in an SQL state are taken for the end of the vector. -/
theorem runs_zero_sqlState (fuel : ℕ) (text : List String) :
    Runs (readStatus (fuel + 2) text : Async ρ (List String)) (zeroClause (.inr .sqlState)).encode
      [] (.done text) :=
  (runs_readStatus_int (fuel + 1) text (t := 19) (c := 4) (by decide) (by decide)
    (by decide)).trans (runs_readStatus_zero fuel text)

/-- An SQL state of four NUL bytes leaves a part of the packet unread. -/
theorem not_consumedExactly_of_sqlState {tags : List Tag} (h : .inr .sqlState ∈ tags) :
    ¬ (zeroResponse tags).ConsumedExactly := by
  rintro ⟨bound, hbound⟩
  obtain ⟨before, after, rfl, hbefore⟩ := List.eq_append_cons_of_mem h
  have hrun := (runs_zeroClauses (ρ := Completed) before (bound + 2) [] hbefore).trans
    (runs_zero_sqlState bound _)
  have hexact := hbound (bound + 2 + before.length) (by omega)
  have hencode : (zeroResponse (before ++ .inr .sqlState :: after)).encode =
      (xdrInt 0 ++ (List.replicate 8 0 ++ (xdrBytes [] ++
        ((before.map zeroClause).flatMap Clause.encode ++
          (zeroClause (.inr .sqlState)).encode)))) ++
        ((after.map zeroClause).flatMap Clause.encode ++ xdrInt 0) := by
    simp [Response.encode, zeroResponse]
  rw [hencode] at hexact
  obtain ⟨hnil, -⟩ := hexact.eq_of_runs (runs_readResponse_done (zeroResponse []) hrun)
  exact absurd (List.append_eq_nil_iff.1 hnil).2 (by decide)

/-- The length of a joined list of empty texts. -/
theorem length_intercalate_replicate (sep : String) (n : ℕ) :
    (sep.intercalate (List.replicate (n + 1) "")).length = n * sep.length := by
  induction n with
  | zero => simp
  | succ n ih =>
    rw [List.replicate_succ, List.replicate_succ, String.intercalate_cons_cons,
      ← List.replicate_succ, String.length_append, String.length_append, ih]
    simp
    ring

/-- The errors for different numbers of empty texts differ. -/
theorem serverError_replicate_inj {m n : ℕ}
    (h : serverError (List.replicate (m + 1) "") = serverError (List.replicate (n + 1) "")) :
    m = n := by
  have hlen := congrArg String.length (JsError.error.inj h)
  rw [String.length_append, String.length_append, length_intercalate_replicate,
    length_intercalate_replicate, show ", ".length = 2 from rfl] at hlen
  omega

/-- The texts such a packet really contains: one for each clause with a string. -/
theorem filterMap_shown_zero {tags : List Tag} (hs : .inr .sqlState ∉ tags) :
    (tags.map zeroClause).filterMap Clause.shown =
      List.replicate (tags.countP Sum.isRight) "" := by
  induction tags with
  | nil => rfl
  | cons tag tags ih =>
    rw [List.mem_cons, not_or] at hs
    rw [List.map_cons, List.countP_cons, Nat.add_comm, List.replicate_add, ← ih hs.2]
    rcases tag with (_ | _ | _) | (_ | _ | _)
    · rfl
    · rfl
    · rfl
    · rfl
    · rfl
    · exact absurd rfl hs.1

theorem countP_addsText (tags : List Tag) :
    tags.countP addsText =
      tags.countP Sum.isRight + tags.countP fun tag ↦ tag = .inl .warning := by
  induction tags with
  | nil => rfl
  | cons tag tags ih =>
    have hone : (if addsText tag then 1 else 0) =
        (if tag.isRight then 1 else 0) +
          if decide (tag = .inl .warning) = true then 1 else 0 := by
      rcases tag with (_ | _ | _) | (_ | _ | _) <;> rfl
    rw [List.countP_cons, List.countP_cons, List.countP_cons, ih, hone]
    omega

/-- A warning with code zero adds an empty text to what the script throws. -/
theorem not_consumedExactly_of_warning {tags : List Tag} (h : .inl .warning ∈ tags)
    (hs : .inr .sqlState ∉ tags) : ¬ (zeroResponse tags).ConsumedExactly := by
  rintro ⟨bound, hbound⟩
  have hrun := (runs_zeroClauses (ρ := Completed) tags (bound + 1) [] hs).trans
    (runs_readStatus_zero bound _)
  have hexact := hbound (bound + 1 + tags.length) (by omega)
  rw [← List.append_nil (zeroResponse tags).encode] at hexact
  obtain ⟨-, hout⟩ := hexact.eq_of_runs (runs_readResponse_done (zeroResponse tags) hrun)
  obtain ⟨m, hm⟩ : ∃ m, (tags.countP fun tag ↦ tag = .inl .warning) = m + 1 :=
    Nat.exists_eq_succ_of_ne_zero (List.countP_pos_iff.2 ⟨_, h, by decide⟩).ne'
  have htexts : (zeroResponse tags).vector.filterMap Clause.shown =
      List.replicate (tags.countP Sum.isRight) "" := filterMap_shown_zero hs
  rw [Response.outcome, htexts, countP_addsText, hm, List.nil_append, ← Nat.add_assoc] at hout
  rcases hn : tags.countP Sum.isRight with _ | n
  · rw [hn] at hout
    exact absurd hout (by simp [List.replicate_succ])
  · rw [hn, if_neg (by simp [List.replicate_succ]), if_neg (by simp [List.replicate_succ])] at hout
    have := serverError_replicate_inj (Except.error.inj hout)
    omega

/-- **When responses are read exactly.** For a sequence of clause kinds, every response with these
kinds of clauses is read exactly and reported as it says, if and only if neither a warning nor an
SQL state is among them. -/
theorem consumedExactly_iff (tags : List Tag) :
    (∀ resp : Response, resp.vector.map Clause.tag = tags → resp.ConsumedExactly) ↔
      .inl .warning ∉ tags ∧ .inr .sqlState ∉ tags := by
  constructor
  · intro h
    have hzero := h (zeroResponse tags) (map_tag_zeroResponse tags)
    have hs : .inr .sqlState ∉ tags := fun hs ↦ not_consumedExactly_of_sqlState hs hzero
    exact ⟨fun hw ↦ not_consumedExactly_of_warning hw hs hzero, hs⟩
  · rintro ⟨hw, hs⟩ resp rfl
    refine ⟨resp.vector.length + 1, fun fuel hfuel ↦ readsExactly_of_runs ?_⟩
    exact runs_readResponse resp (by omega) hw hs

/-- A tag the script does not know, with a number behind it: the number is taken for a length. -/
theorem runs_readStatus_starve (fuel : ℕ) (text : List String) {t n : ℤ} (ht : IsInt32 t)
    (hzero : t ≠ 0) (hint : ¬ (t = 1 ∨ t = 4 ∨ t = 19)) (hn : IsInt32 n) :
    ∃ k, Runs (readStatus (fuel + 1) text : Async ρ (List String)) (xdrInt t ++ xdrInt n) []
      (.take n k) := by
  have hbytes : Runs (Await.bytes >>= fun b ↦ readStatus fuel (text ++ [Buffer.toText b]))
      (xdrInt n) [] (Await.take n >>= fun data : Buffer ↦ Await.take (padding n) >>=
        fun _ ↦ (readStatus fuel (text ++ [Buffer.toText data]) : Async ρ (List String))) := by
    rw [Await.bytes, bind_assoc]
    exact (runs_int hn).bind _
  refine ⟨fun data ↦ Await.take (padding n) >>=
    fun _ ↦ readStatus fuel (text ++ [Buffer.toText data]), (runs_int ht).bind_done ?_⟩
  rw [if_neg hzero, if_neg hint]
  exact hbytes

/-- **An error with an SQL state.** The length of the string `42000` is skipped as a number, its
first four characters are taken for a tag, and the `0` with its padding for the length of a text of
805306368 bytes, for which the parser waits. -/
theorem not_consumedExactly_sqlState_42000 :
    ¬ (Response.mk ⟨0, by decide⟩ ⟨List.replicate 8 0, rfl⟩ ⟨[], by decide⟩
      [.num .gds ⟨335544569, by decide⟩,
        .text .sqlState ⟨[52, 50, 48, 48, 48], by decide⟩]).ConsumedExactly := by
  rintro ⟨bound, hbound⟩
  have hgds := runs_readStatus_int (ρ := Completed) (bound + 2) [] (t := 1) (c := 335544569)
    (by decide) (by decide) (by decide)
  have hstate := runs_readStatus_int (ρ := Completed) (bound + 1) ["gds 335544569"]
    (t := 19) (c := 5) (by decide) (by decide) (by decide)
  obtain ⟨k, hlen⟩ := runs_readStatus_starve (ρ := Completed) bound ["gds 335544569"]
    (t := 875704368) (n := 805306368) (by decide) (by decide) (by decide) (by decide)
  have hrun := runs_readResponse_head
    ⟨⟨0, by decide⟩, ⟨List.replicate 8 0, rfl⟩, ⟨[], by decide⟩, []⟩
    (hgds.trans (hstate.trans hlen))
  exact not_readsExactly_of_starved (t := xdrInt 0) hrun (by decide)
    (hbound (bound + 3) (by omega))

end FirebirdSamples.Wire
