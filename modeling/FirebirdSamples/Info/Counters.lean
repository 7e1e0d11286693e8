import FirebirdSamples.Info.Blobs

/-!
# Replies to database information requests

`showCounters` of `GcSweep.java` and `liveInfo` of `Monitoring.java` go through a reply in the same
way (`walkBody`): a tag, a length of two bytes and a value, until the tag is `isc_info_end`. They
differ in what they make of an entry. The first stores values by tag. The second also looks into a
value that is a table of its own, pairs of a relation and a count.

Neither loop asks whether the buffer ends. It gets past the end of no buffer all the same, as a read
there throws, and it ends for every buffer (`exists_run_walk`): with what the entries say, if they
are followed by the end mark (`run_walk_reply`), and by an exception at the end of the buffer if
they are not (`run_walk_cut`).
-/

namespace FirebirdSamples.Info

open Blr Fallible LittleEndian TagLengthValue

/-! ### The samples -/

/-- The functions of `org.firebirdsql.gds.VaxEncoding` that read a number of some bytes. -/
structure VaxEncoding where
  /-- `iscVaxInteger`. -/
  iscVaxInteger : Memory → ℕ → ℕ → Except Fault ℤ
  /-- `iscVaxLong`. -/
  iscVaxLong : Memory → ℕ → ℕ → Except Fault ℤ

/-- They read signed numbers, least significant byte first, as long as there is a byte and the
number fits. -/
structure VaxEncoding.ReadsSigned (vax : VaxEncoding) : Prop where
  iscVaxInteger : ∀ m p bs, Holds m p bs → bs ≠ [] → bs.length ≤ 4 →
    vax.iscVaxInteger m p bs.length = .ok (signed bs)
  iscVaxLong : ∀ m p bs, Holds m p bs → bs ≠ [] → bs.length ≤ 8 →
    vax.iscVaxLong m p bs.length = .ok (signed bs)

/-- The variables of a loop over a reply. -/
structure Walk (σ : Type) where
  /-- The offset. -/
  pos : ℕ
  /-- What the entries so far have left behind. -/
  state : σ

variable {σ : Type}

/-- The body of `for (int pos = 0; buf[pos] != isc_info_end;)`. The parameter is what is done with
a tag, the offset and the length of its value. -/
def walkBody (handle : Memory → UInt8 → ℕ → ℕ → σ → Except Fault σ) (buf : List UInt8)
    (s : Walk σ) : Except Fault (Walk σ ⊕ σ) := do
  let item ← readAt (memory buf) s.pos
  if item = iscInfoEnd then
    pure (.inr s.state)
  else
    let len ← u16 (memory buf) (s.pos + 1)
    let state ← handle (memory buf) item (s.pos + 3) len s.state
    pure (.inl { pos := s.pos + 3 + len, state })

/-- The items of `showCounters`: `isc_info_oldest_transaction`, `isc_info_oldest_active`,
`isc_info_oldest_snapshot`, `isc_info_next_transaction` and `isc_info_sweep_interval`. -/
def items : List UInt8 := [104, 105, 106, 107, 31]

/-- `v[i] = value` for each `i` with `items[i] == item`. -/
def store (item : UInt8) (value : ℤ) (v : List ℤ) : List ℤ :=
  List.zipWith (fun i old ↦ if i = item then value else old) items v

/-- What `showCounters` does with an entry. -/
def storeEntry (vax : VaxEncoding) (m : Memory) (item : UInt8) (start len : ℕ) (v : List ℤ) :
    Except Fault (List ℤ) := do
  let value ← vax.iscVaxLong m start len
  pure (store item value v)

/-- The loop of `showCounters`. -/
def showCounters (vax : VaxEncoding) (buf : List UInt8) (rounds : ℕ) :
    Option (Except Fault (List ℤ)) :=
  Loop.run (walkBody (storeEntry vax) buf) rounds ⟨0, [0, 0, 0, 0, 0]⟩

/-- `isc_info_fetches`. -/
def iscInfoFetches : UInt8 := 7

/-- `isc_info_read_seq_count`. -/
def iscInfoReadSeqCount : UInt8 := 23

/-- What `liveInfo` prints. -/
structure Live where
  /-- `fetches`. -/
  fetches : ℤ
  /-- `seq`. -/
  seq : ℤ
  deriving DecidableEq

/-- The loop over the pairs of a table: as long as six more bytes are in it. -/
def seqCount (vax : VaxEncoding) (m : Memory) (relationId : ℤ) (start len : ℕ) (seq : ℤ) :
    Except Fault ℤ :=
  (List.range (len / 6)).foldlM (fun seq i ↦ do
    let id ← u16 m (start + 6 * i)
    if id = relationId then
      vax.iscVaxInteger m (start + 6 * i + 2) 4
    else
      pure seq) seq

/-- What `liveInfo` does with an entry. Its tag is a signed byte. -/
def liveEntry (vax : VaxEncoding) (relationId : ℤ) (m : Memory) (item : UInt8) (start len : ℕ)
    (s : Live) : Except Fault Live :=
  if signed [item] = iscInfoFetches.toNat then do
    let fetches ← vax.iscVaxLong m start len
    pure { s with fetches }
  else if signed [item] = iscInfoReadSeqCount.toNat then do
    let seq ← seqCount vax m relationId start len s.seq
    pure { s with seq }
  else
    pure s

/-- The loop of `liveInfo`. -/
def liveInfo (vax : VaxEncoding) (buf : List UInt8) (relationId : ℤ) (rounds : ℕ) :
    Option (Except Fault Live) :=
  Loop.run (walkBody (liveEntry vax relationId) buf) rounds ⟨0, ⟨0, 0⟩⟩

/-! ### Going through a reply -/

section Walk

variable {handle : Memory → UInt8 → ℕ → ℕ → σ → Except Fault σ} {buf : List UInt8}

/-- **The loop ends**, whatever the buffer. -/
theorem exists_run_walk (handle : Memory → UInt8 → ℕ → ℕ → σ → Except Fault σ)
    (buf : List UInt8) (s : Walk σ) : ∃ n r, Loop.run (walkBody handle buf) n s = some r := by
  refine Loop.exists_run (μ := fun s ↦ buf.length - s.pos) (fun s s' hnext ↦ ?_) s
  have hbody : walkBody handle buf s = .ok (.inl s') := hnext
  obtain ⟨item, hitem, hrest⟩ := bind_eq_ok.1 hbody
  have hlt := (drop_of_memory (readAt_eq_ok.1 hitem)).1
  split_ifs at hrest
  · cases hrest
  · obtain ⟨len, -, hrest⟩ := bind_eq_ok.1 hrest
    obtain ⟨state, -, hrest⟩ := bind_eq_ok.1 hrest
    cases hrest
    show buf.length - (s.pos + 3 + len) < buf.length - s.pos
    omega

/-- One whole entry. -/
theorem next_walk {e : Entry} {s : Walk σ} {state : σ} (he : e.Fits 2) (htag : e.tag ≠ iscInfoEnd)
    (hholds : Holds (memory buf) s.pos (e.encode 2))
    (hhandle : Holds (memory buf) (s.pos + 3) e.payload →
      handle (memory buf) e.tag (s.pos + 3) e.payload.length s.state = .ok state) :
    Loop.Next (walkBody handle buf) s ⟨s.pos + (e.encode 2).length, state⟩ := by
  obtain ⟨hitem, hrest⟩ := hholds
  obtain ⟨hlen, hpayload⟩ := holds_append.1 hrest
  rw [length_bytes] at hpayload
  show walkBody handle buf s = _
  rw [walkBody, readAt_eq_ok.2 hitem, ok_bind, if_neg htag,
    u16_of_holds (Nat.le_of_lt_succ he) hlen, ok_bind, hhandle hpayload, Entry.length_encode,
    show s.pos + (1 + 2 + e.payload.length) = s.pos + 3 + e.payload.length by omega]
  rfl

/-- What is done with an entry, for the entries of a reply. -/
def Handles (handle : Memory → UInt8 → ℕ → ℕ → σ → Except Fault σ) (add : σ → Entry → σ)
    (e : Entry) : Prop :=
  ∀ m p s, Holds m p e.payload → handle m e.tag p e.payload.length s = .ok (add s e)

/-- The loop gets over entries one after the other. -/
theorem reaches_walk {add : σ → Entry → σ} {es : List Entry} {s : Walk σ}
    (hes : ∀ e ∈ es, e.Fits 2 ∧ e.tag ≠ iscInfoEnd ∧ Handles handle add e)
    (hholds : Holds (memory buf) s.pos (es.flatMap (·.encode 2))) :
    Loop.Reaches (walkBody handle buf) s
      ⟨s.pos + (es.flatMap (·.encode 2)).length, es.foldl add s.state⟩ := by
  induction es generalizing s with
  | nil => exact .refl
  | cons e es ih =>
    obtain ⟨⟨he, htag, hadd⟩, hes⟩ := List.forall_mem_cons.1 hes
    rw [List.flatMap_cons] at hholds ⊢
    obtain ⟨hentry, hrest⟩ := holds_append.1 hholds
    have hreach := ih (s := ⟨s.pos + (e.encode 2).length, add s.state e⟩) hes hrest
    rw [List.length_append, ← Nat.add_assoc]
    exact hreach.head (next_walk he htag hentry (hadd _ _ _))

/-- **A reply with its end mark** is read to the mark. -/
theorem run_walk_reply {add : σ → Entry → σ} {es : List Entry}
    (hes : ∀ e ∈ es, e.Fits 2 ∧ e.tag ≠ iscInfoEnd ∧ Handles handle add e)
    (padding : List UInt8) (state : σ) :
    ∃ n, Loop.run (walkBody handle (reply es padding)) n ⟨0, state⟩ =
      some (.ok (es.foldl add state)) := by
  have hholds : Holds (memory (reply es padding)) 0
      (es.flatMap (·.encode 2) ++ [iscInfoEnd]) := by
    refine holds_memory_of_isPrefix ⟨padding, ?_⟩
    rw [List.append_assoc]
    rfl
  obtain ⟨hentries, hend, -⟩ := holds_append.1 hholds
  refine Loop.exists_run_of_reaches (reaches_walk hes hentries) ?_
  rw [walkBody, readAt_eq_ok.2 hend, ok_bind, if_pos rfl]
  rfl

/-- **A reply without its end mark** makes the loop throw at the end of the buffer. -/
theorem run_walk_cut {add : σ → Entry → σ} {es : List Entry}
    (hes : ∀ e ∈ es, e.Fits 2 ∧ e.tag ≠ iscInfoEnd ∧ Handles handle add e) (state : σ) :
    ∃ n, Loop.run (walkBody handle (es.flatMap (·.encode 2))) n ⟨0, state⟩ =
      some (.error (.outside (es.flatMap (·.encode 2)).length)) := by
  have hentries : Holds (memory (es.flatMap (·.encode 2))) 0 (es.flatMap (·.encode 2)) :=
    holds_memory_of_isPrefix (List.prefix_refl _)
  refine Loop.exists_run_of_reaches (reaches_walk hes hentries) ?_
  have hnone : memory (es.flatMap (·.encode 2)) (0 + (es.flatMap (·.encode 2)).length) = none := by
    rw [Nat.zero_add]
    exact List.getElem?_eq_none (Nat.le_refl _)
  rw [walkBody, readAt, hnone]
  show Except.error _ = Except.error _
  rw [Nat.zero_add]

end Walk

/-! ### The last of several -/

theorem elim_getLast?_append {α β : Type} (l l' : List α) (b : β) (f : α → β) :
    (l ++ l').getLast?.elim b f = l'.getLast?.elim (l.getLast?.elim b f) f := by
  rw [List.getLast?_append]
  rcases l'.getLast? with _ | a <;> rfl

theorem payloads_singleton (tag : UInt8) (e : Entry) :
    payloads tag [e] = if e.tag = tag then [e.payload] else [] := by
  rw [payloads, List.filter_cons]
  by_cases h : e.tag = tag
  · rw [if_pos (decide_eq_true h), if_pos h]
    rfl
  · rw [if_neg (by simpa using h), if_neg h]
    rfl

/-! ### The counters of the header page -/

/-- The value of an item: that of the last entry with its tag. -/
def counter (es : List Entry) (item : UInt8) : ℤ :=
  (payloads item es).getLast?.elim 0 signed

theorem counter_concat (es : List Entry) (e : Entry) (item : UInt8) :
    counter (es ++ [e]) item = if item = e.tag then signed e.payload else counter es item := by
  rw [counter, payloads_append, elim_getLast?_append, payloads_singleton]
  by_cases h : e.tag = item
  · rw [if_pos h, if_pos h.symm]
    rfl
  · rw [if_neg h, if_neg (Ne.symm h)]
    rfl

theorem foldl_store (es : List Entry) :
    es.foldl (fun v e ↦ store e.tag (signed e.payload) v) [0, 0, 0, 0, 0] =
      items.map (counter es) := by
  induction es using List.reverseRecOn with
  | nil => rfl
  | append_singleton es e ih =>
    rw [List.foldl_append, ih, List.foldl_cons, List.foldl_nil, store, List.zipWith_map_right,
      List.zipWith_self]
    exact List.map_congr_left fun item _ ↦ (counter_concat es e item).symm

/-- The pairs of a table: a relation and a count, in two and four bytes. -/
def pairs (payload : List UInt8) : List (ℕ × ℤ) :=
  (List.range (payload.length / 6)).map fun i ↦
    (value ((payload.drop (6 * i)).take 2), signed ((payload.drop (6 * i + 2)).take 4))

/-- The count of a relation in pairs: that of the last one with it. -/
def countOf (relationId : ℤ) (pairs : List (ℕ × ℤ)) (seq : ℤ) : ℤ :=
  (pairs.filter fun p ↦ decide ((p.1 : ℤ) = relationId)).getLast?.elim seq Prod.snd

theorem countOf_append (relationId : ℤ) (l l' : List (ℕ × ℤ)) (seq : ℤ) :
    countOf relationId (l ++ l') seq = countOf relationId l' (countOf relationId l seq) := by
  rw [countOf, List.filter_append, elim_getLast?_append, countOf, countOf]

theorem countOf_singleton (relationId : ℤ) (p : ℕ × ℤ) (seq : ℤ) :
    countOf relationId [p] seq = if (p.1 : ℤ) = relationId then p.2 else seq := by
  rw [countOf, List.filter_cons]
  by_cases h : (p.1 : ℤ) = relationId
  · rw [if_pos (decide_eq_true h), if_pos h]
    rfl
  · rw [if_neg (by simpa using h), if_neg h]
    rfl

/-- A part of what a memory holds. -/
theorem holds_slice {m : Memory} {p : ℕ} {s : List UInt8} (h : Holds m p s) {i : ℕ}
    (hi : i ≤ s.length) (n : ℕ) : Holds m (p + i) ((s.drop i).take n) := by
  rw [← List.take_append_drop i s] at h
  have hdrop := (holds_append.1 h).2
  rw [List.length_take_of_le hi, ← List.take_append_drop n (s.drop i)] at hdrop
  exact (holds_append.1 hdrop).1

theorem seqCount_of_holds {vax : VaxEncoding} (hvax : vax.ReadsSigned) {m : Memory} {start : ℕ}
    {payload : List UInt8} (h : Holds m start payload) (relationId seq : ℤ) :
    seqCount vax m relationId start payload.length seq =
      .ok (countOf relationId (pairs payload) seq) := by
  rw [seqCount, pairs]
  have hall : ∀ n, n ≤ payload.length / 6 →
      (List.range n).foldlM (fun seq i ↦ do
        let id ← u16 m (start + 6 * i)
        if id = relationId then
          vax.iscVaxInteger m (start + 6 * i + 2) 4
        else
          pure seq) seq =
        .ok (countOf relationId ((List.range n).map fun i ↦
          (value ((payload.drop (6 * i)).take 2),
            signed ((payload.drop (6 * i + 2)).take 4))) seq) := by
    intro n hn
    induction n with
    | zero => rfl
    | succ n ih =>
      have hid := holds_slice h (i := 6 * n) (by omega) 2
      have hcount := holds_slice h (i := 6 * n + 2) (by omega) 4
      have hidlen : ((payload.drop (6 * n)).take 2).length = 2 := by
        rw [List.length_take, List.length_drop]
        omega
      have hcountlen : ((payload.drop (6 * n + 2)).take 4).length = 4 := by
        rw [List.length_take, List.length_drop]
        omega
      have hlt := value_lt ((payload.drop (6 * n)).take 2)
      rw [hidlen] at hlt
      rw [← bytes_value ((payload.drop (6 * n)).take 2), hidlen] at hid
      have hint := hvax.iscVaxInteger m _ _ hcount (by
        intro hnil
        rw [hnil] at hcountlen
        cases hcountlen) hcountlen.le
      rw [hcountlen] at hint
      rw [List.range_succ, List.foldlM_append, ih (Nat.le_of_succ_le hn), ok_bind, List.foldlM_cons,
        u16_of_holds (Nat.le_of_lt_succ hlt) hid, ok_bind, List.map_append, countOf_append,
        List.map_cons, List.map_nil, countOf_singleton]
      split_ifs
      · rw [Nat.add_assoc, hint]
        rfl
      · rfl
  exact hall _ (Nat.le_refl _)

/-- What an entry adds. -/
def Live.add (relationId : ℤ) (s : Live) (e : Entry) : Live :=
  if e.tag = iscInfoFetches then
    { s with fetches := signed e.payload }
  else if e.tag = iscInfoReadSeqCount then
    { s with seq := countOf relationId (pairs e.payload) s.seq }
  else
    s

theorem foldl_live (relationId : ℤ) (es : List Entry) :
    es.foldl (Live.add relationId) ⟨0, 0⟩ = ⟨counter es iscInfoFetches,
      countOf relationId ((payloads iscInfoReadSeqCount es).flatMap pairs) 0⟩ := by
  induction es using List.reverseRecOn with
  | nil => rfl
  | append_singleton es e ih =>
    rw [List.foldl_append, ih, List.foldl_cons, List.foldl_nil, counter_concat, payloads_append,
      payloads_singleton, List.flatMap_append, countOf_append, Live.add]
    by_cases hfetches : e.tag = iscInfoFetches
    · have hseq : e.tag ≠ iscInfoReadSeqCount := fun h ↦ absurd (hfetches.symm.trans h) (by decide)
      rw [if_pos hfetches, if_pos hfetches.symm, if_neg hseq]
      rfl
    · rw [if_neg hfetches, if_neg (Ne.symm hfetches)]
      by_cases hseq : e.tag = iscInfoReadSeqCount
      · rw [if_pos hseq, if_pos hseq, List.flatMap_singleton]
      · rw [if_neg hseq, if_neg hseq]
        rfl

/-- A reading of signed numbers. -/
def signedEncoding : VaxEncoding where
  iscVaxInteger m p n := (readBytes m p n).map signed
  iscVaxLong m p n := (readBytes m p n).map signed

theorem signedEncoding_readsSigned : signedEncoding.ReadsSigned where
  iscVaxInteger m p bs h _ _ := by
    show (readBytes m p bs.length).map signed = _
    rw [readBytes_of_holds h]
    rfl
  iscVaxLong m p bs h _ _ := by
    show (readBytes m p bs.length).map signed = _
    rw [readBytes_of_holds h]
    rfl

end FirebirdSamples.Info
