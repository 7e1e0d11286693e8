import FirebirdSamples.Blr.Messages

/-!
# Unknown types in message declarations

What the loops of `FirebirdSamples.Blr.Messages` do on arbitrary bytes. Every run goes through
declarations of known types until it ends, faults or meets a type that is not known
(`messagesWith_cases`), and every such position in the bytes is reached by a run
(`messagesWith_of_meets`).

**Leaving the loop over the fields is not leaving the loop over the messages.** Behind an unknown
type the outer loop looks for `blr_message` under the cursor again. The C++ sample has left the
cursor on the code of the type, the Java and the C# sample behind it, and a byte of 4 there is taken
for a header, in the middle of a descriptor. So nothing more is reported exactly if there is none
(`messages_silent_iff`).
-/

namespace FirebirdSamples.Blr

/-- Nothing is reported behind a type that is not known. -/
def Silent (r : Run ℕ) : Prop :=
  ∀ es t es', r.log = es ++ .dtype t :: es' → es' = []

/-- A decoder that goes through the bytes `s` meets the unknown type `t`, with `rest` behind it. -/
def Meets (known : UInt8 → Option Operands) (s : List UInt8) (t : UInt8) (rest : List UInt8) :
    Prop :=
  ∃ (msgs : List Message) (number : UInt8) (count : ℕ) (fields : List Field),
    (∀ msg ∈ msgs, msg.Known known) ∧ count ≤ 65535 ∧ (∀ f ∈ fields, f.Known known) ∧
      fields.length < count ∧ known t = none ∧
      s = msgs.flatMap Message.encode ++
        (Message.header number count ++ (fields.flatMap Field.encode ++ t :: rest))

/-- A message of known types may stand before. -/
theorem Meets.message {known : UInt8 → Option Operands} {s rest : List UInt8} {t : UInt8}
    (h : Meets known s t rest) (msg : Message) (hmsg : msg.Known known) :
    Meets known (msg.encode ++ s) t rest := by
  obtain ⟨msgs, number, count, fields, hmsgs, hcount, hfields, hlength, ht, rfl⟩ := h
  refine ⟨msg :: msgs, number, count, fields, List.forall_mem_cons.2 ⟨hmsg, hmsgs⟩, hcount,
    hfields, hlength, ht, ?_⟩
  rw [List.flatMap_cons, List.append_assoc]

/-- An unknown type in the first message. -/
theorem meets_field {known : UInt8 → Option Operands} {count : ℕ} {fields : List Field} {t : UInt8}
    (number : UInt8) (hcount : count ≤ 65535) (hfields : ∀ f ∈ fields, f.Known known)
    (hlength : fields.length < count) (ht : known t = none) (rest : List UInt8) :
    Meets known (Message.header number count ++ (fields.flatMap Field.encode ++ t :: rest)) t
      rest :=
  ⟨[], number, count, fields, fun _ h ↦ absurd h List.not_mem_nil, hcount, hfields, hlength, ht,
    rfl⟩

/-! ### Traces -/

/-- The events that are no unknown types. -/
def Quiet (es : List Event) : Prop :=
  ∀ t, .dtype t ∉ es

theorem quiet_nil : Quiet [] :=
  fun _ ↦ List.not_mem_nil

theorem Quiet.append {es es' : List Event} (h : Quiet es) (h' : Quiet es') : Quiet (es ++ es') :=
  fun t ht ↦ (List.mem_append.1 ht).elim (h t) (h' t)

theorem Field.event_ne_dtype (f : Field) (t : UInt8) : f.event ≠ .dtype t := by
  rcases f with _ | _ | _ <;> exact Event.noConfusion

theorem quiet_map_event (fields : List Field) : Quiet (fields.map Field.event) := by
  intro t ht
  obtain ⟨f, -, hf⟩ := List.mem_map.1 ht
  exact f.event_ne_dtype t hf

theorem Quiet.header {es : List Event} (h : Quiet es) (number : UInt8) (count : ℕ) :
    Quiet (.header :: .message number count :: es) := by
  intro t ht
  simp only [List.mem_cons, reduceCtorEq, false_or] at ht
  exact h t ht

theorem quiet_flatMap_events (msgs : List Message) : Quiet (msgs.flatMap Message.events) := by
  intro t ht
  obtain ⟨msg, -, hmsg⟩ := List.mem_flatMap.1 ht
  exact (quiet_map_event _).header _ _ t hmsg

theorem silent_of_quiet {r : Run ℕ} (h : Quiet r.log) : Silent r := by
  intro es t es' hlog
  exact absurd (hlog ▸ List.mem_append_right _ (List.mem_cons_self ..)) (h t)

/-- A run that has met an unknown type is silent if it has recorded nothing since. -/
theorem silent_after_iff {r : Run ℕ} {es : List Event} (hes : Quiet es) (t : UInt8) :
    Silent (r.after (es ++ [.dtype t])) ↔ r.log = [] := by
  constructor
  · exact fun h ↦ h es t r.log (by rw [Traced.after_log, List.append_assoc]; rfl)
  · intro hlog es' t' es'' heq
    rw [Traced.after_log, hlog, List.append_nil] at heq
    by_contra hne
    -- otherwise the first unknown type would be among the events before it
    obtain ⟨init, last, rfl⟩ := List.eq_nil_or_concat es'' |>.resolve_left hne
    rw [List.concat_eq_append, ← List.cons_append, ← List.append_assoc] at heq
    obtain ⟨rfl, -⟩ := List.append_inj' heq rfl
    exact hes t' (List.mem_append_right _ (List.mem_cons_self ..))

/-! ### One step of each loop -/

section Steps

variable {known : UInt8 → Option Operands} {skip : ℕ} {more : ℕ → Bool} {m : Memory}

/-- What the loop over the fields finds: a field, an unknown type, or the end of the memory. -/
theorem fieldsWith_step (known : UInt8 → Option Operands) (skip : ℕ) (m : Memory) (p : ℕ) :
    (∃ f : Field, f.Known known ∧ Holds m p f.encode) ∨
      (∃ t, known t = none ∧ m p = some t) ∨
        ∃ q, ∀ n, fieldsWith known skip m (n + 1) p = ⟨[], .error (.outside q)⟩ := by
  rcases readAt_cases m p with ⟨t, ht⟩ | ⟨q, ht⟩
  swap
  · refine Or.inr (Or.inr ⟨q, fun n ↦ ?_⟩)
    rw [fieldsWith, ht, Traced.lift_error_bind]
  have hmem := readAt_eq_ok.1 ht
  rcases hknown : known t with _ | _ | _ | _
  · exact Or.inr (Or.inl ⟨t, hknown, hmem⟩)
  · rcases readAt_cases m (p + 1) with ⟨s, hs⟩ | ⟨q, hs⟩
    · exact Or.inl ⟨.scale t s, hknown, hmem, readAt_eq_ok.1 hs, trivial⟩
    · refine Or.inr (Or.inr ⟨q, fun n ↦ ?_⟩)
      rw [fieldsWith_scale hmem hknown, hs, Traced.lift_error_bind]
  · rcases u16_cases m (p + 1) with ⟨cs, hcs⟩ | ⟨q, hcs⟩
    swap
    · refine Or.inr (Or.inr ⟨q, fun n ↦ ?_⟩)
      rw [fieldsWith_charset hmem hknown, hcs, Traced.lift_error_bind]
    rcases u16_cases m (p + 3) with ⟨len, hlen⟩ | ⟨q, hlen⟩
    · obtain ⟨cs, rfl, hcs'⟩ := exists_uint16_of_u16 hcs
      obtain ⟨len, rfl, hlen'⟩ := exists_uint16_of_u16 hlen
      exact Or.inl ⟨.charset t cs len, hknown, hmem, holds_append.2 ⟨hcs', hlen'⟩⟩
    · refine Or.inr (Or.inr ⟨q, fun n ↦ ?_⟩)
      rw [fieldsWith_charset hmem hknown, hcs, Traced.lift_ok_bind, hlen, Traced.lift_error_bind]
  · rcases u16_cases m (p + 1) with ⟨len, hlen⟩ | ⟨q, hlen⟩
    · obtain ⟨len, rfl, hlen'⟩ := exists_uint16_of_u16 hlen
      exact Or.inl ⟨.length t len, hknown, hmem, hlen'⟩
    · refine Or.inr (Or.inr ⟨q, fun n ↦ ?_⟩)
      rw [fieldsWith_length hmem hknown, hlen, Traced.lift_error_bind]

/-- What the loop over the messages finds: a header, or an end of the run with nothing reported
but that there is one. -/
theorem messagesWith_step (known : UInt8 → Option Operands) (skip : ℕ) (more : ℕ → Bool)
    (m : Memory) (fuel p : ℕ) :
    (∃ number count, count ≤ 65535 ∧ more p = true ∧ Holds m p (Message.header number count)) ∨
      Quiet (messagesWith known skip more m (fuel + 1) p).log ∧
        (messagesWith known skip more m (fuel + 1) p).result ≠ .error .outOfFuel := by
  have hreturn : (.ok p : Except Fault ℕ) ≠ .error .outOfFuel := nofun
  have hfault : ∀ q, (.error (.outside q) : Except Fault ℕ) ≠ .error .outOfFuel := nofun
  rw [messagesWith]
  split_ifs with hmore
  · rcases readAt_cases m p with ⟨x, hx⟩ | ⟨q, hx⟩
    swap
    · rw [hx]
      exact Or.inr ⟨quiet_nil, hfault q⟩
    rw [hx, Traced.lift_ok_bind]
    split_ifs with hmessage
    · have hheader : Quiet [.header] := fun t ht ↦ by simp at ht
      rw [Traced.emit_bind]
      rcases readAt_cases m (p + 1) with ⟨number, hnumber⟩ | ⟨q, hnumber⟩
      swap
      · rw [hnumber]
        exact Or.inr ⟨hheader, hfault q⟩
      rcases u16_cases m (p + 2) with ⟨count, hcount⟩ | ⟨q, hcount⟩
      swap
      · rw [hnumber, hcount]
        exact Or.inr ⟨hheader, hfault q⟩
      · obtain ⟨count, rfl, hcount'⟩ := exists_uint16_of_u16 hcount
        exact Or.inl ⟨number, _, Nat.le_of_lt_succ count.toNat_lt, hmore,
          hmessage ▸ readAt_eq_ok.1 hx, readAt_eq_ok.1 hnumber, hcount'⟩
    · exact Or.inr ⟨quiet_nil, hreturn⟩
  · exact Or.inr ⟨quiet_nil, hreturn⟩

/-- A run records something exactly if it finds a header. -/
theorem log_messagesWith_eq_nil_iff {fuel p : ℕ} :
    (messagesWith known skip more m (fuel + 1) p).log = [] ↔
      ¬ (more p = true ∧ m p = some blrMessage) := by
  rw [messagesWith]
  split_ifs with hmore
  · rcases hx : readAt m p with e | x
    · have hnone : m p ≠ some blrMessage := fun h ↦ by
        rw [readAt_eq_ok.2 h] at hx
        cases hx
      exact iff_of_true rfl fun h ↦ hnone h.2
    · rw [readAt_eq_ok] at hx
      rw [Traced.lift_ok_bind, hx, Option.some.injEq]
      split_ifs with hmessage
      · rw [Traced.emit_bind]
        exact iff_of_false (List.cons_ne_nil _ _) fun h ↦ h ⟨hmore, hmessage⟩
      · exact iff_of_true rfl fun h ↦ hmessage h.2
  · exact iff_of_true rfl fun h ↦ hmore h.1

end Steps

/-! ### Whole runs -/

section Runs

variable {known : UInt8 → Option Operands} {skip : ℕ} {more : ℕ → Bool} {b : List UInt8}
  {p n fuel : ℕ}

/-- **What the loop over the fields does**: it goes through all of them, up to one of an unknown
type, or up to the end of the memory. -/
theorem fieldsWith_cases (known : UInt8 → Option Operands) (skip : ℕ) (m : Memory) (n p : ℕ) :
    (∃ fields : List Field, fields.length = n ∧ (∀ f ∈ fields, f.Known known) ∧
      Holds m p (fields.flatMap Field.encode) ∧
      fieldsWith known skip m n p =
        ⟨fields.map Field.event, .ok (p + (fields.flatMap Field.encode).length)⟩) ∨
    (∃ (fields : List Field) (t : UInt8), fields.length < n ∧ (∀ f ∈ fields, f.Known known) ∧
      known t = none ∧ Holds m p (fields.flatMap Field.encode ++ [t]) ∧
      fieldsWith known skip m n p = ⟨fields.map Field.event ++ [.dtype t],
        .ok (p + (fields.flatMap Field.encode).length + skip)⟩) ∨
    ∃ events q, Quiet events ∧
      fieldsWith known skip m n p = ⟨events, .error (.outside q)⟩ := by
  induction n generalizing p with
  | zero => exact Or.inl ⟨[], rfl, fun _ h ↦ absurd h List.not_mem_nil, trivial, rfl⟩
  | succ n ih =>
    rcases fieldsWith_step known skip m p with
      ⟨f, hf, hholds⟩ | ⟨t, ht, hholds⟩ | ⟨e, he⟩
    · have hall : ∀ {fields : List Field}, (∀ f ∈ fields, f.Known known) →
          ∀ f' ∈ f :: fields, f'.Known known := fun h ↦ List.forall_mem_cons.2 ⟨hf, h⟩
      rw [fieldsWith_of_known hf hholds]
      rcases ih (p + f.encode.length) with ⟨fields, hlength, hfields, hrest, hrun⟩ |
        ⟨fields, t, hlength, hfields, ht, hrest, hrun⟩ | ⟨events, e, hevents, hrun⟩
      · refine Or.inl ⟨f :: fields, congrArg (· + 1) hlength, hall hfields,
          holds_append.2 ⟨hholds, hrest⟩, ?_⟩
        rw [hrun, List.flatMap_cons, List.length_append, ← Nat.add_assoc]
        rfl
      · refine Or.inr (Or.inl ⟨f :: fields, t, Nat.succ_lt_succ hlength, hall hfields, ht, ?_, ?_⟩)
        · rw [List.flatMap_cons, List.append_assoc]
          exact holds_append.2 ⟨hholds, hrest⟩
        · rw [hrun, List.flatMap_cons, List.length_append, ← Nat.add_assoc]
          rfl
      · refine Or.inr (Or.inr ⟨f.event :: events, e, ?_, by rw [hrun]; rfl⟩)
        exact (quiet_map_event [f]).append hevents
    · exact Or.inr (Or.inl ⟨[], t, Nat.succ_pos n, fun _ h ↦ absurd h List.not_mem_nil, ht,
        ⟨hholds, trivial⟩, fieldsWith_of_unknown ht hholds⟩)
    · exact Or.inr (Or.inr ⟨[], e, quiet_nil, he n⟩)

/-- **What a run does**: it meets no unknown type, or it meets one and goes on behind or at it. -/
theorem messagesWith_cases (known : UInt8 → Option Operands) (skip : ℕ) (more : ℕ → Bool)
    (b : List UInt8) (fuel p : ℕ) :
    Quiet (messagesWith known skip more (memory b) fuel p).log ∨
      ∃ t rest q es fuel', Meets known (b.drop p) t rest ∧ b.drop q = t :: rest ∧ Quiet es ∧
        messagesWith known skip more (memory b) fuel p =
          (messagesWith known skip more (memory b) fuel' (q + skip)).after (es ++ [.dtype t]) := by
  induction fuel generalizing p with
  | zero => exact Or.inl quiet_nil
  | succ fuel ih =>
    rcases messagesWith_step known skip more (memory b) fuel p with
      ⟨number, count, hcount, hmore, hheader⟩ | ⟨hquiet, -⟩
    swap
    · exact Or.inl hquiet
    have hdrop : b.drop p = Message.header number count ++ b.drop (p + 4) := drop_of_holds hheader
    rw [messagesWith_header hcount hmore hheader]
    rcases fieldsWith_cases known skip (memory b) count (p + 4) with
      ⟨fields, hlength, hfields, hholds, hrun⟩ |
        ⟨fields, t, hlength, hfields, ht, hholds, hrun⟩ | ⟨events, e, hevents, hrun⟩
    · -- the whole message is known; what the rest of the run does, the whole run does
      subst hlength
      have hquiet := (quiet_map_event fields).header number fields.length
      rw [hrun, Traced.bind_of_ok, Traced.after_after]
      rcases ih (p + 4 + (fields.flatMap Field.encode).length) with hrest |
        ⟨t, rest, q, es, fuel', hmeets, hq, hes, hrest⟩
      · exact Or.inl (hquiet.append hrest)
      · refine Or.inr ⟨t, rest, q, _, fuel', ?_, hq, hquiet.append hes, ?_⟩
        · rw [hdrop, drop_of_holds hholds, ← List.append_assoc]
          exact hmeets.message ⟨number, fields, hcount⟩ hfields
        · rw [hrest, Traced.after_after]
          simp only [List.cons_append, List.nil_append, List.append_assoc]
    · obtain ⟨hholds', htype, -⟩ := holds_append.1 hholds
      refine Or.inr ⟨t, _, _, _, fuel, ?_, (drop_of_memory htype).2,
        (quiet_map_event fields).header number count, ?_⟩
      · rw [hdrop, drop_of_holds hholds', (drop_of_memory htype).2]
        exact meets_field number hcount hfields hlength ht _
      · rw [hrun, Traced.bind_of_ok, Traced.after_after]
        rfl
    · rw [hrun, Traced.bind_of_error]
      exact Or.inl (hevents.header number count)

/-- **The loop ends**: a header takes four bytes. -/
theorem messagesWith_result_ne (hfuel : b.length ≤ p + fuel) :
    (messagesWith known skip more (memory b) (fuel + 1) p).result ≠ .error .outOfFuel := by
  induction fuel using Nat.strongRecOn generalizing p with
  | ind fuel ih =>
    rcases messagesWith_step known skip more (memory b) fuel p with
      ⟨number, count, hcount, hmore, hheader⟩ | ⟨-, hresult⟩
    swap
    · exact hresult
    have hin := length_le_of_holds hheader
    have hnext : ∀ {q events}, p + 4 ≤ q →
        (((⟨events, .ok q⟩ : Run ℕ) >>= messagesWith known skip more (memory b) fuel).after
          [.header, .message number count]).result ≠ .error .outOfFuel := by
      intro q events hq
      obtain ⟨fuel, rfl⟩ : ∃ f, fuel = f + 1 :=
        Nat.exists_eq_add_one.2 (by simp only [List.length_cons, le16] at hin; omega)
      exact ih fuel (Nat.lt_succ_self _) (by omega)
    rw [messagesWith_header hcount hmore hheader]
    rcases fieldsWith_cases known skip (memory b) count (p + 4) with
      ⟨fields, -, -, -, hrun⟩ | ⟨fields, t, -, -, -, -, hrun⟩ | ⟨events, q, -, hrun⟩
    · rw [hrun]
      exact hnext (by omega)
    · rw [hrun]
      exact hnext (by omega)
    · rw [hrun]
      intro hresult
      cases hresult

/-- **Every unknown type in the bytes is met** by a run with enough rounds. -/
theorem messagesWith_of_meets (hmore : ∀ q < b.length, more q = true) {t : UInt8}
    {rest : List UInt8} (h : Meets known (b.drop p) t rest) :
    ∃ q es rounds, b.drop q = t :: rest ∧ Quiet es ∧ ∀ fuel,
      messagesWith known skip more (memory b) (rounds + fuel) p =
        (messagesWith known skip more (memory b) fuel (q + skip)).after (es ++ [.dtype t]) := by
  obtain ⟨msgs, number, count, fields, hmsgs, hcount, hfields, hlength, ht, hdrop⟩ := h
  obtain ⟨n, rfl⟩ : ∃ n, count = fields.length + (n + 1) := ⟨count - fields.length - 1, by omega⟩
  have hholds : Holds (memory b) p (msgs.flatMap Message.encode ++
      (Message.header number (fields.length + (n + 1)) ++
        (fields.flatMap Field.encode ++ [t]))) := by
    refine holds_memory_iff.2 ⟨rest, ?_⟩
    rw [hdrop]
    simp only [List.append_assoc, List.cons_append, List.nil_append]
  obtain ⟨hmsgs', hrest⟩ := holds_append.1 hholds
  obtain ⟨hheader, hrest⟩ := holds_append.1 hrest
  rw [Message.length_header] at hrest
  obtain ⟨hfields', ht', -⟩ := holds_append.1 hrest
  have hin := (drop_of_memory ht').1
  refine ⟨p + (msgs.flatMap Message.encode).length + 4 + (fields.flatMap Field.encode).length,
    msgs.flatMap Message.events ++
      (.header :: .message number (fields.length + (n + 1)) :: fields.map Field.event),
    msgs.length + 1, ?_, (quiet_flatMap_events msgs).append ((quiet_map_event fields).header _ _),
    fun fuel ↦ ?_⟩
  · rw [Nat.add_assoc, Nat.add_assoc, ← List.drop_drop, hdrop, ← List.drop_drop, List.drop_left,
      ← List.drop_drop]
    exact List.drop_left
  · have hrun : fieldsWith known skip (memory b) (fields.length + (n + 1))
        (p + (msgs.flatMap Message.encode).length + 4) =
          ⟨fields.map Field.event ++ [.dtype t], .ok (p + (msgs.flatMap Message.encode).length + 4 +
            (fields.flatMap Field.encode).length + skip)⟩ := by
      rw [fieldsWith_append hfields hfields', fieldsWith_of_unknown ht ht']
      rfl
    rw [Nat.add_assoc, messagesWith_append hmsgs (fun q _ hq ↦ hmore q (by omega)) hmsgs',
      Nat.add_comm 1 fuel, messagesWith_header hcount (hmore _ (by omega)) hheader, hrun,
      Traced.bind_of_ok, Traced.after_after, Traced.after_after]
    simp only [List.cons_append, List.nil_append, List.append_assoc]

/-- **Nothing is reported behind an unknown type** exactly if the cursor is not left on a byte that
is `blr_message`. -/
theorem silent_iff (hmore : ∀ q, q < b.length → more q = true) :
    (∀ fuel, Silent (messagesWith known skip more (memory b) fuel p)) ↔
      ∀ t rest, Meets known (b.drop p) t rest → (t :: rest)[skip]? ≠ some blrMessage := by
  have hbyte : ∀ {q t rest}, b.drop q = t :: rest → memory b (q + skip) = (t :: rest)[skip]? := by
    intro q t rest h
    rw [← h, List.getElem?_drop]
    rfl
  constructor
  · intro h t rest hmeets hmessage
    obtain ⟨q, es, rounds, hq, hes, hrun⟩ := messagesWith_of_meets hmore hmeets
    have hsilent := h (rounds + 1)
    rw [hrun, silent_after_iff hes, log_messagesWith_eq_nil_iff, hbyte hq] at hsilent
    have hin : q + skip < b.length := (drop_of_memory ((hbyte hq).trans hmessage)).1
    exact hsilent ⟨hmore _ hin, hmessage⟩
  · intro h fuel
    rcases messagesWith_cases known skip more b fuel p with
      hquiet | ⟨t, rest, q, es, fuel', hmeets, hq, hes, hrun⟩
    · exact silent_of_quiet hquiet
    · rw [hrun, silent_after_iff hes]
      rcases fuel' with _ | fuel'
      · rfl
      · rw [log_messagesWith_eq_nil_iff, hbyte hq]
        exact fun hmessage ↦ h t rest hmeets hmessage.2

end Runs

/-- **Decoding stops where it says it stops** exactly if no unknown type is followed by a header
that is none: for the C++ loop the code of the type is not `blr_message`, and for the Java and the
C# loop the byte behind it is not. The loops start at `p`, behind version and `blr_begin` or
anywhere. -/
theorem messages_silent_iff (b : List UInt8) (p : ℕ) :
    ((∀ fuel, Silent (Cpp.messages b fuel p)) ↔
        ∀ t rest, Meets Cpp.known (b.drop p) t rest → t ≠ blrMessage) ∧
      ((∀ fuel, Silent (Java.messages b fuel p)) ↔
        ∀ t rest, Meets Java.known (b.drop p) t rest → rest.head? ≠ some blrMessage) ∧
      ((∀ fuel, Silent (CSharp.messages b fuel p)) ↔
        ∀ t rest, Meets CSharp.known (b.drop p) t rest → rest.head? ≠ some blrMessage) := by
  refine ⟨(silent_iff fun _ _ ↦ rfl).trans ?_, (silent_iff fun _ h ↦ decide_eq_true h).trans ?_,
    (silent_iff fun _ h ↦ decide_eq_true h).trans ?_⟩
  · exact forall₃_congr fun t rest _ ↦ by rw [List.getElem?_cons_zero, Option.some_inj.ne]
  all_goals
    exact forall₃_congr fun t rest _ ↦ by
      rw [List.getElem?_cons_succ, List.head?_eq_getElem?]

/-- A field whose type has the code of `blr_message`, and a header behind a field of type 9. -/
theorem not_silent_of_message_type :
    ¬ Silent (Cpp.messages [5, 2, 4, 0, 1, 0, 4] 6 2) ∧
      ¬ Silent (Java.messages [5, 2, 4, 0, 1, 0, 9, 4] 7 2) :=
  ⟨fun h ↦ absurd (h [.header, .message 0 1] 4 [.header] rfl) (List.cons_ne_nil _ _),
    fun h ↦ absurd (h [.header, .message 0 1] 9 [.header] rfl) (List.cons_ne_nil _ _)⟩

end FirebirdSamples.Blr
