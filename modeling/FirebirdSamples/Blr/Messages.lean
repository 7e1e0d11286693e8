import FirebirdSamples.Blr.Bounds
import FirebirdSamples.Library.Traced

/-!
# The message declarations

The loop of the samples that decodes the message declarations of a procedure, in
`samples/cpp/blr.cpp`, `Blr.java` and `Blr.cs`: a header with the number of the message and of its
fields, and a descriptor for each field. The loops share a cursor with the loop over the fields, and
know different types.

What a decoder takes bytes for is recorded as it goes (`Event`), and stays recorded when a read
fails later on. So a run that ends in a fault has a meaning up to there.
-/

namespace FirebirdSamples.Blr

/-! ### The decoders -/

/-- `blr_message`. -/
def blrMessage : UInt8 := 4

/-- `blr_short`. -/
def blrShort : UInt8 := 7

/-- `blr_long`. -/
def blrLong : UInt8 := 8

/-- `blr_text`. -/
def blrText : UInt8 := 14

/-- `blr_varying`. -/
def blrVarying : UInt8 := 37

/-- `blr_varying2`. -/
def blrVarying2 : UInt8 := 38

/-- What the bytes are taken for. -/
inductive Event where
  /-- A header follows: the byte under the cursor is `blr_message`. -/
  | header
  /-- `blr_message number, count fields:` -/
  | message (number : UInt8) (count : ℕ)
  /-- A field with a scale. -/
  | scale (t : UInt8) (scale : ℤ)
  /-- A field with a character set and a length. -/
  | charset (t : UInt8) (charset len : ℕ)
  /-- A field with a length. -/
  | length (t : UInt8) (len : ℕ)
  /-- `dtype t?`: a type that is not known. -/
  | dtype (t : UInt8)
  deriving DecidableEq

/-- The operands of a type. -/
inductive Operands where
  | scale
  | charset
  | length
  deriving DecidableEq

/-- A run of a decoder. -/
abbrev Run : Type → Type :=
  Traced Event Fault

/-- The loop over the fields, for `n` more of them. The parameters say which types are known, with
their operands, and how far the cursor is moved over the code of one that is not. -/
def fieldsWith (known : UInt8 → Option Operands) (skip : ℕ) (m : Memory) : ℕ → ℕ → Run ℕ
  | 0, p => pure p
  | n + 1, p => do
    let t ← Traced.lift (readAt m p)
    match known t with
    | some .scale =>
      let s ← Traced.lift (readAt m (p + 1))
      Traced.emit (.scale t s.toNat)
      fieldsWith known skip m n (p + 2)
    | some .charset =>
      let cs ← Traced.lift (u16 m (p + 1))
      let len ← Traced.lift (u16 m (p + 3))
      Traced.emit (.charset t cs len)
      fieldsWith known skip m n (p + 5)
    | some .length =>
      let len ← Traced.lift (u16 m (p + 1))
      Traced.emit (.length t len)
      fieldsWith known skip m n (p + 3)
    | none =>
      Traced.emit (.dtype t)
      -- the loop variable is set to the count
      pure (p + skip)

/-- The loop over the messages; the cursor left behind. The parameter `more` is the check for the
end that stands before the one for `blr_message`. -/
def messagesWith (known : UInt8 → Option Operands) (skip : ℕ) (more : ℕ → Bool) (m : Memory) :
    ℕ → ℕ → Run ℕ
  | 0, _ => Traced.lift (.error .outOfFuel)
  | fuel + 1, p =>
    if more p then do
      let x ← Traced.lift (readAt m p)
      if x = blrMessage then
        Traced.emit .header
        let number ← Traced.lift (readAt m (p + 1))
        let count ← Traced.lift (u16 m (p + 2))
        Traced.emit (.message number count)
        let p ← fieldsWith known skip m count (p + 4)
        messagesWith known skip more m fuel p
      else
        pure p
    else
      pure p

/-- The types the C++ sample knows. -/
def Cpp.known (t : UInt8) : Option Operands :=
  if t = blrShort then some .scale
  else if t = blrText2 then some .charset
  else none

/-- The loop of the C++ sample. The cursor is left on a type that is not known. -/
def Cpp.messages (b : List UInt8) : ℕ → ℕ → Run ℕ :=
  messagesWith known 0 (fun _ ↦ true) (memory b)

/-- The types the Java sample knows. -/
def Java.known (t : UInt8) : Option Operands :=
  if t = blrShort then some .scale
  else if t = blrText2 ∨ t = blrVarying2 then some .charset
  else if t = blrText ∨ t = blrVarying then some .length
  else none

/-- `messages()` of the Java sample. -/
def Java.messages (b : List UInt8) : ℕ → ℕ → Run ℕ :=
  messagesWith known 1 (fun p ↦ p < b.length) (memory b)

/-- The types the C# sample knows. -/
def CSharp.known (t : UInt8) : Option Operands :=
  if t = blrShort then some .scale
  else if t = blrLong then some .scale
  else if t = blrText2 ∨ t = blrVarying2 then some .charset
  else if t = blrText ∨ t = blrVarying then some .length
  else none

/-- `Messages` of the C# sample. -/
def CSharp.messages (b : List UInt8) : ℕ → ℕ → Run ℕ :=
  messagesWith known 1 (fun p ↦ p < b.length) (memory b)

/-! ### Declarations -/

/-- A field descriptor. -/
inductive Field where
  | scale (t s : UInt8)
  | charset (t : UInt8) (charset len : UInt16)
  | length (t : UInt8) (len : UInt16)

namespace Field

/-- The bytes of a descriptor. -/
def encode : Field → List UInt8
  | scale t s => [t, s]
  | charset t cs len => t :: (le16 cs.toNat ++ le16 len.toNat)
  | length t len => t :: le16 len.toNat

/-- What a descriptor is taken for. -/
def event : Field → Event
  | scale t s => .scale t s.toNat
  | charset t cs len => .charset t cs.toNat len.toNat
  | length t len => .length t len.toNat

/-- The decoder knows the type, with these operands. -/
def Known (known : UInt8 → Option Operands) : Field → Prop
  | scale t _ => known t = some .scale
  | charset t _ _ => known t = some .charset
  | length t _ => known t = some .length

end Field

/-- A message declaration. -/
structure Message where
  /-- Its number. -/
  number : UInt8
  /-- Its fields, which two bytes can count. -/
  fields : {fs : List Field // fs.length ≤ 65535}

namespace Message

/-- The bytes of a header. -/
def header (number : UInt8) (count : ℕ) : List UInt8 :=
  blrMessage :: number :: le16 count

/-- The bytes of a declaration. -/
def encode (msg : Message) : List UInt8 :=
  header msg.number msg.fields.1.length ++ msg.fields.1.flatMap Field.encode

/-- What a declaration is taken for. -/
def events (msg : Message) : List Event :=
  .header :: .message msg.number msg.fields.1.length :: msg.fields.1.map Field.event

/-- The decoder knows the types of all fields. -/
def Known (known : UInt8 → Option Operands) (msg : Message) : Prop :=
  ∀ f ∈ msg.fields.1, f.Known known

@[simp] theorem length_header (number : UInt8) (count : ℕ) : (header number count).length = 4 := rfl

end Message

/-! ### Decoding declarations -/

section Decoding

variable {known : UInt8 → Option Operands} {skip : ℕ} {more : ℕ → Bool} {m : Memory} {p n fuel : ℕ}

theorem u16_of_holds_toNat {x : UInt16} (h : Holds m p (le16 x.toNat)) : u16 m p = .ok x.toNat :=
  u16_of_holds (Nat.le_of_lt_succ x.toNat_lt) h

section Branches

variable {t : UInt8}

theorem fieldsWith_scale (ht : m p = some t) (hknown : known t = some .scale) :
    fieldsWith known skip m (n + 1) p = (do
      let s ← Traced.lift (readAt m (p + 1))
      Traced.emit (.scale t s.toNat)
      fieldsWith known skip m n (p + 2)) := by
  rw [fieldsWith, readAt_eq_ok.2 ht, Traced.lift_ok_bind, hknown]

theorem fieldsWith_charset (ht : m p = some t) (hknown : known t = some .charset) :
    fieldsWith known skip m (n + 1) p = (do
      let cs ← Traced.lift (u16 m (p + 1))
      let len ← Traced.lift (u16 m (p + 3))
      Traced.emit (.charset t cs len)
      fieldsWith known skip m n (p + 5)) := by
  rw [fieldsWith, readAt_eq_ok.2 ht, Traced.lift_ok_bind, hknown]

theorem fieldsWith_length (ht : m p = some t) (hknown : known t = some .length) :
    fieldsWith known skip m (n + 1) p = (do
      let len ← Traced.lift (u16 m (p + 1))
      Traced.emit (.length t len)
      fieldsWith known skip m n (p + 3)) := by
  rw [fieldsWith, readAt_eq_ok.2 ht, Traced.lift_ok_bind, hknown]

end Branches

/-- A field of a known type. -/
theorem fieldsWith_of_known {f : Field} (hf : f.Known known) (h : Holds m p f.encode) :
    fieldsWith known skip m (n + 1) p =
      (fieldsWith known skip m n (p + f.encode.length)).after [f.event] := by
  obtain ⟨t, s⟩ | ⟨t, cs, len⟩ | ⟨t, len⟩ := f
  · obtain ⟨ht, hs, -⟩ := h
    rw [fieldsWith_scale ht hf, readAt_eq_ok.2 hs, Traced.lift_ok_bind, Traced.emit_bind]
    rfl
  · obtain ⟨ht, hoperands⟩ := h
    obtain ⟨hcs, hlen⟩ := holds_append.1 hoperands
    rw [fieldsWith_charset ht hf, u16_of_holds_toNat hcs, Traced.lift_ok_bind,
      show u16 m (p + 3) = .ok len.toNat from u16_of_holds_toNat hlen, Traced.lift_ok_bind,
      Traced.emit_bind]
    rfl
  · obtain ⟨ht, hlen⟩ := h
    rw [fieldsWith_length ht hf, u16_of_holds_toNat hlen, Traced.lift_ok_bind, Traced.emit_bind]
    rfl

/-- A field of an unknown type ends the loop. -/
theorem fieldsWith_of_unknown {t : UInt8} (ht : known t = none) (h : m p = some t) :
    fieldsWith known skip m (n + 1) p = ⟨[.dtype t], .ok (p + skip)⟩ := by
  rw [fieldsWith, readAt_eq_ok.2 h, Traced.lift_ok_bind, ht]
  rfl

/-- Any number of fields of known types. -/
theorem fieldsWith_append {fields : List Field} (hfields : ∀ f ∈ fields, f.Known known)
    (h : Holds m p (fields.flatMap Field.encode)) :
    fieldsWith known skip m (fields.length + n) p =
      (fieldsWith known skip m n (p + (fields.flatMap Field.encode).length)).after
        (fields.map Field.event) := by
  induction fields generalizing p with
  | nil =>
    rw [List.length_nil, Nat.zero_add]
    rfl
  | cons f fields ih =>
    rw [List.flatMap_cons] at h ⊢
    obtain ⟨hf, hrest⟩ := holds_append.1 h
    rw [List.length_cons, Nat.succ_add, fieldsWith_of_known (hfields f (List.mem_cons_self ..)) hf,
      ih (fun f hf ↦ hfields f (List.mem_cons_of_mem _ hf)) hrest, Traced.after_after,
      List.length_append, ← Nat.add_assoc]
    rfl

/-- The header of a message. -/
theorem messagesWith_header {number : UInt8} {count : ℕ} (hcount : count ≤ 65535)
    (hmore : more p = true) (h : Holds m p (Message.header number count)) :
    messagesWith known skip more m (fuel + 1) p =
      (fieldsWith known skip m count (p + 4) >>= messagesWith known skip more m fuel).after
        [.header, .message number count] := by
  obtain ⟨hmessage, hnumber, hcount'⟩ := h
  rw [messagesWith, if_pos hmore, readAt_eq_ok.2 hmessage, Traced.lift_ok_bind, if_pos rfl,
    Traced.emit_bind, readAt_eq_ok.2 hnumber, Traced.lift_ok_bind,
    show u16 m (p + 2) = .ok count from u16_of_holds hcount hcount', Traced.lift_ok_bind,
    Traced.emit_bind, Traced.after_after]
  rfl

/-- Any number of messages of known types. -/
theorem messagesWith_append {msgs : List Message} (hmsgs : ∀ msg ∈ msgs, msg.Known known)
    (hmore : ∀ q, p ≤ q → q < p + (msgs.flatMap Message.encode).length → more q = true)
    (h : Holds m p (msgs.flatMap Message.encode)) :
    messagesWith known skip more m (msgs.length + fuel) p =
      (messagesWith known skip more m fuel (p + (msgs.flatMap Message.encode).length)).after
        (msgs.flatMap Message.events) := by
  induction msgs generalizing p with
  | nil =>
    rw [List.length_nil, Nat.zero_add]
    rfl
  | cons msg msgs ih =>
    rw [List.flatMap_cons, List.length_append] at hmore ⊢
    rw [List.flatMap_cons] at h
    obtain ⟨hmsg, hrest⟩ := holds_append.1 h
    obtain ⟨hheader, hfields⟩ := holds_append.1 hmsg
    have hpos : 0 < msg.encode.length := Nat.succ_pos _
    have hmore' : more p = true := hmore p (Nat.le_refl p) (by omega)
    have hlength : 4 + (msg.fields.1.flatMap Field.encode).length = msg.encode.length := by
      rw [Message.encode, List.length_append, Message.length_header]
    have hrun : fieldsWith known skip m msg.fields.1.length (p + 4) =
        ⟨msg.fields.1.map Field.event, .ok (p + msg.encode.length)⟩ := by
      rw [← hlength, ← Nat.add_assoc]
      exact (fieldsWith_append (n := 0) (hmsgs msg (List.mem_cons_self ..)) hfields).trans
        (congrArg (Traced.mk · _) (List.append_nil _))
    rw [List.length_cons, Nat.succ_add, messagesWith_header msg.fields.2 hmore' hheader, hrun,
      Traced.bind_of_ok, ih (fun msg h ↦ hmsgs msg (List.mem_cons_of_mem _ h))
        (fun q hq hq' ↦ hmore q (by omega) (by omega)) hrest, Traced.after_after,
      Traced.after_after, List.flatMap_cons, Nat.add_assoc, Message.events]
    rfl

/-- The loop ends at a byte that is not `blr_message`. -/
theorem messagesWith_of_ne {x : UInt8} (h : m p = some x) (hx : x ≠ blrMessage) :
    messagesWith known skip more m (fuel + 1) p = ⟨[], .ok p⟩ := by
  rw [messagesWith, readAt_eq_ok.2 h, Traced.lift_ok_bind, if_neg hx]
  exact ite_self _

end Decoding

/-! ### Row layouts -/

/-- A column of a row. -/
inductive Column where
  /-- A number with a scale, which is a signed byte. -/
  | short (scale : Int8)
  /-- A text in a character set. -/
  | text2 (charset len : UInt16)

namespace Column

/-- Its descriptor. -/
def field : Column → Field
  | short scale => .scale blrShort scale.toUInt8
  | text2 cs len => .charset blrText2 cs len

/-- What the descriptor says. -/
def event : Column → Event
  | short scale => .scale blrShort scale.toInt
  | text2 cs len => .charset blrText2 cs.toNat len.toNat

/-- The descriptor is taken for what it says. -/
theorem event_field_iff (c : Column) :
    c.field.event = c.event ↔ ∀ scale, c = short scale → 0 ≤ scale.toInt := by
  rcases c with scale | ⟨cs, len⟩
  · have hint : scale.toInt =
        if 2 * scale.toUInt8.toNat < 256 then (scale.toUInt8.toNat : ℤ)
        else scale.toUInt8.toNat - 256 :=
      BitVec.toInt_eq_toNat_cond scale.toBitVec
    have hlt := scale.toUInt8.toNat_lt
    have hevent : (field (short scale)).event = event (short scale) ↔
        (scale.toUInt8.toNat : ℤ) = scale.toInt := by
      show Event.scale _ _ = Event.scale _ _ ↔ _
      rw [Event.scale.injEq, and_iff_right rfl]
    rw [hevent]
    constructor
    · rintro h _ rfl'
      cases rfl'
      omega
    · intro h
      have := h scale rfl
      split_ifs at hint <;> omega
  · exact ⟨fun _ _ h ↦ (by cases h), fun _ ↦ rfl⟩

theorem known_field_cpp (c : Column) : c.field.Known Cpp.known := by
  rcases c with scale | ⟨cs, len⟩ <;> rfl

theorem known_field_java (c : Column) : c.field.Known Java.known := by
  rcases c with scale | ⟨cs, len⟩ <;> rfl

end Column

/-- A row layout. -/
structure Layout where
  /-- The number of its message. -/
  number : UInt8
  /-- Its columns. -/
  columns : {cs : List Column // cs.length ≤ 65535}

namespace Layout

/-- The declaration of a layout. -/
def message (l : Layout) : Message where
  number := l.number
  fields := ⟨l.columns.1.map Column.field, (List.length_map _).trans_le l.columns.2⟩

/-- What the declaration says. -/
def events (l : Layout) : List Event :=
  .header :: .message l.number l.columns.1.length :: l.columns.1.map Column.event

theorem events_message (l : Layout) :
    l.message.events =
      .header :: .message l.number l.columns.1.length :: l.columns.1.map (·.field.event) := by
  rw [Message.events, message, List.length_map, List.map_map]
  rfl

/-- A declaration is taken for what it says. -/
theorem events_message_iff (l : Layout) :
    l.message.events = l.events ↔ ∀ scale, .short scale ∈ l.columns.1 → 0 ≤ scale.toInt := by
  rw [events_message, events, List.cons.injEq, List.cons.injEq, and_iff_right rfl,
    and_iff_right rfl, List.map_inj_left]
  constructor
  · exact fun h scale hmem ↦ (Column.event_field_iff _).1 (h _ hmem) scale rfl
  · refine fun h c hc ↦ (Column.event_field_iff c).2 ?_
    rintro scale rfl
    exact h scale hc

end Layout

/-- The declarations of a list of layouts, and what they say. -/
theorem flatMap_events_message_iff (layouts : List Layout) :
    (layouts.map Layout.message).flatMap Message.events = layouts.flatMap Layout.events ↔
      ∀ l ∈ layouts, ∀ scale, .short scale ∈ l.columns.1 → 0 ≤ scale.toInt := by
  induction layouts with
  | nil => exact ⟨fun _ _ h ↦ absurd h List.not_mem_nil, fun _ ↦ rfl⟩
  | cons l layouts ih =>
    have hlength : l.message.events.length = l.events.length := by
      rw [Layout.events_message, Layout.events]
      simp only [List.length_cons, List.length_map]
    rw [List.map_cons, List.flatMap_cons, List.flatMap_cons, List.forall_mem_cons, ← ih,
      ← l.events_message_iff]
    exact ⟨fun h ↦ List.append_inj h hlength, fun ⟨h, h'⟩ ↦ h ▸ h' ▸ rfl⟩

section Declarations

variable {known : UInt8 → Option Operands} {skip : ℕ} {more : ℕ → Bool}

/-- The loop over the declarations of a list of layouts. -/
theorem messagesWith_declarations (hknown : ∀ c : Column, c.field.Known known)
    (start : List UInt8) (layouts : List Layout) {x : UInt8} (hx : x ≠ blrMessage)
    (rest : List UInt8) {encoded : List UInt8}
    (hencoded : encoded = (layouts.map Layout.message).flatMap Message.encode)
    (hmore : ∀ q < start.length + encoded.length, more q = true) {fuel : ℕ}
    (hfuel : layouts.length < fuel) :
    messagesWith known skip more (memory (start ++ (encoded ++ x :: rest))) fuel start.length =
      ⟨(layouts.map Layout.message).flatMap Message.events,
        .ok (start.length + encoded.length)⟩ := by
  have hholds : Holds (memory (start ++ (encoded ++ x :: rest))) start.length (encoded ++ [x]) := by
    refine holds_memory_of_isPrefix ?_
    rw [List.drop_left, List.append_cons encoded x rest]
    exact List.prefix_append _ _
  obtain ⟨hencoding, hend, -⟩ := holds_append.1 hholds
  obtain ⟨fuel, rfl⟩ : ∃ f, fuel = (layouts.map Layout.message).length + (f + 1) :=
    ⟨fuel - layouts.length - 1, by rw [List.length_map]; omega⟩
  subst hencoded
  rw [messagesWith_append _ (fun q _ hq ↦ hmore q hq) hencoding, messagesWith_of_ne hend hx]
  · exact congrArg (Traced.mk · _) (List.append_nil _)
  · intro msg hmsg f hf
    obtain ⟨l, -, rfl⟩ := List.mem_map.1 hmsg
    obtain ⟨c, -, rfl⟩ := List.mem_map.1 hf
    exact hknown c

end Declarations

/-- The C++ and the Java loop on declarations and another byte behind them: they stop at this byte,
and have reported what the declarations say. -/
def MessagesDecode (start : List UInt8) (layouts : List Layout) (rest : List UInt8) : Prop :=
  let encoded := (layouts.map Layout.message).flatMap Message.encode
  ∀ fuel, layouts.length < fuel →
    Cpp.messages (start ++ (encoded ++ rest)) fuel start.length =
        ⟨layouts.flatMap Layout.events, .ok (start.length + encoded.length)⟩ ∧
      Java.messages (start ++ (encoded ++ rest)) fuel start.length =
        ⟨layouts.flatMap Layout.events, .ok (start.length + encoded.length)⟩

/-- **The declarations decode to the layouts they encode** if no scale is negative, and otherwise
they do not: the loops print the scale as an unsigned byte. -/
theorem messagesDecode_iff (start : List UInt8) (layouts : List Layout) {x : UInt8}
    (hx : x ≠ blrMessage) (rest : List UInt8) :
    MessagesDecode start layouts (x :: rest) ↔
      ∀ l ∈ layouts, ∀ scale, .short scale ∈ l.columns.1 → 0 ≤ scale.toInt := by
  have hcpp : ∀ fuel, layouts.length < fuel → Cpp.messages _ fuel start.length = _ :=
    fun _ ↦ messagesWith_declarations Column.known_field_cpp start layouts hx rest rfl
      fun _ _ ↦ rfl
  have hjava : ∀ fuel, layouts.length < fuel → Java.messages _ fuel start.length = _ :=
    fun _ ↦ messagesWith_declarations Column.known_field_java start layouts hx rest rfl
      fun q hq ↦ decide_eq_true (by simp only [List.length_append] at hq ⊢; omega)
  rw [← flatMap_events_message_iff]
  constructor
  · intro h
    have hrun := (h (layouts.length + 1) (by omega)).1
    exact congrArg Traced.log ((hcpp _ (by omega)).symm.trans hrun)
  · intro h fuel hfuel
    rw [← h]
    exact ⟨hcpp fuel hfuel, hjava fuel hfuel⟩

/-- The parameters of a procedure: a text and a number without decimals. -/
theorem messagesDecode_text_short :
    MessagesDecode [5, 2] [⟨1, ⟨[.text2 0 5, .short 0], by decide⟩⟩] [255] :=
  (messagesDecode_iff [5, 2] [⟨1, ⟨[.text2 0 5, .short 0], by decide⟩⟩] (by decide) []).2 <| by
    intro l hl scale hscale
    rw [List.mem_singleton.1 hl] at hscale
    simp only [List.mem_cons, List.not_mem_nil, or_false, Column.short.injEq, reduceCtorEq,
      false_or] at hscale
    subst hscale
    decide

/-- A number with two decimals: its scale is shown as 254. -/
theorem not_messagesDecode_of_decimals :
    ¬ MessagesDecode [5, 2] [⟨0, ⟨[.short (-2)], by decide⟩⟩] [255] :=
  fun h ↦ absurd (congrArg Traced.log (h 2 (by decide)).1) (by decide)

end FirebirdSamples.Blr
