import FirebirdSamples.Library.LittleEndian

/-!
# Tag, length, value

A sequence of entries, each a byte of tag, the length of the payload and the payload. The length
takes a fixed number of bytes, least significant first; this number is a parameter.

`Entry.encode` writes an entry, with whatever part of the length fits into its bytes, and `read`
takes a byte string apart again. The two are inverse to each other as long as the lengths fit
(`read_eq_some_iff`): reading back what was written gives the entries (`read_flatMap_encode`), and
what is read has payloads whose lengths fit (`fits_of_read`), so that too long a payload never comes
back.
-/

namespace TagLengthValue

open LittleEndian (bytes value)

/-- An entry. -/
structure Entry where
  /-- The tag. -/
  tag : UInt8
  /-- The payload. -/
  payload : List UInt8
  deriving DecidableEq

variable {w : ℕ}

/-- The bytes of an entry. The length is cut off to `w` bytes. -/
def Entry.encode (w : ℕ) (e : Entry) : List UInt8 :=
  e.tag :: (bytes w e.payload.length ++ e.payload)

/-- The length of the payload fits into `w` bytes. -/
def Entry.Fits (w : ℕ) (e : Entry) : Prop :=
  e.payload.length < 256 ^ w

instance (e : Entry) : Decidable (e.Fits w) :=
  inferInstanceAs (Decidable (_ < _))

/-- The entries a byte string consists of; `none` if it ends within one. -/
def read (w : ℕ) : List UInt8 → Option (List Entry)
  | [] => some []
  | tag :: b =>
    let n := value (b.take w)
    if w + n ≤ b.length then
      (read w ((b.drop w).drop n)).map (⟨tag, (b.drop w).take n⟩ :: ·)
    else none
termination_by b => b.length
decreasing_by
  simp only [List.length_drop, List.length_cons]
  omega

/-- The payloads under a tag, in order. -/
def payloads (tag : UInt8) (es : List Entry) : List (List UInt8) :=
  (es.filter (·.tag = tag)).map (·.payload)

/-! ### Reading back -/

@[simp] theorem read_nil : read w [] = some [] := by
  rw [read]

theorem Entry.length_encode (e : Entry) : (e.encode w).length = 1 + w + e.payload.length := by
  simp only [encode, List.length_cons, List.length_append, LittleEndian.length_bytes]
  omega

/-- An entry is read back from the front. -/
theorem read_encode_append {e : Entry} (he : e.Fits w) (b : List UInt8) :
    read w (e.encode w ++ b) = (read w b).map (e :: ·) := by
  have hw := LittleEndian.length_bytes w e.payload.length
  rw [Entry.encode, List.cons_append, List.append_assoc, read, List.take_left' hw,
    List.drop_left' hw, LittleEndian.value_bytes he, List.drop_left, List.take_left]
  refine if_pos ?_
  simp only [List.length_append, hw]
  omega

/-- **Reading back a sequence of entries.** -/
theorem read_flatMap_encode {es : List Entry} (hes : ∀ e ∈ es, e.Fits w) :
    read w (es.flatMap (·.encode w)) = some es := by
  induction es with
  | nil => exact read_nil
  | cons e es ih =>
    rw [List.flatMap_cons, read_encode_append (hes e (List.mem_cons_self ..)),
      ih fun e he ↦ hes e (List.mem_cons_of_mem _ he), Option.map_some]

/-- What is read is what would be written. -/
theorem eq_of_read {b : List UInt8} {es : List Entry} (h : read w b = some es) :
    b = es.flatMap (·.encode w) ∧ ∀ e ∈ es, e.Fits w := by
  induction es generalizing b with
  | nil =>
    rcases b with _ | ⟨tag, b⟩
    · exact ⟨rfl, fun _ h ↦ absurd h List.not_mem_nil⟩
    · rw [read] at h
      split_ifs at h
      simp at h
  | cons e es ih =>
    rcases b with _ | ⟨tag, b⟩
    · simp at h
    rw [read] at h
    split_ifs at h with hlen
    obtain ⟨es', hes', heq⟩ := Option.map_eq_some_iff.1 h
    obtain ⟨rfl, rfl⟩ := List.cons.inj heq
    obtain ⟨hrest, hfits⟩ := ih hes'
    have hlength : (b.take w).length = w := List.length_take_of_le (by omega)
    have hpayload : ((b.drop w).take (value (b.take w))).length = value (b.take w) :=
      List.length_take_of_le (by rw [List.length_drop]; omega)
    constructor
    · rw [List.flatMap_cons, ← hrest, Entry.encode, hpayload]
      conv_rhs => enter [1, 2, 1, 1]; rw [← hlength]
      rw [LittleEndian.bytes_value, List.cons_append, List.append_assoc, List.take_append_drop,
        List.take_append_drop]
    · refine List.forall_mem_cons.2 ⟨?_, hfits⟩
      have hlt := LittleEndian.value_lt (b.take w)
      rw [hlength] at hlt
      rwa [Entry.Fits, hpayload]

/-- **Reading inverts writing.** -/
theorem read_eq_some_iff {b : List UInt8} {es : List Entry} :
    read w b = some es ↔ b = es.flatMap (·.encode w) ∧ ∀ e ∈ es, e.Fits w :=
  ⟨eq_of_read, fun ⟨hb, hes⟩ ↦ hb ▸ read_flatMap_encode hes⟩

/-! ### Payloads -/

theorem payloads_append (tag : UInt8) (es fs : List Entry) :
    payloads tag (es ++ fs) = payloads tag es ++ payloads tag fs := by
  rw [payloads, List.filter_append, List.map_append]
  rfl

/-- A payload that is read is not too long for its length to be written. -/
theorem length_lt_of_mem_payloads {b : List UInt8} {es : List Entry} {tag : UInt8}
    {payload : List UInt8} (h : read w b = some es) (hmem : payload ∈ payloads tag es) :
    payload.length < 256 ^ w := by
  obtain ⟨e, he, rfl⟩ := List.mem_map.1 hmem
  exact (eq_of_read h).2 e (List.mem_filter.1 he).1

end TagLengthValue
