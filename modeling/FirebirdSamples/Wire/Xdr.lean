import FirebirdSamples.Buffer

/-!
# Serialising in XDR

The class `Writer` of `samples/nodejs/srp-handshake.js`. An integer is four bytes; an opaque is its
length, its bytes and zeros up to a multiple of four. `writeInt32BE` refuses numbers that are not
signed 32-bit, so a chain of writes may throw.
-/

namespace FirebirdSamples.Wire

/-- `(4 - n % 4) % 4`, with the truncated `%` of JavaScript: the bytes that pad an opaque of length
`n`. -/
def padding (n : ℤ) : ℤ :=
  Int.tmod (4 - Int.tmod n 4) 4

/-- A padding is between zero and three bytes, for negative lengths as well. -/
theorem padding_nonneg (n : ℤ) : 0 ≤ padding n := by
  have hlow := Int.lt_tmod_of_pos n (show (0 : ℤ) < 4 by decide)
  have hhigh := Int.tmod_lt_of_pos n (show (0 : ℤ) < 4 by decide)
  exact Int.tmod_nonneg _ (by omega)

/-- The parts written so far. -/
structure Writer where
  /-- The parts, in order. -/
  parts : List Buffer

namespace Writer

/-- The constructor. -/
def new : Writer where
  parts := []

/-- Append an integer. -/
def int (w : Writer) (v : ℤ) : Option Writer :=
  (Buffer.writeInt32BE v).map fun b ↦ ⟨w.parts ++ [b]⟩

/-- Append an opaque: length, data, padding. -/
def bytes (w : Writer) (buf : Buffer) : Option Writer :=
  (w.int buf.length).map fun w ↦ ⟨w.parts ++ [buf, List.replicate (padding buf.length).toNat 0]⟩

/-- Append the UTF-8 bytes of a string. -/
def str (w : Writer) (s : String) : Option Writer :=
  w.bytes (Buffer.ofString s)

/-- The bytes written. -/
def buf (w : Writer) : Buffer :=
  w.parts.flatten

end Writer

/-! ### The bytes of one item -/

/-- The bytes of an integer. -/
def xdrInt (v : ℤ) : Buffer :=
  Buffer.wordBE (v % 4294967296).toNat

/-- The bytes of an opaque. -/
def xdrBytes (b : Buffer) : Buffer :=
  xdrInt b.length ++ (b ++ List.replicate (padding b.length).toNat 0)

/-- The signed 32-bit numbers. -/
def IsInt32 (v : ℤ) : Prop :=
  -2147483648 ≤ v ∧ v ≤ 2147483647

instance (v : ℤ) : Decidable (IsInt32 v) :=
  inferInstanceAs (Decidable (_ ∧ _))

/-- A signed 32-bit number. -/
abbrev Word : Type :=
  {v : ℤ // IsInt32 v}

/-- A byte string whose length is one. -/
abbrev Opaque : Type :=
  {b : Buffer // b.length < 2147483648}

theorem isInt32_zero : IsInt32 0 := by
  decide

theorem length_nil_lt : ([] : Buffer).length < 2147483648 := by
  decide

@[simp] theorem length_xdrInt (v : ℤ) : (xdrInt v).length = 4 := rfl

theorem isInt32_length {b : Buffer} (h : b.length < 2147483648) : IsInt32 b.length := by
  constructor <;> omega

theorem Writer.int_of_isInt32 (w : Writer) {v : ℤ} (h : IsInt32 v) :
    ∃ w', w.int v = some w' ∧ w'.buf = w.buf ++ xdrInt v := by
  rw [int, Buffer.writeInt32BE_of_range h]
  exact ⟨_, rfl, by simp [buf, xdrInt]⟩

theorem Writer.bytes_of_length_lt (w : Writer) {b : Buffer} (h : b.length < 2147483648) :
    ∃ w', w.bytes b = some w' ∧ w'.buf = w.buf ++ xdrBytes b := by
  obtain ⟨w', hw, hbuf⟩ := w.int_of_isInt32 (isInt32_length h)
  rw [bytes, hw]
  refine ⟨_, rfl, ?_⟩
  simp only [buf] at hbuf
  simp [buf, xdrBytes, hbuf]

end FirebirdSamples.Wire
