import Mathlib.Data.Int.Notation
import Mathlib.Data.List.Basic
import Mathlib.Data.Nat.Notation

/-!
# Node buffers

The operations of Node's `Buffer` that `samples/nodejs/srp-handshake.js` uses, on lists of bytes:
conversion from and to text, `subarray` with its relative indices, and the fixed-width accessors. A
read or a write that Node refuses with a `RangeError` is `none`.
-/

namespace FirebirdSamples

/-- The bytes of a `Buffer`. -/
abbrev Buffer := List UInt8

namespace Buffer

/-! ### Text -/

/-- `Buffer.from(s)`: the UTF-8 encoding of a string. -/
def ofString (s : String) : Buffer :=
  s.toUTF8.data.toList

/-- A text is encoded character by character. -/
theorem ofString_ofList (cs : List Char) :
    ofString (String.ofList cs) = cs.flatMap String.utf8EncodeChar := by
  show (String.ofList cs).toByteArray.data.toList = _
  rw [String.toByteArray_ofList, List.utf8Encode, List.toList_data_toByteArray]

/-- The state of the UTF-8 decoder: between characters, or inside one with `needed` bytes missing,
of which the next must lie between `lower` and `upper`. -/
inductive Utf8State where
  | start
  | more (needed codePoint lower upper : ℕ)

/-- The replacement character, for input that is not UTF-8. -/
def replacement : Char := Char.ofNat 0xFFFD

/-- The decoder at the first byte of a character. -/
def utf8Lead (b : ℕ) : List Char × Utf8State :=
  if b ≤ 0x7F then ([Char.ofNat b], .start)
  else if 0xC2 ≤ b ∧ b ≤ 0xDF then ([], .more 1 (b - 0xC0) 0x80 0xBF)
  else if 0xE0 ≤ b ∧ b ≤ 0xEF then
    ([], .more 2 (b - 0xE0) (if b = 0xE0 then 0xA0 else 0x80) (if b = 0xED then 0x9F else 0xBF))
  else if 0xF0 ≤ b ∧ b ≤ 0xF4 then
    ([], .more 3 (b - 0xF0) (if b = 0xF0 then 0x90 else 0x80) (if b = 0xF4 then 0x8F else 0xBF))
  else ([replacement], .start)

/-- One byte of the decoder. A byte that cannot continue a character ends it with a replacement
and is read again as a first byte. -/
def utf8Step : Utf8State → ℕ → List Char × Utf8State
  | .start, b => utf8Lead b
  | .more needed codePoint lower upper, b =>
    if lower ≤ b ∧ b ≤ upper then
      let cp := codePoint * 64 + (b - 0x80)
      if needed = 1 then ([Char.ofNat cp], .start) else ([], .more (needed - 1) cp 0x80 0xBF)
    else (replacement :: (utf8Lead b).1, (utf8Lead b).2)

/-- The decoder from a given state. -/
def utf8Decode : Utf8State → Buffer → List Char
  | .start, [] => []
  | .more .., [] => [replacement]
  | st, b :: bs => (utf8Step st b.toNat).1 ++ utf8Decode (utf8Step st b.toNat).2 bs

/-- `buf.toString()`. -/
def toText (buf : Buffer) : String :=
  String.ofList (utf8Decode .start buf)

/-! ### Slices -/

/-- An index of `subarray`: negative ones count from the end, and both are clipped. -/
def relativeIndex (n : ℤ) (length : ℕ) : ℕ :=
  if n < 0 then (n + length).toNat else min n.toNat length

/-- `buf.subarray(start, stop)`. -/
def subarray (buf : Buffer) (start stop : ℤ) : Buffer :=
  (buf.take (relativeIndex stop buf.length)).drop (relativeIndex start buf.length)

/-- The prefix of `n` bytes. -/
theorem subarray_zero {buf : Buffer} {n : ℤ} (hn : 0 ≤ n) :
    subarray buf 0 n = buf.take n.toNat := by
  rw [subarray, relativeIndex, relativeIndex, if_neg (by omega), if_neg (by omega)]
  simp [List.take_eq_take_iff]

/-- What follows the prefix of `n` bytes, for an `n` within the buffer. -/
theorem subarray_length {buf : Buffer} {n : ℤ} (hn : 0 ≤ n) (hle : n ≤ buf.length) :
    subarray buf n buf.length = buf.drop n.toNat := by
  rw [subarray, relativeIndex, relativeIndex, if_neg (by omega), if_neg (by omega),
    Nat.min_eq_left (by omega), Nat.min_eq_left (by omega)]
  simp

/-! ### Fixed-width integers -/

/-- The four bytes of a 32-bit word, most significant first. -/
def wordBE (u : ℕ) : Buffer :=
  [UInt8.ofNat (u / 16777216), UInt8.ofNat (u / 65536), UInt8.ofNat (u / 256), UInt8.ofNat u]

/-- `writeInt32BE` into four bytes. -/
def writeInt32BE (v : ℤ) : Option Buffer :=
  if -2147483648 ≤ v ∧ v ≤ 2147483647 then some (wordBE (v % 4294967296).toNat) else none

/-- `readInt32BE` at offset 0. -/
def readInt32BE : Buffer → Option ℤ
  | a :: b :: c :: d :: _ =>
    let u : ℤ := ((a.toNat * 256 + b.toNat) * 256 + c.toNat) * 256 + d.toNat
    some (if u ≤ 2147483647 then u else u - 4294967296)
  | _ => none

/-- `readUInt16LE` at an offset. -/
def readUInt16LE (buf : Buffer) (offset : ℕ) : Option ℕ :=
  match buf[offset]?, buf[offset + 1]? with
  | some a, some b => some (a.toNat + b.toNat * 256)
  | _, _ => none

theorem writeInt32BE_of_range {v : ℤ} (h : -2147483648 ≤ v ∧ v ≤ 2147483647) :
    writeInt32BE v = some (wordBE (v % 4294967296).toNat) :=
  if_pos h

/-- **Reading back a written integer.** -/
theorem readInt32BE_wordBE {v : ℤ} (h : -2147483648 ≤ v ∧ v ≤ 2147483647) (rest : Buffer) :
    readInt32BE (wordBE (v % 4294967296).toNat ++ rest) = some v := by
  simp only [wordBE, List.cons_append, readInt32BE, UInt8.toNat_ofNat', Nat.reducePow]
  congr 1
  split_ifs <;> omega

/-- Four bytes are read as a 32-bit number. -/
theorem readInt32BE_eq_some_of_length {buf : Buffer} (h : buf.length = 4) :
    ∃ v, readInt32BE buf = some v ∧ -2147483648 ≤ v ∧ v ≤ 2147483647 := by
  obtain ⟨a, b, c, d, rfl⟩ : ∃ a b c d, buf = [a, b, c, d] := by
    match buf, h with
    | [a, b, c, d], _ => exact ⟨a, b, c, d, rfl⟩
  refine ⟨_, rfl, ?_⟩
  have ha := a.toNat_lt
  have hb := b.toNat_lt
  have hc := c.toNat_lt
  have hd := d.toNat_lt
  split_ifs <;> omega

end Buffer

end FirebirdSamples
