import Mathlib

/-!
# Little-endian numbers

A string of bytes as a number, least significant byte first, in the two readings of a machine:
`value` is the unsigned one and `signed` the one in two's complement. They are the same on the lower
half of the range (`signed_eq_value_iff`), and the unsigned value can always be had back from the
signed one (`signed_emod`).
-/

namespace LittleEndian

/-- The unsigned value. -/
def value : List UInt8 → ℕ
  | [] => 0
  | b :: bs => b.toNat + 256 * value bs

/-- The value in two's complement. -/
def signed (bs : List UInt8) : ℤ :=
  Int.bmod (value bs) (256 ^ bs.length)

@[simp] theorem value_nil : value [] = 0 := rfl

theorem value_cons (b : UInt8) (bs : List UInt8) : value (b :: bs) = b.toNat + 256 * value bs := rfl

@[simp] theorem value_singleton (b : UInt8) : value [b] = b.toNat := rfl

theorem value_lt (bs : List UInt8) : value bs < 256 ^ bs.length := by
  induction bs with
  | nil => exact Nat.one_pos
  | cons b bs ih =>
    have hb := b.toNat_lt
    rw [value_cons, List.length_cons, Nat.pow_succ]
    omega

theorem value_append (bs cs : List UInt8) :
    value (bs ++ cs) = value bs + 256 ^ bs.length * value cs := by
  induction bs with
  | nil => simp
  | cons b bs ih =>
    rw [List.cons_append, value_cons, value_cons, ih, List.length_cons, Nat.pow_succ, Nat.mul_add,
      Nat.add_assoc, Nat.mul_comm (256 ^ bs.length) 256, Nat.mul_assoc]

/-- The first bytes make up the residue. -/
theorem value_take (bs : List UInt8) (n : ℕ) : value (bs.take n) = value bs % 256 ^ n := by
  rcases Nat.le_total n bs.length with h | h
  · have hlength : (bs.take n).length = n := List.length_take_of_le h
    have hlt := value_lt (bs.take n)
    have happend := value_append (bs.take n) (bs.drop n)
    rw [List.take_append_drop, hlength] at happend
    rw [hlength] at hlt
    rw [happend, Nat.add_mul_mod_self_left, Nat.mod_eq_of_lt hlt]
  · have hlt := Nat.lt_of_lt_of_le (value_lt bs) (Nat.pow_le_pow_right (show 0 < 256 by omega) h)
    rw [List.take_of_length_le h, Nat.mod_eq_of_lt hlt]

/-! ### The bytes of a value -/

/-- The `w` least significant bytes of a number. -/
def bytes : ℕ → ℕ → List UInt8
  | 0, _ => []
  | w + 1, n => UInt8.ofNat n :: bytes w (n / 256)

@[simp] theorem length_bytes (w n : ℕ) : (bytes w n).length = w := by
  induction w generalizing n with
  | zero => rfl
  | succ w ih => rw [bytes, List.length_cons, ih]

/-- The bytes are those of the number if it fits. -/
theorem value_bytes {w n : ℕ} (hn : n < 256 ^ w) : value (bytes w n) = n := by
  induction w generalizing n with
  | zero =>
    rw [Nat.pow_zero] at hn
    show 0 = n
    omega
  | succ w ih =>
    rw [Nat.pow_succ] at hn
    rw [bytes, value_cons, ih (by omega), UInt8.toNat_ofNat']
    omega

theorem bytes_value (bs : List UInt8) : bytes bs.length (value bs) = bs := by
  induction bs with
  | nil => rfl
  | cons b bs ih =>
    have hb := b.toNat_lt
    have hhead : UInt8.ofNat (b.toNat + 256 * value bs) = b := by
      refine UInt8.toNat_inj.1 ?_
      rw [UInt8.toNat_ofNat']
      omega
    rw [List.length_cons, value_cons, bytes, hhead,
      show (b.toNat + 256 * value bs) / 256 = value bs by omega, ih]

/-! ### The signed reading -/

theorem value_emod (bs : List UInt8) :
    (value bs : ℤ) % (256 ^ bs.length : ℕ) = value bs :=
  Int.emod_eq_of_lt (Int.natCast_nonneg _) (Int.ofNat_lt.2 (value_lt bs))

/-- The unsigned value is the signed one up to the modulus. -/
theorem signed_emod (bs : List UInt8) : signed bs % (256 ^ bs.length : ℕ) = value bs := by
  rw [signed, Int.bmod_emod, value_emod]

theorem toNat_signed_emod (bs : List UInt8) :
    (signed bs % (256 ^ bs.length : ℕ)).toNat = value bs := by
  rw [signed_emod, Int.toNat_natCast]

/-- **The two readings agree** on the lower half of the range. -/
theorem signed_eq_value_iff {bs : List UInt8} :
    signed bs = value bs ↔ 2 * value bs < 256 ^ bs.length := by
  have hlt := value_lt bs
  rw [signed, Int.bmod_eq_emod, value_emod]
  split_ifs with h <;> omega

end LittleEndian
