import FirebirdSamples.Buffer
import Mathlib.Data.Int.Bitwise
import Mathlib.Data.Int.ModEq
import Mathlib.Data.List.DropRight
import Mathlib.Data.Nat.Digits.Defs
import Mathlib.Tactic.Ring
import Mathlib.Tactic.IntervalCases

/-!
# Big integers and buffers of the handshake script

The arithmetic helpers of `samples/nodejs/srp-handshake.js`. A JavaScript `BigInt` is an integer, a
`Buffer` is a list of bytes, and a text is a list of characters. The two operators whose JavaScript
meaning differs from Lean's are kept apart: `%` truncates towards zero (`Int.tmod`), and
`Buffer.from(text, 'hex')` stops at the first pair that is not two hexadecimal digits.

The two facts the SRP computation rests on are here:

* `modPow_natCast` — the square-and-multiply loop computes the residue of the power, for a base
  of either sign; and
* `bufToBig_eq_beValue` — reading a buffer through its hexadecimal text gives its big-endian value,
  so a digest of `n` bytes is a number below `256 ^ n` (`bufToBig_lt`).

The hexadecimal text of a number is the one of its bytes (`bufToHex_bigToBuf`), two digits for a
byte whatever its length. So the bytes of a number are those of a 256th of it and one more
(`bigToBuf_of_le`), and all that is to be known of them follows by induction on the number.
-/

namespace FirebirdSamples

/-! ### Modular arithmetic -/

/-- `((a % m) + m) % m`, with the truncated `%` of JavaScript. -/
def mod (a m : ℤ) : ℤ :=
  Int.tmod (Int.tmod a m + m) m

/-- The `while` loop of `modPow`: the accumulator, the running square and what is left of the
exponent. -/
def modPowLoop (r base exp m : ℤ) : ℤ :=
  if 0 < exp then
    modPowLoop (if Int.land exp 1 ≠ 0 then Int.tmod (r * base) m else r)
      (Int.tmod (base * base) m) (exp >>> (1 : ℕ)) m
  else r
termination_by exp.toNat
decreasing_by
  rw [Int.shiftRight_eq_div_pow]
  omega

/-- Modular exponentiation by squaring. -/
def modPow (base exp m : ℤ) : ℤ :=
  modPowLoop 1 (mod base m) exp m

/-- `mod` is the non-negative residue, whatever the sign of its argument. -/
theorem mod_eq_emod (a : ℤ) {m : ℤ} (hm : 0 < m) : mod a m = a % m := by
  have hlow : -m < Int.tmod a m := by
    have := Int.lt_tmod_of_pos a hm
    omega
  have hsum : 0 ≤ Int.tmod a m + m := by omega
  rw [mod, Int.tmod_eq_emod_of_nonneg hsum, Int.add_emod_right, Int.tmod_eq_emod]
  split_ifs
  · rw [Nat.cast_zero, sub_zero, Int.emod_emod]
  · rw [Int.natAbs_of_nonneg hm.le, Int.sub_emod_right, Int.emod_emod]

theorem mod_nonneg (a : ℤ) {m : ℤ} (hm : 0 < m) : 0 ≤ mod a m := by
  rw [mod_eq_emod a hm]
  exact Int.emod_nonneg a hm.ne'

theorem mod_lt (a : ℤ) {m : ℤ} (hm : 0 < m) : mod a m < m := by
  rw [mod_eq_emod a hm]
  exact Int.emod_lt_of_pos a hm

theorem modPowLoop_of_pos {r base exp m : ℤ} (h : 0 < exp) :
    modPowLoop r base exp m =
      modPowLoop (if Int.land exp 1 ≠ 0 then Int.tmod (r * base) m else r)
        (Int.tmod (base * base) m) (exp >>> (1 : ℕ)) m := by
  rw [modPowLoop, if_pos h]

theorem modPowLoop_of_nonpos {r base exp m : ℤ} (h : ¬ 0 < exp) :
    modPowLoop r base exp m = r := by
  rw [modPowLoop, if_neg h]

/-- **The loop invariant**: accumulator times running square to the remaining exponent never
changes modulo `m`. -/
theorem modPowLoop_natCast {m : ℤ} (hm : 0 < m) :
    ∀ (n : ℕ) {r base : ℤ}, 0 ≤ r → r < m → 0 ≤ base →
      modPowLoop r base n m = r * base ^ n % m := by
  intro n
  induction n using Nat.strong_induction_on with
  | _ n ih =>
    intro r base hr hrm hb
    rcases Nat.eq_zero_or_pos n with rfl | hn
    · rw [modPowLoop_of_nonpos (by simp), pow_zero, mul_one, Int.emod_eq_of_lt hr hrm]
    have hshift : (n : ℤ) >>> (1 : ℕ) = ((n / 2 : ℕ) : ℤ) := by
      rw [Int.shiftRight_eq_div_pow]
      norm_num
    have hbit : Int.land (n : ℤ) 1 = ((n % 2 : ℕ) : ℤ) := by
      rw [← Nat.and_one_is_mod]
      rfl
    have hsq : 0 ≤ base * base % m := Int.emod_nonneg _ hm.ne'
    rw [modPowLoop_of_pos (by exact_mod_cast hn), hshift, hbit,
      Int.tmod_eq_emod_of_nonneg (mul_nonneg hb hb)]
    -- the running square accounts for twice the halved exponent
    have hpow : ∀ t : ℤ, t * (base * base % m) ^ (n / 2) % m = t * (base * base) ^ (n / 2) % m :=
      fun t ↦ ((Int.mod_modEq (base * base) m).pow (n / 2)).mul_left t
    rcases Nat.mod_two_eq_zero_or_one n with heven | hodd
    · rw [heven, if_neg (by simp), ih (n / 2) (by omega) hr hrm hsq, hpow]
      congr 2
      rw [← pow_two, ← pow_mul, show 2 * (n / 2) = n by omega]
    · rw [hodd, if_pos (by simp), Int.tmod_eq_emod_of_nonneg (mul_nonneg hr hb),
        ih (n / 2) (by omega) (Int.emod_nonneg _ hm.ne') (Int.emod_lt_of_pos _ hm) hsq, hpow]
      calc r * base % m * (base * base) ^ (n / 2) % m
          = r * base * (base * base) ^ (n / 2) % m := (Int.mod_modEq (r * base) m).mul_right _
        _ = r * base ^ (2 * (n / 2) + 1) % m := by
          congr 1
          rw [← pow_two, ← pow_mul]
          ring
        _ = r * base ^ n % m := by rw [show 2 * (n / 2) + 1 = n by omega]

/-- **`modPow` computes the residue of the power.** -/
theorem modPow_natCast (base : ℤ) (n : ℕ) {m : ℤ} (hm : 1 < m) :
    modPow base n m = base ^ n % m := by
  have hpos : 0 < m := by omega
  rw [modPow, modPowLoop_natCast hpos n (by omega) hm (mod_nonneg base hpos), one_mul,
    mod_eq_emod base hpos]
  exact (Int.mod_modEq base m).pow n

theorem modPow_of_nonneg (base : ℤ) {exp m : ℤ} (he : 0 ≤ exp) (hm : 1 < m) :
    modPow base exp m = base ^ exp.toNat % m := by
  conv_lhs => rw [← Int.toNat_of_nonneg he]
  exact modPow_natCast base exp.toNat hm

/-- **`modPow` is modular exponentiation**: its result is the only number below the modulus, and
not below zero, that is congruent to the power. -/
theorem modPow_eq_iff (base : ℤ) {exp m : ℤ} (hexp : 0 ≤ exp) (hm : 1 < m) (r : ℤ) :
    modPow base exp m = r ↔ (0 ≤ r ∧ r < m) ∧ r ≡ base ^ exp.toNat [ZMOD m] := by
  have hpos : 0 < m := by omega
  rw [modPow_of_nonneg base hexp hm]
  constructor
  · rintro rfl
    exact ⟨⟨Int.emod_nonneg _ hpos.ne', Int.emod_lt_of_pos _ hpos⟩, Int.mod_modEq _ m⟩
  · rintro ⟨⟨hnonneg, hlt⟩, hmod⟩
    rw [← hmod.eq]
    exact Int.emod_eq_of_lt hnonneg hlt

theorem modPow_neg_three : modPow (-3) 5 7 = 2 :=
  (modPow_eq_iff (-3) (by decide) (by decide) 2).2 ⟨by decide, by decide⟩

/-! ### Buffers and hexadecimal text -/

/-- The value of a hexadecimal digit, of either case. -/
def hexVal (c : Char) : Option ℕ :=
  if '0' ≤ c ∧ c ≤ '9' then some (c.toNat - '0'.toNat)
  else if 'a' ≤ c ∧ c ≤ 'f' then some (c.toNat - 'a'.toNat + 10)
  else if 'A' ≤ c ∧ c ≤ 'F' then some (c.toNat - 'A'.toNat + 10)
  else none

/-- `b.toString(16)`. -/
def toHexString (b : ℤ) : List Char :=
  if b < 0 then '-' :: Nat.toDigits 16 b.natAbs else Nat.toDigits 16 b.natAbs

/-- The hexadecimal text of a number, padded to whole bytes. -/
def bigToHex (b : ℤ) : List Char :=
  let h := toHexString b
  if h.length % 2 ≠ 0 then '0' :: h else h

/-- `Buffer.from(text, 'hex')`: the bytes of the leading pairs of hexadecimal digits. -/
def bufferFromHex : List Char → Buffer
  | c :: d :: rest =>
    match hexVal c, hexVal d with
    | some x, some y => UInt8.ofNat (16 * x + y) :: bufferFromHex rest
    | _, _ => []
  | _ => []

/-- The minimal big-endian bytes of a number. -/
def bigToBuf (b : ℤ) : Buffer :=
  bufferFromHex (bigToHex b)

/-- `buf.toString('hex')`. -/
def bufToHex (buf : Buffer) : List Char :=
  buf.flatMap fun b ↦ [Nat.digitChar (b.toNat / 16), Nat.digitChar (b.toNat % 16)]

/-- The white space JavaScript strips from the end of a numeric text. -/
def isJsSpace (c : Char) : Bool :=
  c.toNat ∈ [0x9, 0xA, 0xB, 0xC, 0xD, 0x20, 0xA0, 0x1680, 0x2028, 0x2029, 0x202F, 0x205F, 0x3000,
    0xFEFF] || (0x2000 ≤ c.toNat && c.toNat ≤ 0x200A)

/-- `BigInt('0x' + text)`; `none` is the `SyntaxError`. -/
def bigIntFromHex (text : List Char) : Option ℤ :=
  let digits := text.rdropWhile isJsSpace
  if digits = [] then none
  else digits.foldlM (fun v c ↦ (hexVal c).map fun x : ℕ ↦ 16 * v + (x : ℤ)) 0

/-- The number a buffer denotes. The hexadecimal text of a non-empty buffer always parses
(`bigIntFromHex_bufToHex`), so the default is never read. -/
def bufToBig (buf : Buffer) : ℤ :=
  if buf.length ≠ 0 then (bigIntFromHex (bufToHex buf)).getD 0 else 0

/-- The big-endian value of a buffer. -/
def beValue (buf : Buffer) : ℕ :=
  buf.foldl (fun v b ↦ 256 * v + b.toNat) 0

theorem hexVal_digitChar {x : ℕ} (hx : x < 16) : hexVal (Nat.digitChar x) = some x := by
  interval_cases x <;> rfl

theorem not_isJsSpace_digitChar {x : ℕ} (hx : x < 16) : isJsSpace (Nat.digitChar x) = false := by
  interval_cases x <;> rfl

theorem bufToHex_cons (b : UInt8) (buf : Buffer) :
    bufToHex (b :: buf) =
      Nat.digitChar (b.toNat / 16) :: Nat.digitChar (b.toNat % 16) :: bufToHex buf :=
  rfl

theorem bufToHex_ne_nil {buf : Buffer} (h : buf ≠ []) : bufToHex buf ≠ [] := by
  cases buf with
  | nil => exact absurd rfl h
  | cons b buf => simp [bufToHex_cons]

/-- The text of a buffer has no white space to strip. -/
theorem rdropWhile_bufToHex (buf : Buffer) :
    (bufToHex buf).rdropWhile isJsSpace = bufToHex buf := by
  refine List.rdropWhile_eq_self_iff.2 fun hne ↦ ?_
  have hmem := List.getLast_mem hne
  obtain ⟨b, -, hb⟩ := List.mem_flatMap.1 hmem
  have hlt := b.toNat_lt
  simp only [List.mem_cons, List.not_mem_nil, or_false] at hb
  rcases hb with hb | hb
  · rw [hb, not_isJsSpace_digitChar (by omega)]
    decide
  · rw [hb, not_isJsSpace_digitChar (by omega)]
    decide

theorem foldlM_bufToHex (buf : Buffer) (v : ℕ) :
    (bufToHex buf).foldlM (fun (v : ℤ) c ↦ (hexVal c).map fun x : ℕ ↦ 16 * v + (x : ℤ)) (v : ℤ) =
      some ((buf.foldl (fun v b ↦ 256 * v + b.toNat) v : ℕ) : ℤ) := by
  induction buf generalizing v with
  | nil => rfl
  | cons b buf ih =>
    have hlt := b.toNat_lt
    rw [bufToHex_cons, List.foldlM_cons, List.foldl_cons, hexVal_digitChar (by omega)]
    have hbyte : (16 * (16 * (v : ℤ) + ((b.toNat / 16 : ℕ) : ℤ)) + ((b.toNat % 16 : ℕ) : ℤ)) =
        ((256 * v + b.toNat : ℕ) : ℤ) := by omega
    rw [Option.map_some, Option.bind_eq_bind, Option.bind_some, List.foldlM_cons,
      hexVal_digitChar (by omega), Option.map_some, Option.bind_eq_bind, Option.bind_some, hbyte,
      ih]

/-- The text of a non-empty buffer always parses, to its big-endian value. -/
theorem bigIntFromHex_bufToHex {buf : Buffer} (h : buf ≠ []) :
    bigIntFromHex (bufToHex buf) = some (beValue buf : ℤ) := by
  simp only [bigIntFromHex, rdropWhile_bufToHex]
  rw [if_neg (bufToHex_ne_nil h)]
  exact foldlM_bufToHex buf 0

theorem bufToBig_eq_beValue (buf : Buffer) : bufToBig buf = beValue buf := by
  cases buf with
  | nil => rfl
  | cons b buf =>
    rw [bufToBig, if_pos (by simp), bigIntFromHex_bufToHex (List.cons_ne_nil _ _), Option.getD_some]

theorem bufToBig_nonneg (buf : Buffer) : 0 ≤ bufToBig buf := by
  rw [bufToBig_eq_beValue]
  exact Int.natCast_nonneg _

theorem foldl_lt_pow (buf : Buffer) (v : ℕ) :
    buf.foldl (fun v b ↦ 256 * v + b.toNat) v < (v + 1) * 256 ^ buf.length := by
  induction buf generalizing v with
  | nil => simp
  | cons b buf ih =>
    have hlt := b.toNat_lt
    calc buf.foldl (fun v b ↦ 256 * v + b.toNat) (256 * v + b.toNat)
        < (256 * v + b.toNat + 1) * 256 ^ buf.length := ih _
      _ ≤ (256 * (v + 1)) * 256 ^ buf.length := Nat.mul_le_mul_right _ (by omega)
      _ = (v + 1) * 256 ^ (buf.length + 1) := by ring

/-- A buffer of `n` bytes denotes a number below `256 ^ n`. -/
theorem bufToBig_lt (buf : Buffer) : bufToBig buf < 256 ^ buf.length := by
  rw [bufToBig_eq_beValue]
  have := foldl_lt_pow buf 0
  rw [zero_add, one_mul] at this
  exact_mod_cast this

/-! ### The minimal encoding -/

theorem bufToHex_append (a b : Buffer) : bufToHex (a ++ b) = bufToHex a ++ bufToHex b :=
  List.flatMap_append

/-- The bytes of a text that begins with the text of a buffer. -/
theorem bufferFromHex_bufToHex_append (buf : Buffer) (text : List Char) :
    bufferFromHex (bufToHex buf ++ text) = buf ++ bufferFromHex text := by
  induction buf with
  | nil => rfl
  | cons b buf ih =>
    have hlt := b.toNat_lt
    have hbyte : UInt8.ofNat (16 * (b.toNat / 16) + b.toNat % 16) = b := by
      rw [Nat.div_add_mod]
      exact UInt8.ofNat_toNat
    rw [bufToHex_cons, List.cons_append, List.cons_append, bufferFromHex,
      hexVal_digitChar (by omega), hexVal_digitChar (by omega)]
    simp only [hbyte, ih, List.cons_append]

theorem bufferFromHex_bufToHex (buf : Buffer) : bufferFromHex (bufToHex buf) = buf := by
  have h := bufferFromHex_bufToHex_append buf []
  rw [List.append_nil] at h
  exact h.trans (List.append_nil buf)

theorem bigToHex_of_nonneg {A : ℤ} (hA : 0 ≤ A) :
    bigToHex A =
      if (Nat.toDigits 16 A.natAbs).length % 2 ≠ 0 then '0' :: Nat.toDigits 16 A.natAbs
      else Nat.toDigits 16 A.natAbs := by
  have hhex : toHexString A = Nat.toDigits 16 A.natAbs := if_neg (by omega)
  rw [bigToHex, hhex]

theorem bigToHex_natCast (n : ℕ) :
    bigToHex n =
      if (Nat.toDigits 16 n).length % 2 ≠ 0 then '0' :: Nat.toDigits 16 n
      else Nat.toDigits 16 n :=
  bigToHex_of_nonneg (Int.natCast_nonneg n)

theorem toNat_ofNat_lt {n : ℕ} (hn : n < 256) : (UInt8.ofNat n).toNat = n := by
  rw [UInt8.toNat_ofNat', Nat.mod_eq_of_lt hn]

/-- A number of one byte. -/
theorem bigToHex_of_lt {n : ℕ} (hn : n < 256) : bigToHex n = bufToHex [UInt8.ofNat n] := by
  rw [bigToHex_natCast, bufToHex_cons, toNat_ofNat_lt hn]
  rcases Nat.lt_or_ge n 16 with hdigit | hdigit
  · rw [Nat.toDigits_of_lt_base hdigit, if_pos (by rw [List.length_singleton]; decide),
      Nat.div_eq_of_lt hdigit, Nat.mod_eq_of_lt hdigit]
    rfl
  · rw [Nat.toDigits_of_base_le (by omega) hdigit, Nat.toDigits_of_lt_base (by omega), if_neg]
    · rfl
    · rw [List.length_append, List.length_singleton, List.length_singleton]
      decide

/-- A number of more bytes: the digits of its last byte are the last two. -/
theorem bigToHex_of_le {n : ℕ} (hn : 256 ≤ n) :
    bigToHex n = bigToHex (n / 256 : ℕ) ++ bufToHex [UInt8.ofNat n] := by
  have hdigits : Nat.toDigits 16 n = Nat.toDigits 16 (n / 256) ++ bufToHex [UInt8.ofNat n] := by
    rw [Nat.toDigits_of_base_le (by omega) (by omega : 16 ≤ n),
      Nat.toDigits_of_base_le (by omega) (by omega : 16 ≤ n / 16), Nat.div_div_eq_div_mul,
      List.append_assoc, bufToHex_cons, UInt8.toNat_ofNat']
    have hhigh : n % 256 / 16 = n / 16 % 16 := by omega
    have hlow : n % 256 % 16 = n % 16 := by omega
    rw [show 2 ^ 8 = 256 from rfl, hhigh, hlow]
    rfl
  have hlength : (Nat.toDigits 16 n).length = (Nat.toDigits 16 (n / 256)).length + 2 := by
    rw [hdigits, List.length_append]
    rfl
  rw [bigToHex_natCast, bigToHex_natCast, hlength, Nat.add_mod_right, hdigits]
  split_ifs <;> rfl

theorem bigToBuf_of_lt {n : ℕ} (hn : n < 256) : bigToBuf n = [UInt8.ofNat n] := by
  rw [bigToBuf, bigToHex_of_lt hn, bufferFromHex_bufToHex]

/-- The text of a number is the one of its bytes. -/
theorem bufToHex_bigToBuf (n : ℕ) : bufToHex (bigToBuf n) = bigToHex n := by
  induction n using Nat.strongRecOn with
  | ind n ih =>
    rcases Nat.lt_or_ge n 256 with hn | hn
    · rw [bigToBuf_of_lt hn, bigToHex_of_lt hn]
    · rw [bigToBuf, bigToHex_of_le hn, ← ih (n / 256) (by omega), ← bufToHex_append,
        bufferFromHex_bufToHex]

theorem bigToBuf_of_le {n : ℕ} (hn : 256 ≤ n) :
    bigToBuf n = bigToBuf (n / 256 : ℕ) ++ [UInt8.ofNat n] := by
  rw [bigToBuf, bigToHex_of_le hn, ← bufToHex_bigToBuf, ← bufToHex_append, bufferFromHex_bufToHex]

theorem beValue_append_singleton (buf : Buffer) (b : UInt8) :
    beValue (buf ++ [b]) = 256 * beValue buf + b.toNat := by
  rw [beValue, List.foldl_append]
  rfl

/-- **Reading back the bytes of a number.** -/
theorem beValue_bigToBuf (n : ℕ) : beValue (bigToBuf n) = n := by
  induction n using Nat.strongRecOn with
  | ind n ih =>
    rcases Nat.lt_or_ge n 256 with hn | hn
    · rw [bigToBuf_of_lt hn]
      show 256 * 0 + (UInt8.ofNat n).toNat = n
      rw [toNat_ofNat_lt hn, Nat.mul_zero, Nat.zero_add]
    · rw [bigToBuf_of_le hn, beValue_append_singleton, ih (n / 256) (by omega), UInt8.toNat_ofNat']
      exact Nat.div_add_mod n 256

theorem bigToBuf_ne_nil (n : ℕ) : bigToBuf n ≠ [] := by
  rcases Nat.lt_or_ge n 256 with hn | hn
  · rw [bigToBuf_of_lt hn]
    exact List.cons_ne_nil _ _
  · rw [bigToBuf_of_le hn]
    exact List.append_ne_nil_of_right_ne_nil _ (List.cons_ne_nil _ _)

theorem head?_bigToBuf_ne {n : ℕ} (hn : n ≠ 0) : (bigToBuf n).head? ≠ some 0 := by
  induction n using Nat.strongRecOn with
  | ind n ih =>
    rcases Nat.lt_or_ge n 256 with hlt | hle
    · rw [bigToBuf_of_lt hlt]
      intro hzero
      have hzero' := congrArg UInt8.toNat (Option.some.inj hzero)
      rw [toNat_ofNat_lt hlt] at hzero'
      exact hn hzero'
    · rw [bigToBuf_of_le hle, List.head?_append_of_ne_nil _ (bigToBuf_ne_nil _)]
      exact ih (n / 256) (by omega) (by omega)

/-- **Writing back a buffer** without leading zeros. -/
theorem bigToBuf_beValue {buf : Buffer} (hne : buf ≠ []) (hhead : buf.head? ≠ some 0) :
    bigToBuf (beValue buf) = buf ∧ 0 < beValue buf := by
  induction buf using List.reverseRecOn with
  | nil => exact absurd rfl hne
  | append_singleton buf b ih =>
    have hlt := b.toNat_lt
    rw [beValue_append_singleton]
    rcases eq_or_ne buf [] with rfl | hbuf
    · have hb : b.toNat ≠ 0 := fun hzero ↦ hhead (congrArg some (UInt8.toNat_inj.1 hzero))
      show bigToBuf ((256 * 0 + b.toNat : ℕ) : ℤ) = [b] ∧ 0 < 256 * 0 + b.toNat
      rw [bigToBuf_of_lt (by omega), Nat.mul_zero, Nat.zero_add, UInt8.ofNat_toNat]
      exact ⟨rfl, Nat.pos_of_ne_zero hb⟩
    · rw [List.head?_append_of_ne_nil _ hbuf] at hhead
      obtain ⟨hbytes, hpos⟩ := ih hbuf hhead
      have hdiv : (256 * beValue buf + b.toNat) / 256 = beValue buf := by omega
      have hlast : UInt8.ofNat (256 * beValue buf + b.toNat) = b := by
        refine UInt8.toNat_inj.1 ?_
        rw [UInt8.toNat_ofNat']
        omega
      rw [bigToBuf_of_le (by omega), hdiv, hbytes, hlast]
      exact ⟨rfl, by omega⟩

/-- Leading zeros do not change the value. -/
theorem beValue_dropWhile (buf : Buffer) : beValue (buf.dropWhile (· == 0)) = beValue buf := by
  induction buf with
  | nil => rfl
  | cons b buf ih =>
    rw [List.dropWhile_cons]
    split_ifs with hb
    · rw [ih, eq_of_beq hb]
      rfl
    · rfl

/-- **The codec is the minimal big-endian one**: what is written is read back and has no leading
zero, apart from the single byte of zero, so that no two numbers are written alike; and what is
read is written back without its leading zeros. -/
theorem bigToBuf_minimal (x y : ℕ) (buf : Buffer) :
    (bufToBig (bigToBuf x) = x ∧ bigToBuf 0 = [0] ∧ (x ≠ 0 → (bigToBuf x).head? ≠ some 0)) ∧
      (bigToBuf x = bigToBuf y ↔ x = y) ∧
        bigToBuf (bufToBig buf) =
          if buf.dropWhile (· == 0) = [] then [0] else buf.dropWhile (· == 0) := by
  have hzero : bigToBuf 0 = [0] := bigToBuf_of_lt (n := 0) (by omega)
  refine ⟨⟨?_, hzero, head?_bigToBuf_ne⟩, ⟨fun h ↦ ?_, fun h ↦ h ▸ rfl⟩, ?_⟩
  · rw [bufToBig_eq_beValue, beValue_bigToBuf]
  · rw [← beValue_bigToBuf x, h, beValue_bigToBuf]
  · rw [bufToBig_eq_beValue, ← beValue_dropWhile]
    split_ifs with hzeros
    · rw [hzeros]
      exact hzero
    · refine (bigToBuf_beValue hzeros fun hfirst ↦ ?_).1
      have hhead := List.head?_dropWhile_not (· == 0) buf
      rw [hfirst] at hhead
      cases hhead

end FirebirdSamples
