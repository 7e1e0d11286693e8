import FirebirdSamples.Library.StreamCipher
import FirebirdSamples.Srp.BigInt
import Mathlib

/-!
# The Arc4 cipher

The class `Arc4` of `samples/nodejs/srp-handshake.js`: the key schedule in the constructor and the
`transform` of one buffer. The table and the two indices are numbers masked with `0xff`, as in the
script. `transform` walks the buffer once and never looks back at what it enciphered, so it is the
keystream cipher of the library over the step `Arc4.next`.

The table is a permutation of the bytes at every time (`Valid`): the key schedule and every step
only swap two of its entries. Both ends of the connection call `transform` on the pieces in which
they happen to have the stream (`transformAll`), and cut it at different places. The two ciphers
agree whenever they have gone through the same number of bytes, and the one undoes what the other
does (`transformAll_init`).
-/

namespace FirebirdSamples.Wire

/-- The state of the cipher: a table of 256 entries and two indices. -/
structure Arc4 where
  /-- The table. -/
  s : Vector ℕ 256
  /-- The running index. -/
  i : ℕ
  /-- The index driven by the table. -/
  j : ℕ

namespace Arc4

/-- The table has an entry 0. -/
instance neZero_256 : NeZero 256 :=
  ⟨by decide⟩

theorem val_lt (k : Fin 256) : k.val < 256 :=
  k.isLt

theorem and_0xff_lt (x : ℕ) : x &&& 0xff < 256 :=
  Nat.lt_succ_of_le Nat.and_le_right

/-- A number masked with `0xff`, as an index of the table. -/
def index (x : ℕ) : Fin 256 :=
  ⟨x &&& 0xff, and_0xff_lt x⟩

/-- One step of the key schedule: the table and the index `k2`. Indexing an empty key gives
`undefined`, and masking the resulting `NaN` gives `0`. -/
def scheduleStep (key : Buffer) (t : Vector ℕ 256 × Fin 256) (k1 : Fin 256) :
    Vector ℕ 256 × Fin 256 :=
  let k2 : Fin 256 := match key[k1.val % key.length]? with
    | some b => index (t.2 + b.toNat + t.1.get k1)
    | none => 0
  (t.1.swap k1 k2 (val_lt k1) (val_lt k2), k2)

/-- The constructor: the identity table, permuted by the key. -/
def init (key : Buffer) : Arc4 where
  s := ((List.finRange 256).foldl (scheduleStep key) (Vector.ofFn fun i ↦ i.val, 0)).1
  i := 0
  j := 0

/-- One step of the generator: the key number and the state after it. -/
def next (c : Arc4) : ℕ × Arc4 :=
  let i := index (c.i + 1)
  let j := index (c.j + c.s.get i)
  let s := c.s.swap i j
  (s.get (index (s.get i + s.get j)), { s, i, j })

/-- One output byte: the exclusive or, stored into a byte. -/
def mixByte (b : UInt8) (k : ℕ) : UInt8 :=
  b ^^^ UInt8.ofNat k

/-- Encipher or decipher a buffer; returns the output and the state after it. -/
def transform (c : Arc4) (buf : Buffer) : Buffer × Arc4 :=
  StreamCipher.transform next mixByte c buf

theorem mixByte_mixByte (b : UInt8) (k : ℕ) : mixByte (mixByte b k) k = b := by
  rw [mixByte, mixByte, UInt8.xor_assoc, UInt8.xor_self, UInt8.xor_zero]

@[simp] theorem transform_nil (c : Arc4) : c.transform [] = ([], c) := rfl

@[simp] theorem length_transform (c : Arc4) (buf : Buffer) :
    (c.transform buf).1.length = buf.length :=
  StreamCipher.length_transform ..

theorem transform_append (c : Arc4) (buf buf' : Buffer) :
    c.transform (buf ++ buf') =
      ((c.transform buf).1 ++ ((c.transform buf).2.transform buf').1,
        ((c.transform buf).2.transform buf').2) :=
  StreamCipher.transform_append ..

/-- A cipher in the same state deciphers what another one enciphered, and follows its state. -/
theorem transform_transform (c : Arc4) (buf : Buffer) :
    c.transform (c.transform buf).1 = (buf, (c.transform buf).2) :=
  StreamCipher.transform_transform next mixByte mixByte_mixByte c buf

/-! ### The table -/

/-- **A valid state**: the table is a permutation of the bytes, and the indices point into it. -/
structure Valid (c : Arc4) : Prop where
  /-- The table has every byte once. -/
  perm : c.s.toList.Perm (List.range 256)
  /-- The running index is a byte. -/
  i_lt : c.i < 256
  /-- The other index is a byte. -/
  j_lt : c.j < 256

theorem toList_swap_perm (t : Vector ℕ 256) (i j : Fin 256) :
    (t.swap i j (val_lt i) (val_lt j)).toList.Perm t.toList :=
  Array.perm_iff_toList_perm.1 (Vector.swap_perm i.isLt j.isLt).toArray

theorem perm_scheduleStep (key : Buffer) (t : Vector ℕ 256 × Fin 256) (k1 : Fin 256) :
    (scheduleStep key t k1).1.toList.Perm t.1.toList :=
  toList_swap_perm t.1 k1 _

/-- The key schedule permutes the table. -/
theorem perm_foldl_scheduleStep (key : Buffer) (ks : List (Fin 256)) (t : Vector ℕ 256 × Fin 256) :
    (ks.foldl (scheduleStep key) t).1.toList.Perm t.1.toList := by
  induction ks generalizing t with
  | nil => exact List.Perm.refl _
  | cons k ks ih => exact (ih _).trans (perm_scheduleStep key t k)

theorem valid_init (key : Buffer) : (init key).Valid where
  perm := by
    have hstart : (Vector.ofFn fun i : Fin 256 ↦ i.val).toList = List.range 256 := by
      rw [Vector.toList_ofFn, List.ofFn_eq_map, List.map_coe_finRange_eq_range]
    rw [← hstart]
    exact perm_foldl_scheduleStep key _ _
  i_lt := Nat.zero_lt_succ 255
  j_lt := Nat.zero_lt_succ 255

/-- A step keeps a state valid. -/
theorem Valid.next {c : Arc4} (h : c.Valid) : c.next.2.Valid where
  perm := (toList_swap_perm c.s _ _).trans h.perm
  i_lt := and_0xff_lt _
  j_lt := and_0xff_lt _

/-! ### Calls -/

/-- The calls of `transform` on pieces of a stream, in order. -/
def transformAll (c : Arc4) (pieces : List Buffer) : List Buffer × Arc4 :=
  StreamCipher.transformAll next mixByte c pieces

/-- **The cipher pair.** Whatever pieces are enciphered under a key, and in whatever pieces the
result is deciphered under it, the plaintext comes out. The states of both are valid after every
call, and the same after the same number of bytes. -/
theorem transformAll_init (key : Buffer) (cs ds : List Buffer)
    (h : ds.flatten = ((init key).transformAll cs).1.flatten) :
    ((init key).transformAll ds).1.flatten = cs.flatten ∧
      (∀ calls, calls <+: cs ∨ calls <+: ds → ((init key).transformAll calls).2.Valid) ∧
      ∀ calls calls', calls <+: cs → calls' <+: ds →
        calls.flatten.length = calls'.flatten.length →
          ((init key).transformAll calls).2 = ((init key).transformAll calls').2 := by
  refine ⟨?_, fun calls _ ↦ ?_, fun calls calls' _ _ hlen ↦ ?_⟩
  · have henc := (StreamCipher.transformAll_eq next mixByte (init key) cs).1
    have hdec := (StreamCipher.transformAll_eq next mixByte (init key) ds).1
    rw [transformAll, hdec, h, transformAll, henc]
    exact congrArg Prod.fst ((init key).transform_transform cs.flatten)
  · exact StreamCipher.invariant_transformAll next mixByte (fun _ h ↦ h.next) (valid_init key) calls
  · rw [transformAll, transformAll, (StreamCipher.transformAll_eq ..).2,
      (StreamCipher.transformAll_eq ..).2, StreamCipher.transform_state,
      StreamCipher.transform_state, hlen]

/-- Two pieces and a key of two bytes, deciphered in one piece. -/
theorem transformAll_init_twoPieces :
    ((init [1, 2]).transformAll
        [((init [1, 2]).transformAll [[72, 105], [33]]).1.flatten]).1.flatten = [72, 105, 33] :=
  (transformAll_init [1, 2] [[72, 105], [33]] _ (List.flatten_singleton ..)).1

end Arc4

end FirebirdSamples.Wire
