import FirebirdSamples.Library.Fallible
import Mathlib.Data.List.TakeWhile
import Mathlib.Data.Nat.Notation
import Mathlib.Logic.Basic

/-!
# Memory

**Memory** is a partial function on addresses, and reading where it is undefined is a fault. A
theorem about all memories that hold a string at an address (`Holds`) therefore says that nothing
outside the string is read, whatever stands there. The memory of a byte string holds nothing else
(`memory`, `holds_memory_iff`).
-/

namespace FirebirdSamples.Blr

open Fallible

/-! ### Reading -/

/-- The bytes that may be read. -/
abbrev Memory : Type :=
  ℕ → Option UInt8

/-- Why a decoder does not return. -/
inductive Fault where
  /-- A read outside the memory. -/
  | outside (address : ℕ)
  /-- The bound on nested calls is used up. The samples have no such bound. -/
  | outOfFuel
  deriving DecidableEq

/-- The bytes of a string at the addresses from zero on. -/
def memory (b : List UInt8) : Memory :=
  fun i ↦ b[i]?

/-- Read one byte. -/
def readAt (m : Memory) (p : ℕ) : Except Fault UInt8 :=
  match m p with
  | some x => .ok x
  | none => .error (.outside p)

/-- `p[0] | (p[1] << 8)`. -/
def u16 (m : Memory) (p : ℕ) : Except Fault ℕ := do
  let lo ← readAt m p
  let hi ← readAt m (p + 1)
  pure (lo.toNat ||| hi.toNat <<< 8)

/-- The `n` bytes at `p`. -/
def readBytes (m : Memory) : ℕ → ℕ → Except Fault (List UInt8)
  | _, 0 => pure []
  | p, n + 1 => do
    let x ← readAt m p
    let s ← readBytes m (p + 1) n
    pure (x :: s)

/-- What `printf` shows for `%.*s`: at most `n` bytes at `p`, up to the first NUL. -/
def printString (m : Memory) : ℕ → ℕ → Except Fault (List UInt8)
  | _, 0 => pure []
  | p, n + 1 => do
    let x ← readAt m p
    if x = 0 then
      pure []
    else
      let s ← printString m (p + 1) n
      pure (x :: s)

/-- A slice of `n` bytes at `p`, with a check that it ends within the limit. -/
def slice (m : Memory) (limit p n : ℕ) : Except Fault (List UInt8) :=
  if p + n ≤ limit then readBytes m p n else .error (.outside (p + n))

/-- The two bytes of a 16-bit number, least significant first. -/
def le16 (n : ℕ) : List UInt8 :=
  [UInt8.ofNat n, UInt8.ofNat (n / 256)]

/-- A string as C sees it: up to the first NUL. -/
def cString (s : List UInt8) : List UInt8 :=
  s.takeWhile (· ≠ 0)

theorem cString_eq_self {s : List UInt8} (h : 0 ∉ s) : cString s = s := by
  refine List.takeWhile_eq_self_iff.2 fun x hx ↦ ?_
  exact decide_eq_true fun h0 : x = 0 ↦ h (h0 ▸ hx)

/-- A length that fits in a byte. -/
theorem toNat_ofNat_length {s : List UInt8} (h : s.length ≤ 255) :
    (UInt8.ofNat s.length).toNat = s.length := by
  rw [UInt8.toNat_ofNat']
  exact Nat.mod_eq_of_lt (Nat.lt_succ_of_le h)

/-! ### Memories that hold a string -/

/-- The memory holds the string at `p`. -/
def Holds (m : Memory) : ℕ → List UInt8 → Prop
  | _, [] => True
  | p, x :: s => m p = some x ∧ Holds m (p + 1) s

theorem holds_append {m : Memory} {p : ℕ} {s s' : List UInt8} :
    Holds m p (s ++ s') ↔ Holds m p s ∧ Holds m (p + s.length) s' := by
  induction s generalizing p with
  | nil => simp [Holds]
  | cons x s ih =>
    rw [List.cons_append, Holds, Holds, ih, List.length_cons, and_assoc,
      show p + 1 + s.length = p + (s.length + 1) by omega]

theorem readAt_eq_ok {m : Memory} {p : ℕ} {x : UInt8} : readAt m p = .ok x ↔ m p = some x := by
  unfold readAt
  split
  · next y h => rw [h, Except.ok.injEq, Option.some.injEq]
  · next h => rw [h]; simp

/-- A 16-bit number is read back. -/
theorem u16_of_holds {m : Memory} {p n : ℕ} (hn : n ≤ 65535) (h : Holds m p (le16 n)) :
    u16 m p = .ok n := by
  obtain ⟨hlo, hhi, -⟩ := h
  rw [u16, readAt_eq_ok.2 hlo, ok_bind, readAt_eq_ok.2 hhi, ok_bind]
  have hor : (UInt8.ofNat n).toNat ||| (UInt8.ofNat (n / 256)).toNat <<< 8 = n := by
    rw [UInt8.toNat_ofNat', UInt8.toNat_ofNat', Nat.mod_eq_of_lt (by omega : n / 256 < 2 ^ 8),
      Nat.or_comm, ← Nat.shiftLeft_add_eq_or_of_lt (Nat.mod_lt _ (by decide)), Nat.shiftLeft_eq]
    omega
  rw [hor]
  rfl

theorem readBytes_of_holds {m : Memory} {p : ℕ} {s : List UInt8} (h : Holds m p s) :
    readBytes m p s.length = .ok s := by
  induction s generalizing p with
  | nil => rfl
  | cons x s ih =>
    rw [List.length_cons, readBytes, readAt_eq_ok.2 h.1, ok_bind, ih h.2]
    rfl

theorem printString_of_holds {m : Memory} {p : ℕ} {s : List UInt8} (h : Holds m p s) :
    printString m p s.length = .ok (cString s) := by
  induction s generalizing p with
  | nil => rfl
  | cons x s ih =>
    rw [List.length_cons, printString, readAt_eq_ok.2 h.1, ok_bind, cString, List.takeWhile_cons]
    by_cases hx : x = 0
    · rw [if_pos hx, if_neg (by simp [hx])]
      rfl
    · rw [if_neg hx, if_pos (by simp [hx]), ih h.2]
      rfl

/-! ### The memory of a string -/

theorem drop_of_memory {b : List UInt8} {p : ℕ} {x : UInt8} (h : memory b p = some x) :
    p < b.length ∧ b.drop p = x :: b.drop (p + 1) := by
  obtain ⟨hp, hx⟩ := List.getElem?_eq_some_iff.1 h
  exact ⟨hp, by rw [List.drop_eq_getElem_cons hp, hx]⟩

theorem memory_of_drop {b : List UInt8} {p : ℕ} {x : UInt8} {s : List UInt8}
    (h : b.drop p = x :: s) : memory b p = some x ∧ b.drop (p + 1) = s := by
  have hx : (b.drop p)[0]? = some x := by rw [h]; rfl
  rw [List.getElem?_drop] at hx
  refine ⟨hx, ?_⟩
  rw [← List.drop_drop, h]
  rfl

/-- A string holds what its suffixes start with. -/
theorem holds_memory_of_isPrefix {b : List UInt8} {p : ℕ} {s : List UInt8} (h : s <+: b.drop p) :
    Holds (memory b) p s := by
  obtain ⟨t, ht⟩ := h
  induction s generalizing p with
  | nil => trivial
  | cons x s ih =>
    obtain ⟨hx, hdrop⟩ := memory_of_drop ht.symm
    exact ⟨hx, ih hdrop.symm⟩

theorem holds_memory_iff {b : List UInt8} {p : ℕ} {s : List UInt8} :
    Holds (memory b) p s ↔ s <+: b.drop p := by
  refine ⟨fun h ↦ ?_, holds_memory_of_isPrefix⟩
  induction s generalizing p with
  | nil => exact List.nil_prefix
  | cons x s ih =>
    rw [(drop_of_memory h.1).2]
    exact List.cons_prefix_cons.2 ⟨rfl, ih h.2⟩

theorem drop_of_holds {b : List UInt8} {p : ℕ} {s : List UInt8} (h : Holds (memory b) p s) :
    b.drop p = s ++ b.drop (p + s.length) := by
  obtain ⟨t, ht⟩ := holds_memory_iff.1 h
  rw [← List.drop_drop, ← ht, List.drop_left]

theorem length_le_of_holds {b : List UInt8} {p : ℕ} {x : UInt8} {s : List UInt8}
    (h : Holds (memory b) p (x :: s)) : p + 1 + s.length ≤ b.length := by
  induction s generalizing p x with
  | nil => exact (drop_of_memory h.1).1
  | cons y s ih =>
    have := ih h.2
    rw [List.length_cons]
    omega

/-- Spare bytes behind a string do not change what it holds. -/
theorem holds_append_memory {b : List UInt8} (spare : List UInt8) {p : ℕ} {s : List UInt8}
    (h : Holds (memory b) p s) : Holds (memory (b ++ spare)) p s := by
  induction s generalizing p with
  | nil => trivial
  | cons x s ih =>
    refine ⟨?_, ih h.2⟩
    show (b ++ spare)[p]? = some x
    rw [List.getElem?_append_left (drop_of_memory h.1).1]
    exact h.1

/-! ### What a read has found -/

theorem u16_eq_ok {m : Memory} {p n : ℕ} (h : u16 m p = .ok n) :
    ∃ lo hi, m p = some lo ∧ m (p + 1) = some hi ∧ n ≤ 65535 ∧ le16 n = [lo, hi] := by
  obtain ⟨lo, hlo, h⟩ := bind_eq_ok.1 h
  obtain ⟨hi, hhi, h⟩ := bind_eq_ok.1 h
  obtain rfl : lo.toNat ||| hi.toNat <<< 8 = n := Except.ok.inj h
  have hor : lo.toNat ||| hi.toNat <<< 8 = hi.toNat * 256 + lo.toNat := by
    rw [Nat.or_comm, ← Nat.shiftLeft_add_eq_or_of_lt lo.toNat_lt, Nat.shiftLeft_eq]
  have hlt := lo.toNat_lt
  have hlt' := hi.toNat_lt
  refine ⟨lo, hi, readAt_eq_ok.1 hlo, readAt_eq_ok.1 hhi, by omega, ?_⟩
  rw [hor, le16, show (hi.toNat * 256 + lo.toNat) / 256 = hi.toNat by omega, UInt8.ofNat_toNat]
  congr 1
  rw [← UInt8.toNat_inj, UInt8.toNat_ofNat']
  omega

/-- A 16-bit number that can be read stands in the memory. -/
theorem exists_uint16_of_u16 {m : Memory} {p n : ℕ} (h : u16 m p = .ok n) :
    ∃ x : UInt16, n = x.toNat ∧ Holds m p (le16 x.toNat) := by
  obtain ⟨lo, hi, hlo, hhi, hn, hle⟩ := u16_eq_ok h
  have htoNat : (UInt16.ofNat n).toNat = n := by
    rw [UInt16.toNat_ofNat']
    exact Nat.mod_eq_of_lt (by omega)
  exact ⟨UInt16.ofNat n, htoNat.symm, by rw [htoNat, hle]; exact ⟨hlo, hhi, trivial⟩⟩

theorem readAt_cases (m : Memory) (p : ℕ) :
    (∃ x, readAt m p = .ok x) ∨ ∃ q, readAt m p = .error (.outside q) := by
  rw [readAt]
  split
  · exact Or.inl ⟨_, rfl⟩
  · exact Or.inr ⟨_, rfl⟩

theorem u16_cases (m : Memory) (p : ℕ) :
    (∃ n, u16 m p = .ok n) ∨ ∃ q, u16 m p = .error (.outside q) := by
  rw [u16]
  rcases readAt_cases m p with ⟨lo, hlo⟩ | ⟨q, hlo⟩
  · rcases readAt_cases m (p + 1) with ⟨hi, hhi⟩ | ⟨q, hhi⟩
    · exact Or.inl ⟨_, by rw [hlo, hhi]; rfl⟩
    · exact Or.inr ⟨q, by rw [hlo, hhi]; rfl⟩
  · exact Or.inr ⟨q, by rw [hlo]; rfl⟩

end FirebirdSamples.Blr
