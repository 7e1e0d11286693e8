import FirebirdSamples.Blr.Memory
import FirebirdSamples.Library.Loop
import FirebirdSamples.Library.TagLengthValue

/-!
# Replies to blob information requests

The function `infoValue` of `samples/cpp/blobs.cpp` and `Blobs.java` looks for an item in a reply: a
sequence of entries, each a tag, a length of two bytes and a value, up to `isc_info_end`. The two
differ in the tag, which is a signed byte in Java.

**What it returns.** At most four bytes of the value are read, so that it is the value modulo
2 ^ 32, and -1 if there is no entry with the tag (`infoValue_eq`). The Java version does the same
for items below 128; no signed byte is equal to a larger one (`not_infoValue_eq_value`).
-/

namespace FirebirdSamples.Info

open Blr Fallible LittleEndian TagLengthValue

/-! ### The sample -/

/-- `isc_info_end`. -/
def iscInfoEnd : UInt8 := 1

/-- The loop over the first `n` bytes of a value. -/
def valueAt (m : Memory) (p n : ℕ) : Except Fault ℕ :=
  (List.range n).foldlM (fun v i ↦ do
    let x ← readAt m (p + i)
    pure (v ||| x.toNat <<< (8 * i))) 0

/-- The body of the loop over a reply, at offset `p`. The parameter compares a tag with the item. -/
def infoBody (isItem : UInt8 → Bool) (buf : List UInt8) (p : ℕ) : Except Fault (ℕ ⊕ ℤ) :=
  if p < buf.length then do
    let it ← readAt (memory buf) p
    if it = iscInfoEnd then
      pure (.inr (-1))
    else
      let clen ← u16 (memory buf) (p + 1)
      if isItem it then
        let v ← valueAt (memory buf) (p + 3) (min clen 4)
        pure (.inr v)
      else
        pure (.inl (p + 3 + clen))
  else
    pure (.inr (-1))

/-- `infoValue` of the C++ sample. -/
def Cpp.infoValue (buf : List UInt8) (item : UInt8) (rounds : ℕ) : Option (Except Fault ℤ) :=
  Loop.run (infoBody (· == item) buf) rounds 0

/-- `infoValue` of the Java sample. -/
def Java.infoValue (buf : List UInt8) (item : ℤ) (rounds : ℕ) : Option (Except Fault ℤ) :=
  Loop.run (infoBody (fun it ↦ signed [it] == item) buf) rounds 0

/-- A reply: entries, the end mark, and what is left of the buffer. -/
def reply (es : List Entry) (padding : List UInt8) : List UInt8 :=
  es.flatMap (·.encode 2) ++ iscInfoEnd :: padding

/-! ### Values -/

theorem shiftLeft_or_eq {v : ℕ} {x : UInt8} {n : ℕ} (hv : v < 256 ^ n) :
    v ||| x.toNat <<< (8 * n) = v + 256 ^ n * x.toNat := by
  have hpow : 256 ^ n = 2 ^ (8 * n) := by rw [Nat.pow_mul]
  rw [hpow] at hv ⊢
  rw [Nat.or_comm, ← Nat.shiftLeft_add_eq_or_of_lt hv, Nat.shiftLeft_eq, Nat.add_comm,
    Nat.mul_comm]

/-- The bytes of a value, put together. -/
theorem valueAt_of_holds {m : Memory} {p n : ℕ} {s : List UInt8} (h : Holds m p s)
    (hn : n ≤ s.length) : valueAt m p n = .ok (value (s.take n)) := by
  induction n with
  | zero => rfl
  | succ n ih =>
    have hbyte : m (p + n) = some s[n] := by
      rw [← List.take_append_drop n s, List.drop_eq_getElem_cons hn] at h
      have hn' := (holds_append.1 h).2
      rw [List.length_take_of_le (Nat.le_of_succ_le hn)] at hn'
      exact hn'.1
    have hlt := value_lt (s.take n)
    rw [List.length_take_of_le (Nat.le_of_succ_le hn)] at hlt
    rw [valueAt, List.range_succ, List.foldlM_append]
    show (valueAt m p n >>= _) = _
    rw [ih (Nat.le_of_succ_le hn), ok_bind, List.foldlM_cons, readAt_eq_ok.2 hbyte, ok_bind,
      shiftLeft_or_eq hlt, List.take_succ_eq_append_getElem hn, value_append,
      List.length_take_of_le (Nat.le_of_succ_le hn), value_singleton]
    rfl

/-- The first four bytes at most of a value. -/
theorem valueAt_min {m : Memory} {p : ℕ} {s : List UInt8} (h : Holds m p s) :
    valueAt m p (min s.length 4) = .ok (value s % 4294967296) := by
  show _ = Except.ok (value s % 256 ^ 4)
  rw [valueAt_of_holds h (Nat.min_le_left _ _), Nat.min_comm, ← List.take_take, List.take_length,
    value_take]

/-! ### Going through a reply -/

section Body

variable {isItem : UInt8 → Bool} {buf : List UInt8} {p : ℕ} {e : Entry}

/-- What a round makes of a tag other than the end mark. -/
theorem infoBody_of_tag {tag : UInt8} (h : memory buf p = some tag) (htag : tag ≠ iscInfoEnd) :
    infoBody isItem buf p = (do
      let clen ← u16 (memory buf) (p + 1)
      if isItem tag then
        let v ← valueAt (memory buf) (p + 3) (min clen 4)
        pure (.inr v)
      else
        pure (.inl (p + 3 + clen))) := by
  rw [infoBody, if_pos (drop_of_memory h).1, readAt_eq_ok.2 h, ok_bind, if_neg htag]

/-- The end mark. -/
theorem infoBody_of_end (h : memory buf p = some iscInfoEnd) :
    infoBody isItem buf p = .ok (.inr (-1)) := by
  rw [infoBody, if_pos (drop_of_memory h).1, readAt_eq_ok.2 h, ok_bind, if_pos rfl]
  rfl

/-- What a round makes of a whole entry. -/
theorem infoBody_of_holds (h : Holds (memory buf) p (e.encode 2)) (he : e.Fits 2)
    (htag : e.tag ≠ iscInfoEnd) :
    infoBody isItem buf p =
      if isItem e.tag then .ok (.inr ↑(value e.payload % 4294967296))
      else .ok (.inl (p + (e.encode 2).length)) := by
  obtain ⟨hit, hrest⟩ := h
  obtain ⟨hclen, hpayload⟩ := holds_append.1 hrest
  rw [length_bytes] at hpayload
  rw [infoBody_of_tag hit htag, u16_of_holds (Nat.le_of_lt_succ he) hclen, ok_bind,
    show valueAt (memory buf) (p + 3) (min e.payload.length 4) =
      .ok (value e.payload % 4294967296) from valueAt_min hpayload, Entry.length_encode,
    show p + (1 + 2 + e.payload.length) = p + 3 + e.payload.length by omega]
  split_ifs <;> rfl

/-- Entries with other tags are skipped. -/
theorem reaches_of_holds {es : List Entry} (h : Holds (memory buf) p (es.flatMap (·.encode 2)))
    (hes : ∀ e ∈ es, e.Fits 2 ∧ e.tag ≠ iscInfoEnd ∧ isItem e.tag = false) :
    Loop.Reaches (infoBody isItem buf) p (p + (es.flatMap (·.encode 2)).length) := by
  induction es generalizing p with
  | nil => exact .refl
  | cons e es ih =>
    rw [List.flatMap_cons] at h ⊢
    obtain ⟨hentry, hrest⟩ := holds_append.1 h
    obtain ⟨⟨he, htag, hitem⟩, hes'⟩ := List.forall_mem_cons.1 hes
    have hnext : Loop.Next (infoBody isItem buf) p (p + (e.encode 2).length) :=
      (infoBody_of_holds hentry he htag).trans (if_neg (by simp [hitem]))
    rw [List.length_append, ← Nat.add_assoc]
    exact (ih hrest hes').head hnext

end Body

/-- **What the loop returns for a reply**: the value of the first entry with the tag, as far as four
bytes go, and -1 if there is none. -/
theorem run_infoBody_reply (isItem : UInt8 → Bool) {es : List Entry} (padding : List UInt8)
    (hes : ∀ e ∈ es, e.Fits 2 ∧ e.tag ≠ iscInfoEnd) :
    ∃ n, Loop.run (infoBody isItem (reply es padding)) n 0 =
      some (.ok ((es.find? fun e ↦ isItem e.tag).elim (-1)
        fun e ↦ ↑(value e.payload % 4294967296))) := by
  rcases hfind : es.find? fun e ↦ isItem e.tag with _ | e
  · have hskip : ∀ e ∈ es, e.Fits 2 ∧ e.tag ≠ iscInfoEnd ∧ isItem e.tag = false := fun e he ↦
      ⟨(hes e he).1, (hes e he).2, by simpa using List.find?_eq_none.1 hfind e he⟩
    have hholds : Holds (memory (reply es padding)) 0
        (es.flatMap (·.encode 2) ++ [iscInfoEnd]) := by
      refine holds_memory_of_isPrefix ⟨padding, ?_⟩
      rw [List.append_assoc]
      rfl
    obtain ⟨hentries, hend, -⟩ := holds_append.1 hholds
    rw [hfind]
    exact Loop.exists_run_of_reaches (reaches_of_holds hentries hskip) (infoBody_of_end hend)
  · obtain ⟨hitem, skipped, rest, rfl, hother⟩ := List.find?_eq_some_iff_append.1 hfind
    have hskip : ∀ e ∈ skipped, e.Fits 2 ∧ e.tag ≠ iscInfoEnd ∧ isItem e.tag = false := fun e he ↦
      have he' := hes e (List.mem_append_left _ he)
      ⟨he'.1, he'.2, by simpa using hother e he⟩
    have he := hes e (List.mem_append_right _ (List.mem_cons_self ..))
    have hholds : Holds (memory (reply (skipped ++ e :: rest) padding)) 0
        (skipped.flatMap (·.encode 2) ++ e.encode 2) := by
      refine holds_memory_of_isPrefix ⟨rest.flatMap (·.encode 2) ++ iscInfoEnd :: padding, ?_⟩
      rw [reply, List.flatMap_append, List.flatMap_cons, List.drop_zero]
      simp only [List.append_assoc]
    obtain ⟨hentries, hentry⟩ := holds_append.1 hholds
    rw [hfind]
    exact Loop.exists_run_of_reaches (reaches_of_holds hentries hskip)
      ((infoBody_of_holds hentry he.1 he.2).trans (if_pos hitem))

/-! ### The two versions -/

/-- A signed tag is found as an unsigned one is, below 128. -/
theorem signed_eq_iff {it item : UInt8} (hitem : item.toNat < 128) :
    signed [it] = item.toNat ↔ it = item := by
  constructor
  · intro h
    have hemod : signed [it] % 256 = it.toNat := signed_emod [it]
    rw [h] at hemod
    exact UInt8.toNat_inj.1 (by omega)
  · rintro rfl
    exact signed_eq_value_iff.2 (show 2 * it.toNat < 256 by omega)

/-- **What `infoValue` returns** for a reply and an item: -1 if no entry has the tag, and otherwise
the value of the first one that has it, modulo 2 ^ 32. The Java version returns the same for the
items below 128. -/
theorem infoValue_eq (es : List Entry) (padding : List UInt8) (item : UInt8)
    (hes : ∀ e ∈ es, e.Fits 2 ∧ e.tag ≠ iscInfoEnd) :
    ∃ v : ℤ, (∃ n, Cpp.infoValue (reply es padding) item n = some (.ok v)) ∧
      (item.toNat < 128 → ∃ n, Java.infoValue (reply es padding) item.toNat n = some (.ok v)) ∧
      (v = -1 ↔ ∀ e ∈ es, e.tag ≠ item) ∧
      ∀ e, es.find? (·.tag == item) = some e → v = ↑(value e.payload % 4294967296) := by
  refine ⟨_, run_infoBody_reply (· == item) padding hes, fun hitem ↦ ?_, ?_, fun e he ↦ ?_⟩
  · have hsame : (fun it ↦ signed [it] == (item.toNat : ℤ)) = (· == item) := by
      funext it
      rw [Bool.eq_iff_iff, beq_iff_eq, beq_iff_eq, signed_eq_iff hitem]
    show ∃ n, Loop.run (infoBody (fun it ↦ signed [it] == (item.toNat : ℤ)) _) n 0 = _
    rw [hsame]
    exact run_infoBody_reply (· == item) padding hes
  · rcases hfind : es.find? (·.tag == item) with _ | e
    · rw [hfind]
      exact iff_of_true rfl fun e he ↦ by simpa using List.find?_eq_none.1 hfind e he
    · have hmem := List.mem_of_find?_eq_some hfind
      have htag : e.tag = item := by simpa using List.find?_some hfind
      rw [hfind]
      exact iff_of_false (show ((value e.payload % 4294967296 : ℕ) : ℤ) ≠ -1 by omega)
        fun h ↦ h e hmem htag
  · rw [he]
    rfl

/-- Three items of a reply, and one that is not there. -/
theorem infoValue_eq_of_reply :
    ∃ v : ℤ, (∃ n, Cpp.infoValue (reply [⟨4, [3, 0]⟩, ⟨6, [54, 1, 0, 0]⟩, ⟨7, []⟩] [0]) 6 n =
        some (.ok v)) ∧
      ∃ n, Java.infoValue (reply [⟨4, [3, 0]⟩, ⟨6, [54, 1, 0, 0]⟩, ⟨7, []⟩] [0]) 6 n =
        some (.ok v) := by
  obtain ⟨v, hcpp, hjava, -, -⟩ :=
    infoValue_eq [⟨4, [3, 0]⟩, ⟨6, [54, 1, 0, 0]⟩, ⟨7, []⟩] [0] 6 (by decide)
  exact ⟨v, hcpp, hjava (by decide)⟩

/-- A length of 2 ^ 32, and an item with a tag above 127. -/
theorem not_infoValue_eq_value :
    (¬ ∃ n, Cpp.infoValue (reply [⟨6, [0, 0, 0, 0, 1]⟩] []) 6 n =
        some (.ok (value [0, 0, 0, 0, 1]))) ∧
      ¬ ∃ n, Java.infoValue (reply [⟨200, [7]⟩] []) 200 n = some (.ok 7) := by
  constructor
  · rintro ⟨n, hrun⟩
    cases Loop.run_unique hrun (show Cpp.infoValue _ 6 1 = some (.ok 0) from rfl)
  · rintro ⟨n, hrun⟩
    cases Loop.run_unique hrun (show Java.infoValue _ 200 2 = some (.ok (-1)) from rfl)

end FirebirdSamples.Info
