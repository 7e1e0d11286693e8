import FirebirdSamples.Info.Blobs

/-!
# Replies that are cut off

The function `printLines` of `samples/cpp/services.cpp` drains a reply of the service manager:
lines, each with a length of two bytes, and notes that more will follow. Like `infoValue` it
compares the cursor with the end of the buffer at a tag only, and reads a length and what it
announces behind it without looking.

`isc_portable_integer` belongs to the client library. It reads two bytes here, and what it makes of
them is a parameter.

**When the buffer is left.** A loop that ends returns exactly if it gets to no round that reads
outside. The rounds it gets to are those behind whole entries (`exists_entries_of_reaches`,
`exists_items_of_reaches`), so that each of the two functions stays inside exactly if no whole
entries are followed by one that is cut off (`replies_inside_iff`). For a line there is a way out:
`printf` stops at a NUL.
-/

namespace FirebirdSamples.Info

open Blr Fallible LittleEndian TagLengthValue

/-! ### The sample -/

/-- `isc_info_truncated`. -/
def iscInfoTruncated : UInt8 := 2

/-- `isc_info_data_not_ready`. -/
def iscInfoDataNotReady : UInt8 := 4

/-- `isc_info_svc_line`. -/
def iscInfoSvcLine : UInt8 := 62

/-- `isc_info_svc_timeout`. -/
def iscInfoSvcTimeout : UInt8 := 64

/-- A tag that says that more will follow. -/
def IsNote (tag : UInt8) : Prop :=
  tag = iscInfoSvcTimeout ∨ tag = iscInfoDataNotReady ∨ tag = iscInfoTruncated

instance (tag : UInt8) : Decidable (IsNote tag) :=
  inferInstanceAs (Decidable (_ ∨ _))

/-- The variables of the loop, and the lines printed. -/
structure Drain where
  /-- The cursor. -/
  p : ℕ
  /-- There will be more. -/
  more : Bool
  /-- The number of lines. -/
  lines : ℤ
  /-- The lines. -/
  printed : List (List UInt8)

/-- `%.*s` of `printf`. A negative precision is taken for none; no string in the buffer is as long
as the bound then. -/
def printText (buf : List UInt8) (p : ℕ) (precision : ℤ) : Except Fault (List UInt8) :=
  if 0 ≤ precision then printString (memory buf) p precision.toNat
  else printString (memory buf) p (buf.length + 1)

section

variable (portable : UInt8 → UInt8 → ℤ)

/-- The length of a line, cast to `unsigned`. -/
def lineLength (lo hi : UInt8) : ℕ :=
  (portable lo hi % 4294967296).toNat

/-- The body of the loop. -/
def drainBody (buf : List UInt8) (s : Drain) : Except Fault (Drain ⊕ Drain) :=
  if s.p < buf.length then do
    let tag ← readAt (memory buf) s.p
    if tag = iscInfoEnd then
      pure (.inr s)
    else if tag = iscInfoSvcLine then
      let lo ← readAt (memory buf) (s.p + 1)
      let hi ← readAt (memory buf) (s.p + 2)
      let len := lineLength portable lo hi
      if 0 < len then
        -- the precision is cast to `int`
        let text ← printText buf (s.p + 3)
          (if len < 2147483648 then (len : ℤ) else len - 4294967296)
        pure (.inl
          { p := s.p + 3 + len
            more := true
            lines := s.lines + 1
            printed := s.printed ++ [text] })
      else
        pure (.inl { s with p := s.p + 3 + len })
    else if IsNote tag then
      pure (.inl { s with p := s.p + 1, more := true })
    else
      pure (.inr s)
  else
    pure (.inr s)

/-- `printLines`. -/
def printLines (buf : List UInt8) (lines : ℤ) (rounds : ℕ) : Option (Except Fault Drain) :=
  Loop.run (drainBody portable buf) rounds { p := 0, more := false, lines, printed := [] }

end

/-! ### Reading a buffer -/

section Reading

variable {buf : List UInt8} {p : ℕ}

theorem holds_drop (buf : List UInt8) (p : ℕ) : Holds (memory buf) p (buf.drop p) :=
  holds_memory_of_isPrefix (List.prefix_refl _)

theorem memory_eq_none_iff : memory buf p = none ↔ buf.drop p = [] := by
  rw [List.drop_eq_nil_iff]
  exact List.getElem?_eq_none_iff

/-- Two bytes can be read if they are there. -/
theorem u16_of_drop {lo hi : UInt8} {s : List UInt8} (h : buf.drop p = lo :: hi :: s) :
    u16 (memory buf) p = .ok (value [lo, hi]) := by
  have hbytes : le16 (value [lo, hi]) = [lo, hi] := bytes_value [lo, hi]
  have hlo := lo.toNat_lt
  have hhi := hi.toNat_lt
  refine u16_of_holds (by rw [value_cons, value_singleton]; omega) ?_
  rw [hbytes]
  exact holds_memory_of_isPrefix ⟨s, h.symm⟩

theorem u16_of_length_drop (h : (buf.drop p).length < 2) : ∃ e, u16 (memory buf) p = .error e := by
  rcases u16_cases (memory buf) p with ⟨n, hn⟩ | ⟨q, hq⟩
  · obtain ⟨x, -, hx⟩ := exists_uint16_of_u16 hn
    have hlen := length_le_of_holds hx
    simp only [List.length_drop, List.length_cons, List.length_nil] at h hlen
    omega
  · exact ⟨_, hq⟩

/-- The bytes of a value can be read if they are there. -/
theorem valueAt_ok_iff (buf : List UInt8) (p n : ℕ) :
    (∃ v, valueAt (memory buf) p n = .ok v) ↔ n ≤ (buf.drop p).length := by
  refine ⟨fun ⟨v, hv⟩ ↦ ?_, fun h ↦ ⟨_, valueAt_of_holds (holds_drop buf p) h⟩⟩
  rcases n with _ | n
  · exact Nat.zero_le _
  · rw [valueAt, List.range_succ, List.foldlM_append] at hv
    obtain ⟨v', -, hv⟩ := bind_eq_ok.1 hv
    obtain ⟨x, hx, -⟩ := bind_eq_ok.1 hv
    have hlt := (drop_of_memory (readAt_eq_ok.1 (bind_eq_ok.1 hx).choose_spec.1)).1
    rw [List.length_drop]
    omega

/-- A string can be printed if it is there, up to the bound or up to a NUL. -/
theorem printString_ok_iff {n : ℕ} :
    (∃ t, printString (memory buf) p n = .ok t) ↔
      0 ∈ buf.drop p ∨ n ≤ (buf.drop p).length := by
  induction n generalizing p with
  | zero => exact iff_of_true ⟨_, rfl⟩ (Or.inr (Nat.zero_le _))
  | succ n ih =>
    rw [printString]
    rcases hx : memory buf p with _ | x
    · have hread : readAt (memory buf) p = .error (.outside p) := by rw [readAt, hx]
      rw [hread, memory_eq_none_iff.1 hx]
      refine iff_of_false ?_ fun h ↦ h.elim List.not_mem_nil (Nat.not_succ_le_zero n)
      rintro ⟨t, ht⟩
      cases ht
    · rw [readAt_eq_ok.2 hx, ok_bind, (drop_of_memory hx).2, List.mem_cons, List.length_cons,
        Nat.succ_le_succ_iff]
      split_ifs with hzero
      · exact iff_of_true ⟨_, rfl⟩ (Or.inl (Or.inl hzero.symm))
      · rw [or_iff_right (Ne.symm hzero), ← ih]
        constructor
        · rintro ⟨t, ht⟩
          obtain ⟨t', ht', -⟩ := bind_eq_ok.1 ht
          exact ⟨t', ht'⟩
        · rintro ⟨t, ht⟩
          exact ⟨x :: t, by rw [ht]; rfl⟩

end Reading

/-! ### Replies to blob information requests -/

section Blobs

variable {isItem : UInt8 → Bool} {buf : List UInt8}

/-- Behind a tag there is what `infoValue` reads: a length, and for an item its value as far as four
bytes go. -/
def Readable (isItem : UInt8 → Bool) (tag : UInt8) (rest : List UInt8) : Prop :=
  2 ≤ rest.length ∧ (isItem tag = true → 2 + min (value (rest.take 2)) 4 ≤ rest.length)

/-- What a round finds: an end of the loop, or a tag. -/
theorem infoBody_cases (isItem : UInt8 → Bool) (buf : List UInt8) (p : ℕ) :
    infoBody isItem buf p = .ok (.inr (-1)) ∨
      ∃ tag rest, buf.drop p = tag :: rest ∧ tag ≠ iscInfoEnd := by
  rcases hdrop : buf.drop p with _ | ⟨tag, rest⟩
  · left
    rw [infoBody, if_neg (Nat.not_lt.2 (List.drop_eq_nil_iff.1 hdrop))]
    rfl
  rcases eq_or_ne tag iscInfoEnd with rfl | hend
  · exact Or.inl (infoBody_of_end (memory_of_drop hdrop).1)
  · exact Or.inr ⟨tag, rest, rfl, hend⟩

/-- A round at a tag reads outside the buffer if what it reads is not there. -/
theorem infoBody_error_iff {p : ℕ} {tag : UInt8} {rest : List UInt8}
    (hdrop : buf.drop p = tag :: rest) (htag : tag ≠ iscInfoEnd) :
    (∃ e, infoBody isItem buf p = .error e) ↔ ¬ Readable isItem tag rest := by
  have hok : ∀ x : ℕ ⊕ ℤ, ¬ ∃ e, (.ok x : Except Fault (ℕ ⊕ ℤ)) = .error e := by
    rintro x ⟨e, he⟩
    cases he
  obtain ⟨hmem, hrest⟩ := memory_of_drop hdrop
  rw [infoBody_of_tag hmem htag]
  rcases rest with _ | ⟨lo, _ | ⟨hi, text⟩⟩
  · obtain ⟨e, he⟩ := u16_of_length_drop (by rw [hrest]; exact Nat.zero_lt_two)
    rw [he]
    exact iff_of_true ⟨e, rfl⟩ fun h ↦ Nat.not_succ_le_zero 1 h.1
  · obtain ⟨e, he⟩ := u16_of_length_drop (by rw [hrest]; exact Nat.one_lt_two)
    rw [he]
    exact iff_of_true ⟨e, rfl⟩ fun h ↦ Nat.lt_irrefl 1 h.1
  have hlong : 2 ≤ (lo :: hi :: text).length := Nat.le_add_left 2 _
  rw [u16_of_drop hrest, ok_bind]
  by_cases hitem : isItem tag = true
  · have hmin := valueAt_ok_iff buf (p + 3) (min (value [lo, hi]) 4)
    have htext : buf.drop (p + 3) = text := (memory_of_drop (memory_of_drop hrest).2).2
    rw [htext] at hmin
    have hreadable : Readable isItem tag (lo :: hi :: text) ↔
        min (value [lo, hi]) 4 ≤ text.length := by
      rw [Readable, and_iff_right hlong, forall_prop_of_true hitem]
      show 2 + min (value [lo, hi]) 4 ≤ text.length + 1 + 1 ↔ _
      omega
    rw [hreadable, ← hmin, if_pos hitem]
    rcases hv : valueAt (memory buf) (p + 3) (min (value [lo, hi]) 4) with e | v
    · refine iff_of_true ⟨e, rfl⟩ ?_
      rintro ⟨_, h⟩
      cases h
    · exact iff_of_false (hok _) fun h ↦ h ⟨v, rfl⟩
  · rw [if_neg hitem]
    exact iff_of_false (hok _) fun h ↦ h ⟨hlong, fun h ↦ absurd h hitem⟩

/-- A round that goes on has skipped an entry, which may be cut off at the end of the buffer. -/
theorem drop_of_next {p q : ℕ} (h : Loop.Next (infoBody isItem buf) p q) :
    p < q ∧ p < buf.length ∧ (q < buf.length → ∃ e : Entry, e.Fits 2 ∧ e.tag ≠ iscInfoEnd ∧
      isItem e.tag = false ∧ buf.drop p = e.encode 2 ++ buf.drop q) := by
  rcases infoBody_cases isItem buf p with hend | ⟨tag, rest, hdrop, hend⟩
  · cases hend.symm.trans h
  obtain ⟨htag, -⟩ := memory_of_drop hdrop
  rw [Loop.Next, infoBody_of_tag htag hend] at h
  obtain ⟨clen, hclen, h⟩ := bind_eq_ok.1 h
  by_cases hitem : isItem tag = true
  · rw [if_pos hitem] at h
    obtain ⟨v, -, h⟩ := bind_eq_ok.1 h
    cases h
  rw [if_neg hitem] at h
  obtain rfl : p + 3 + clen = q := Sum.inl.inj (Except.ok.inj h)
  refine ⟨by omega, (drop_of_memory htag).1, fun hq ↦ ?_⟩
  obtain ⟨n, rfl, hn⟩ := exists_uint16_of_u16 hclen
  have hlen : buf.drop (p + 1) = le16 n.toNat ++ buf.drop (p + 3) := drop_of_holds hn
  have hlength : ((buf.drop (p + 3)).take n.toNat).length = n.toNat := by
    rw [List.length_take, List.length_drop]
    omega
  refine ⟨⟨tag, (buf.drop (p + 3)).take n.toNat⟩, ?_, hend, Bool.eq_false_iff.2 hitem, ?_⟩
  · show ((buf.drop (p + 3)).take n.toNat).length < 256 ^ 2
    rw [hlength]
    exact n.toNat_lt
  · rw [(drop_of_memory htag).2, hlen, Entry.encode, hlength, ← List.drop_drop (i := n.toNat),
      List.cons_append, List.append_assoc, List.take_append_drop]
    rfl

theorem infoBody_decreases {p q : ℕ} (h : Loop.Next (infoBody isItem buf) p q) :
    buf.length - q < buf.length - p := by
  obtain ⟨hlt, hp, -⟩ := drop_of_next h
  omega

/-- The rounds the loop gets to are those behind whole entries with other tags. -/
theorem exists_entries_of_reaches {p : ℕ} (h : Loop.Reaches (infoBody isItem buf) 0 p)
    (hp : p < buf.length) :
    ∃ es : List Entry, (∀ e ∈ es, e.Fits 2 ∧ e.tag ≠ iscInfoEnd ∧ isItem e.tag = false) ∧
      buf = es.flatMap (·.encode 2) ++ buf.drop p := by
  induction h with
  | refl => exact ⟨[], fun _ h ↦ absurd h List.not_mem_nil, rfl⟩
  | tail _ hnext ih =>
    obtain ⟨hlt, hq, hentry⟩ := drop_of_next hnext
    obtain ⟨es, hes, hbuf⟩ := ih hq
    obtain ⟨e, he, htag, hitem, hdrop⟩ := hentry hp
    refine ⟨es ++ [e], ?_, ?_⟩
    · exact List.forall_mem_append.2 ⟨hes, List.forall_mem_singleton.2 ⟨he, htag, hitem⟩⟩
    · rw [List.flatMap_append, List.flatMap_singleton, List.append_assoc, ← hdrop]
      exact hbuf

/-- **`infoValue` returns** exactly if no entry that it gets to is cut off. -/
theorem infoBody_returns_iff :
    (∃ n v, Loop.run (infoBody isItem buf) n 0 = some (.ok v)) ↔
      ∀ (es : List Entry) (tag : UInt8) (rest : List UInt8),
        (∀ e ∈ es, e.Fits 2 ∧ e.tag ≠ iscInfoEnd ∧ isItem e.tag = false) → tag ≠ iscInfoEnd →
          buf = es.flatMap (·.encode 2) ++ tag :: rest → Readable isItem tag rest := by
  rw [Loop.returns_iff (fun p ↦ buf.length - p) fun _ _ ↦ infoBody_decreases]
  constructor
  · intro h es tag rest hes htag hbuf
    by_contra hread
    have hholds : Holds (memory buf) 0 (es.flatMap (·.encode 2)) :=
      holds_memory_of_isPrefix ⟨tag :: rest, hbuf.symm⟩
    have hdrop : buf.drop (0 + (es.flatMap (·.encode 2)).length) = tag :: rest := by
      rw [Nat.zero_add, hbuf, List.drop_left]
    obtain ⟨e, he⟩ := (infoBody_error_iff hdrop htag).2 hread
    exact h _ e (reaches_of_holds hholds hes) he
  · intro h p e hreaches he
    rcases infoBody_cases isItem buf p with hend | ⟨tag, rest, hdrop, htag⟩
    · cases hend.symm.trans he
    have hread := (infoBody_error_iff hdrop htag).1 ⟨e, he⟩
    have hp : p < buf.length := (drop_of_memory (memory_of_drop hdrop).1).1
    obtain ⟨es, hes, hbuf⟩ := exists_entries_of_reaches hreaches hp
    exact hread (h es tag rest hes htag (hdrop ▸ hbuf))

end Blobs

/-! ### Replies of the service manager -/

section Services

variable {portable : UInt8 → UInt8 → ℤ} {buf : List UInt8}

/-- What `printLines` goes through. -/
inductive Item where
  | line (lo hi : UInt8) (text : List UInt8)
  | note (tag : UInt8)

/-- Its bytes. -/
def Item.encode : Item → List UInt8
  | line lo hi text => iscInfoSvcLine :: lo :: hi :: text
  | note tag => [tag]

/-- It has the length it announces. -/
def Item.Whole (portable : UInt8 → UInt8 → ℤ) : Item → Prop
  | line lo hi text => text.length = lineLength portable lo hi
  | note tag => IsNote tag

/-- Behind the tag of a line there is what `printLines` reads: a length, and the text up to a NUL or
up to its length, if this is not negative for `printf`. -/
def Printable (portable : UInt8 → UInt8 → ℤ) (rest : List UInt8) : Prop :=
  ∃ lo hi text, rest = lo :: hi :: text ∧
    (0 ∈ text ∨ lineLength portable lo hi < 2147483648 ∧ lineLength portable lo hi ≤ text.length)

theorem lineLength_lt (portable : UInt8 → UInt8 → ℤ) (lo hi : UInt8) :
    lineLength portable lo hi < 4294967296 := by
  rw [lineLength]
  omega

/-- A text can be printed if there is a NUL or the buffer is long enough. -/
theorem printText_ok_iff (buf : List UInt8) (p : ℕ) {len : ℕ} (hlen : len < 4294967296) :
    (∃ t, printText buf p (if len < 2147483648 then (len : ℤ) else len - 4294967296) = .ok t) ↔
      0 ∈ buf.drop p ∨ len < 2147483648 ∧ len ≤ (buf.drop p).length := by
  rw [printText]
  by_cases hsigned : len < 2147483648
  · rw [if_pos hsigned, if_pos (Int.natCast_nonneg _), Int.toNat_natCast, printString_ok_iff,
      and_iff_right hsigned]
  · rw [if_neg hsigned, if_neg (by omega), printString_ok_iff]
    refine or_congr_right (iff_of_false ?_ fun h ↦ hsigned h.1)
    rw [List.length_drop]
    omega

theorem printable_cons_iff {lo hi : UInt8} {text : List UInt8} :
    Printable portable (lo :: hi :: text) ↔ 0 ∈ text ∨
      lineLength portable lo hi < 2147483648 ∧ lineLength portable lo hi ≤ text.length := by
  constructor
  · rintro ⟨_, _, _, heq, h⟩
    cases heq
    exact h
  · exact fun h ↦ ⟨lo, hi, text, rfl, h⟩

theorem not_printable_of_length_lt {rest : List UInt8} (h : rest.length < 2) :
    ¬ Printable portable rest := by
  rintro ⟨lo, hi, text, rfl, -⟩
  exact absurd h (Nat.not_lt.2 (Nat.le_add_left 2 _))

/-- What a round makes of the tag of a line. -/
theorem drainBody_of_line (portable : UInt8 → UInt8 → ℤ) {s : Drain}
    (htag : memory buf s.p = some iscInfoSvcLine) :
    drainBody portable buf s = (do
      let lo ← readAt (memory buf) (s.p + 1)
      let hi ← readAt (memory buf) (s.p + 2)
      let len := lineLength portable lo hi
      if 0 < len then
        let text ← printText buf (s.p + 3)
          (if len < 2147483648 then (len : ℤ) else len - 4294967296)
        pure (.inl ⟨s.p + 3 + len, true, s.lines + 1, s.printed ++ [text]⟩)
      else
        pure (.inl { s with p := s.p + 3 + len })) := by
  rw [drainBody, if_pos (drop_of_memory htag).1, readAt_eq_ok.2 htag, ok_bind,
    if_neg (by decide), if_pos rfl]

/-- What a round makes of a line: it goes on behind it, or it reads outside the buffer. -/
theorem drainBody_line (portable : UInt8 → UInt8 → ℤ) {s : Drain} {rest : List UInt8}
    (hdrop : buf.drop s.p = iscInfoSvcLine :: rest) :
    (Printable portable rest ∧ ∃ lo hi text s', rest = lo :: hi :: text ∧
        s'.p = s.p + 3 + lineLength portable lo hi ∧ Loop.Next (drainBody portable buf) s s') ∨
      ¬ Printable portable rest ∧ ∃ e, drainBody portable buf s = .error e := by
  obtain ⟨htag, hrest⟩ := memory_of_drop hdrop
  have hbody := drainBody_of_line portable htag
  rcases rest with _ | ⟨lo, _ | ⟨hi, text⟩⟩
  · refine Or.inr ⟨not_printable_of_length_lt Nat.zero_lt_two, .outside (s.p + 1), ?_⟩
    rw [hbody, readAt, memory_eq_none_iff.2 hrest]
    rfl
  · obtain ⟨hlo, hrest'⟩ := memory_of_drop hrest
    refine Or.inr ⟨not_printable_of_length_lt Nat.one_lt_two, .outside (s.p + 2), ?_⟩
    rw [hbody, readAt_eq_ok.2 hlo, ok_bind, readAt,
      show memory buf (s.p + 2) = none from memory_eq_none_iff.2 hrest']
    rfl
  obtain ⟨hlo, hrest'⟩ := memory_of_drop hrest
  obtain ⟨hhi, htext⟩ := memory_of_drop hrest'
  rw [readAt_eq_ok.2 hlo, ok_bind, show readAt (memory buf) (s.p + 2) = .ok hi from
    readAt_eq_ok.2 hhi, ok_bind] at hbody
  have hprint := printText_ok_iff buf (s.p + 3) (lineLength_lt portable lo hi)
  rw [show buf.drop (s.p + 3) = text from htext, ← printable_cons_iff] at hprint
  rcases Nat.eq_zero_or_pos (lineLength portable lo hi) with hzero | hpos
  · refine Or.inl ⟨printable_cons_iff.2 (Or.inr (by omega)), lo, hi, text,
      { s with p := s.p + 3 + lineLength portable lo hi }, rfl, rfl, ?_⟩
    exact hbody.trans (if_neg (by omega))
  dsimp only at hbody
  rw [if_pos hpos] at hbody
  rcases hshown : printText buf (s.p + 3) (if lineLength portable lo hi < 2147483648 then
    (lineLength portable lo hi : ℤ) else lineLength portable lo hi - 4294967296) with e | shown
  · refine Or.inr ⟨fun h ↦ ?_, e, by rw [hbody, hshown]; rfl⟩
    obtain ⟨t, ht⟩ := hprint.2 h
    cases hshown.symm.trans ht
  · refine Or.inl ⟨hprint.1 ⟨shown, hshown⟩, lo, hi, text, ⟨s.p + 3 + lineLength portable lo hi,
      true, s.lines + 1, s.printed ++ [shown]⟩, rfl, rfl, ?_⟩
    rw [Loop.Next, hbody, hshown]
    rfl

/-- What a round makes of a note. -/
theorem next_note {s : Drain} {tag : UInt8} {rest : List UInt8} (hdrop : buf.drop s.p = tag :: rest)
    (htag : IsNote tag) :
    Loop.Next (drainBody portable buf) s { s with p := s.p + 1, more := true } := by
  obtain ⟨hmem, -⟩ := memory_of_drop hdrop
  have hend : tag ≠ iscInfoEnd := by
    rcases htag with rfl | rfl | rfl <;> decide
  have hline : tag ≠ iscInfoSvcLine := by
    rcases htag with rfl | rfl | rfl <;> decide
  rw [Loop.Next, drainBody, if_pos (drop_of_memory hmem).1, readAt_eq_ok.2 hmem, ok_bind,
    if_neg hend, if_neg hline, if_pos htag]
  rfl

/-- What a round finds: a line, a note, or an end of the loop. -/
theorem drainBody_cases (portable : UInt8 → UInt8 → ℤ) (buf : List UInt8) (s : Drain) :
    (∃ rest, buf.drop s.p = iscInfoSvcLine :: rest) ∨
      (∃ tag rest, buf.drop s.p = tag :: rest ∧ IsNote tag) ∨
        drainBody portable buf s = .ok (.inr s) := by
  rcases hdrop : buf.drop s.p with _ | ⟨tag, rest⟩
  · refine Or.inr (Or.inr ?_)
    rw [drainBody, if_neg (Nat.not_lt.2 (List.drop_eq_nil_iff.1 hdrop))]
    rfl
  rcases eq_or_ne tag iscInfoSvcLine with rfl | hline
  · exact Or.inl ⟨rest, rfl⟩
  by_cases hnote : IsNote tag
  · exact Or.inr (Or.inl ⟨tag, rest, rfl, hnote⟩)
  · obtain ⟨hmem, -⟩ := memory_of_drop hdrop
    refine Or.inr (Or.inr ?_)
    rw [drainBody, if_pos (drop_of_memory hmem).1, readAt_eq_ok.2 hmem, ok_bind, if_neg hline,
      if_neg hnote]
    exact ite_self _

/-- A round that reads outside the buffer. -/
theorem exists_line_of_error {s : Drain} {e : Fault} (h : drainBody portable buf s = .error e) :
    ∃ rest, buf.drop s.p = iscInfoSvcLine :: rest ∧ ¬ Printable portable rest := by
  rcases drainBody_cases portable buf s with ⟨rest, hdrop⟩ |
    ⟨tag, rest, hdrop, hnote⟩ | hend
  · rcases drainBody_line portable hdrop with ⟨-, _, _, _, _, -, -, hnext⟩ |
      ⟨hprintable, -⟩
    · cases hnext.symm.trans h
    · exact ⟨rest, hdrop, hprintable⟩
  · cases (next_note hdrop hnote).symm.trans h
  · cases hend.symm.trans h

/-- A round that goes on has gone through an item, which may be cut off at the end of the buffer. -/
theorem drop_of_drain_next {s s' : Drain} (h : Loop.Next (drainBody portable buf) s s') :
    s.p < s'.p ∧ s.p < buf.length ∧ (s'.p < buf.length → ∃ i : Item, i.Whole portable ∧
      buf.drop s.p = i.encode ++ buf.drop s'.p) := by
  rcases drainBody_cases portable buf s with ⟨rest, hdrop⟩ |
    ⟨tag, rest, hdrop, hnote⟩ | hend
  · have hp := (drop_of_memory (memory_of_drop hdrop).1).1
    rcases drainBody_line portable hdrop with
      ⟨-, lo, hi, text, t, rfl, ht, hnext⟩ | ⟨-, e, he⟩
    swap
    · cases h.symm.trans he
    obtain rfl : t = s' := Sum.inl.inj (Except.ok.inj (hnext.symm.trans h))
    refine ⟨by omega, hp, fun hlt ↦ ?_⟩
    have htext : buf.drop (s.p + 3) = text := by
      rw [← List.drop_drop, hdrop]
      rfl
    refine ⟨.line lo hi (text.take (lineLength portable lo hi)), List.length_take_of_le ?_, ?_⟩
    · rw [← htext, List.length_drop]
      omega
    · rw [hdrop, ht, ← List.drop_drop, htext]
      exact congrArg (iscInfoSvcLine :: lo :: hi :: ·) (List.take_append_drop _ _).symm
  · have hp := (drop_of_memory (memory_of_drop hdrop).1).1
    obtain rfl := Sum.inl.inj (Except.ok.inj ((next_note hdrop hnote).symm.trans h))
    refine ⟨Nat.lt_succ_self _, hp, fun _ ↦ ⟨.note tag, hnote, ?_⟩⟩
    rw [hdrop, ← (memory_of_drop hdrop).2]
    rfl
  · cases hend.symm.trans h

theorem drainBody_decreases {s s' : Drain} (h : Loop.Next (drainBody portable buf) s s') :
    buf.length - s'.p < buf.length - s.p := by
  obtain ⟨hlt, hp, -⟩ := drop_of_drain_next h
  omega

/-- The rounds the loop gets to are those behind whole items. -/
theorem exists_items_of_reaches {s s' : Drain} (hs : s.p = 0)
    (h : Loop.Reaches (drainBody portable buf) s s') (hs' : s'.p < buf.length) :
    ∃ items : List Item, (∀ i ∈ items, i.Whole portable) ∧
      buf = items.flatMap Item.encode ++ buf.drop s'.p := by
  induction h with
  | refl => exact ⟨[], fun _ h ↦ absurd h List.not_mem_nil, by rw [hs]; rfl⟩
  | tail _ hnext ih =>
    obtain ⟨hlt, hq, hitem⟩ := drop_of_drain_next hnext
    obtain ⟨items, hitems, hbuf⟩ := ih hq
    obtain ⟨i, hi, hdrop⟩ := hitem hs'
    refine ⟨items ++ [i], List.forall_mem_append.2 ⟨hitems, List.forall_mem_singleton.2 hi⟩, ?_⟩
    rw [List.flatMap_append, List.flatMap_singleton, List.append_assoc, ← hdrop]
    exact hbuf

/-- Whole items are gone through, if the loop does not read outside the buffer before. -/
theorem reaches_of_items {items : List Item} (hitems : ∀ i ∈ items, i.Whole portable) {s : Drain}
    {rest : List UInt8} (hdrop : buf.drop s.p = items.flatMap Item.encode ++ rest)
    (hsafe : ∀ s' e, Loop.Reaches (drainBody portable buf) s s' →
      drainBody portable buf s' ≠ .error e) :
    ∃ s', Loop.Reaches (drainBody portable buf) s s' ∧ buf.drop s'.p = rest := by
  induction items generalizing s with
  | nil => exact ⟨s, .refl, hdrop⟩
  | cons i items ih =>
    obtain ⟨hi, hitems'⟩ := List.forall_mem_cons.1 hitems
    obtain ⟨s', hnext, hs'⟩ : ∃ s', Loop.Next (drainBody portable buf) s s' ∧
        buf.drop s'.p = items.flatMap Item.encode ++ rest := by
      rw [List.flatMap_cons, List.append_assoc] at hdrop
      rcases i with ⟨lo, hi', text⟩ | tag
      · rcases drainBody_line portable hdrop with
          ⟨-, _, _, _, s', heq, hs', hnext⟩ | ⟨-, e, he⟩
        · cases heq
          refine ⟨s', hnext, ?_⟩
          rw [hs', ← show text.length = lineLength portable lo hi' from hi, ← List.drop_drop,
            ← List.drop_drop, hdrop]
          exact List.drop_left
        · exact absurd he (hsafe s e .refl)
      · exact ⟨_, next_note hdrop hi, (memory_of_drop hdrop).2⟩
    obtain ⟨s'', hreaches, hs''⟩ := ih hitems' hs' fun t e ht ↦ hsafe t e (ht.head hnext)
    exact ⟨s'', hreaches.head hnext, hs''⟩

/-- **`printLines` returns** exactly if no line that it gets to is cut off. -/
theorem printLines_returns_iff (lines : ℤ) :
    (∃ n s, printLines portable buf lines n = some (.ok s)) ↔
      ∀ (items : List Item) (rest : List UInt8), (∀ i ∈ items, i.Whole portable) →
        buf = items.flatMap Item.encode ++ iscInfoSvcLine :: rest → Printable portable rest := by
  refine (Loop.returns_iff (fun s : Drain ↦ buf.length - s.p)
    (fun _ _ ↦ drainBody_decreases) _).trans ?_
  constructor
  · intro h items rest hitems hbuf
    by_contra hprintable
    obtain ⟨s, hreaches, hs⟩ := reaches_of_items hitems (s := ⟨0, false, lines, []⟩) hbuf h
    rcases drainBody_line portable hs with ⟨hprintable', -⟩ | ⟨-, e, he⟩
    · exact hprintable hprintable'
    · exact h s e hreaches he
  · intro h s e hreaches he
    obtain ⟨rest, hdrop, hprintable⟩ := exists_line_of_error he
    have hs : s.p < buf.length := (drop_of_memory (memory_of_drop hdrop).1).1
    obtain ⟨items, hitems, hbuf⟩ := exists_items_of_reaches rfl hreaches hs
    exact hprintable (h items rest hitems (hdrop ▸ hbuf))

end Services

/-! ### Both functions -/

/-- **The decoders stay inside the buffer** exactly if no entry that they get to is cut off: for
`infoValue` there are a length behind each tag, and up to four bytes of value behind the one that is
looked for; for `printLines` there are a length behind the tag of each line, and its text or a NUL
behind that. -/
theorem replies_inside_iff (portable : UInt8 → UInt8 → ℤ) (buf : List UInt8) (item : UInt8)
    (lines : ℤ) :
    ((∃ n v, Cpp.infoValue buf item n = some (.ok v)) ↔
        ∀ (es : List Entry) (tag : UInt8) (rest : List UInt8),
          (∀ e ∈ es, e.Fits 2 ∧ e.tag ≠ iscInfoEnd ∧ e.tag ≠ item) → tag ≠ iscInfoEnd →
            buf = es.flatMap (·.encode 2) ++ tag :: rest →
              2 ≤ rest.length ∧ (tag = item → 2 + min (value (rest.take 2)) 4 ≤ rest.length)) ∧
      ((∃ n s, printLines portable buf lines n = some (.ok s)) ↔
        ∀ (items : List Item) (rest : List UInt8), (∀ i ∈ items, i.Whole portable) →
          buf = items.flatMap Item.encode ++ iscInfoSvcLine :: rest → Printable portable rest) := by
  refine ⟨infoBody_returns_iff.trans ?_, printLines_returns_iff lines⟩
  simp only [Readable, beq_iff_eq, beq_eq_false_iff_ne]

/-- A reply that ends behind a tag. -/
theorem not_inside_of_tag :
    (¬ ∃ n v, Cpp.infoValue [6] 6 n = some (.ok v)) ∧
      ¬ ∃ n s, printLines (fun lo hi ↦ signed [lo, hi]) [iscInfoSvcLine] 0 n = some (.ok s) := by
  constructor
  · rintro ⟨n, v, hrun⟩
    cases Loop.run_unique hrun
      (show Cpp.infoValue [6] 6 1 = some (.error (.outside 1)) from rfl)
  · rintro ⟨n, s, hrun⟩
    cases Loop.run_unique hrun
      (show printLines _ [iscInfoSvcLine] 0 1 = some (.error (.outside 1)) from rfl)

end FirebirdSamples.Info
