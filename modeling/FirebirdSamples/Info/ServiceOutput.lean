import FirebirdSamples.Info.Services

/-!
# Two loops over the output of a service

A service writes its output into a small buffer, from which a client fetches it with one query after
the other. The loop of `samples/cpp/services.cpp` hands each answer to `printLines`, which goes
through all of its items; the one of `samples/cpp/backup.cpp` looks at the first item only, and
takes an answer that does not begin with a line for the end.

An answer is a sequence of lines and notes (`Answer`). Both loops are followed through a sequence of
answers (`pollLoop_eq`, `streamServiceOutput_eq`): the first one goes on as long as an answer has a
note or a line that is not empty, and the second one as long as it begins with such a line. So the
two do the same exactly if, up to the answer that ends the first loop, each answer has one line that
is not empty and begins with it (`output_agree_iff`).
-/

namespace FirebirdSamples.Info

open Blr Fallible

/-! ### The samples -/

/-- What a loop has done. -/
structure Output where
  /-- The number of queries. -/
  queries : ℕ
  /-- The lines printed. -/
  printed : List (List UInt8)

/-- The variables of the loop of `services.cpp`. -/
structure Poll extends Output where
  /-- The number of lines. -/
  lines : ℤ

/-- The polling loop of `services.cpp`, over the answers to its queries; `none` if it goes on behind
them. -/
def pollLoop (portable : UInt8 → UInt8 → ℤ) :
    List (List UInt8) → Poll → Option (Except Fault Poll)
  | [], _ => none
  | results :: answers, s =>
    match printLines portable results s.lines (results.length + 1) with
    | none => none
    | some (.error e) => some (.error e)
    | some (.ok d) =>
      let s' : Poll :=
        { queries := s.queries + 1
          printed := s.printed ++ d.printed
          lines := d.lines }
      if d.more then pollLoop portable answers s' else some (.ok s')

/-- What the loop of `backup.cpp` prints of an answer; `none` if it stops. -/
def streamBody (buf : List UInt8) : Except Fault (Option (List UInt8)) := do
  let tag ← readAt (memory buf) 0
  if tag ≠ iscInfoSvcLine then
    pure none
  else
    let len ← u16 (memory buf) 1
    if len = 0 then
      pure none
    else
      let text ← printString (memory buf) 3 len
      pure (some text)

/-- `streamServiceOutput`, over the answers to its queries; `none` if it goes on behind them. -/
def streamServiceOutput : List (List UInt8) → Output → Option (Except Fault Output)
  | [], _ => none
  | buf :: answers, s =>
    match streamBody buf with
    | .error e => some (.error e)
    | .ok none => some (.ok { s with queries := s.queries + 1 })
    | .ok (some text) =>
      streamServiceOutput answers
        { queries := s.queries + 1
          printed := s.printed ++ [text] }

/-! ### Answers -/

/-- What an answer consists of. -/
inductive AnswerItem where
  | line (text : { t : List UInt8 // t.length ≤ 1000 })
  | timeout
  | dataNotReady
  | truncated

namespace AnswerItem

/-- The bytes of an item. -/
def encode : AnswerItem → List UInt8
  | line text => iscInfoSvcLine :: (le16 text.1.length ++ text.1)
  | timeout => [iscInfoSvcTimeout]
  | dataNotReady => [iscInfoDataNotReady]
  | truncated => [iscInfoTruncated]

/-- The text, if it is a line that is not empty. -/
def text? : AnswerItem → Option (List UInt8)
  | line text => if text.1 = [] then none else some text.1
  | _ => none

/-- The item says that there is more. -/
def tells : AnswerItem → Bool
  | line text => text.1 ≠ []
  | _ => true

end AnswerItem

/-- An answer to a query: items, and what stands in the buffer behind their end. -/
structure Answer where
  items : List AnswerItem
  padding : List UInt8

namespace Answer

variable (a : Answer)

/-- The buffer. -/
def buffer : List UInt8 :=
  a.items.flatMap AnswerItem.encode ++ iscInfoEnd :: a.padding

/-- The lines that are not empty. -/
def texts : List (List UInt8) :=
  a.items.filterMap AnswerItem.text?

/-- Some item says that there is more. -/
def tells : Bool :=
  a.items.any AnswerItem.tells

/-- The line that the answer begins with, if this is not empty. -/
def first? : Option (List UInt8) :=
  a.items.head?.bind AnswerItem.text?

/-- The answer is one line that can be printed, and possibly notes and empty lines behind it. -/
def Single : Prop :=
  ∃ text, a.first? = some text ∧ a.texts = [text] ∧ 0 ∉ text

end Answer

/-- The single empty line that says that the service has finished. -/
def finished (padding : List UInt8) : Answer where
  items := [.line ⟨[], Nat.zero_le _⟩]
  padding := padding

/-! ### `printLines` on an answer -/

section Services

variable {portable : UInt8 → UInt8 → ℤ} {buf : List UInt8}

/-- What an item adds to the variables of `printLines`. -/
def Drain.add (s : Drain) (i : AnswerItem) : Drain where
  p := s.p + i.encode.length
  more := s.more || i.tells
  lines := s.lines + i.text?.toList.length
  printed := s.printed ++ i.text?.toList.map cString

/-- A round over an item. -/
theorem next_item (hportable : ∀ n < 32768, portable (UInt8.ofNat n) (UInt8.ofNat (n / 256)) = n)
    {s : Drain} {i : AnswerItem} {rest : List UInt8} (hdrop : buf.drop s.p = i.encode ++ rest) :
    Loop.Next (drainBody portable buf) s (s.add i) := by
  have hnote : ∀ tag, IsNote tag → i.encode = [tag] → i.tells = true → i.text? = none →
      Loop.Next (drainBody portable buf) s (s.add i) := by
    intro tag htag hencode htells htext
    rw [hencode] at hdrop
    have hnext : Loop.Next (drainBody portable buf) s _ := next_note hdrop htag
    rw [Drain.add, hencode, htells, htext, Bool.or_true, Option.toList_none]
    simpa using hnext
  cases i with
  | timeout => exact hnote _ (Or.inl rfl) rfl rfl rfl
  | dataNotReady => exact hnote _ (Or.inr (Or.inl rfl)) rfl rfl rfl
  | truncated => exact hnote _ (Or.inr (Or.inr rfl)) rfl rfl rfl
  | line text =>
    obtain ⟨text, htext⟩ := text
    obtain ⟨htag, hdrop₁⟩ := memory_of_drop hdrop
    obtain ⟨hlo, hdrop₂⟩ := memory_of_drop hdrop₁
    obtain ⟨hhi, hdrop₃⟩ := memory_of_drop hdrop₂
    have hlength : lineLength portable (UInt8.ofNat text.length) (UInt8.ofNat (text.length / 256)) =
        text.length := by
      rw [lineLength, hportable _ (by omega)]
      omega
    have hencode : (AnswerItem.line ⟨text, htext⟩).encode.length = 3 + text.length := by
      rw [AnswerItem.encode, List.length_cons, List.length_append, Nat.add_right_comm]
      rfl
    rw [Loop.Next, drainBody_of_line portable htag, readAt_eq_ok.2 hlo, ok_bind,
      show readAt (memory buf) (s.p + 2) = .ok _ from readAt_eq_ok.2 hhi, ok_bind, hlength]
    rcases text with _ | ⟨x, text⟩
    · have htells : (AnswerItem.line ⟨[], htext⟩).tells = false := rfl
      have htext? : (AnswerItem.line ⟨[], htext⟩).text? = none := rfl
      rw [Drain.add, hencode, htells, htext?, Bool.or_false, Option.toList_none, List.map_nil,
        List.append_nil, ← Nat.add_assoc]
      simp only [List.length_nil, Nat.lt_irrefl, if_false, Nat.cast_zero, add_zero]
      rfl
    · have hprint : printText buf (s.p + 3) (x :: text).length = .ok (cString (x :: text)) := by
        rw [printText, if_pos (Int.natCast_nonneg _), Int.toNat_natCast]
        exact printString_of_holds (holds_memory_of_isPrefix ⟨rest, hdrop₃.symm⟩)
      have hsmall : (x :: text).length < 2147483648 := Nat.lt_of_le_of_lt htext (by decide)
      have hpos : 0 < (x :: text).length := Nat.succ_pos _
      have htells : (AnswerItem.line ⟨x :: text, htext⟩).tells = true := rfl
      have htext? : (AnswerItem.line ⟨x :: text, htext⟩).text? = some (x :: text) := rfl
      dsimp only
      rw [if_pos hpos, if_pos hsmall, hprint, Drain.add, hencode, htells, htext?, Bool.or_true,
        Nat.add_assoc]
      rfl

/-- The rounds over the items of an answer. -/
theorem reaches_items (hportable : ∀ n < 32768,
      portable (UInt8.ofNat n) (UInt8.ofNat (n / 256)) = n)
    {items : List AnswerItem} {s : Drain} {rest : List UInt8}
    (hdrop : buf.drop s.p = items.flatMap AnswerItem.encode ++ rest) :
    Loop.Reaches (drainBody portable buf) s (items.foldl Drain.add s) ∧
      buf.drop (items.foldl Drain.add s).p = rest := by
  induction items generalizing s with
  | nil => exact ⟨.refl, hdrop⟩
  | cons i items ih =>
    rw [List.flatMap_cons, List.append_assoc] at hdrop
    have hnext : buf.drop (s.add i).p = items.flatMap AnswerItem.encode ++ rest := by
      show buf.drop (s.p + _) = _
      rw [← List.drop_drop, hdrop, List.drop_left]
    obtain ⟨hreaches, hrest⟩ := ih hnext
    exact ⟨hreaches.head (next_item hportable hdrop), hrest⟩

/-- What the items add up to. -/
theorem foldl_add (items : List AnswerItem) (s : Drain) :
    (items.foldl Drain.add s).more = (s.more || items.any AnswerItem.tells) ∧
      (items.foldl Drain.add s).lines = s.lines + (items.filterMap AnswerItem.text?).length ∧
      (items.foldl Drain.add s).printed =
        s.printed ++ (items.filterMap AnswerItem.text?).map cString := by
  induction items generalizing s with
  | nil => simp
  | cons i items ih =>
    obtain ⟨hmore, hlines, hprinted⟩ := ih (s.add i)
    rw [List.foldl_cons, hmore, hlines, hprinted, List.any_cons, Drain.add]
    dsimp only
    rcases htext : i.text? with _ | t
    · rw [List.filterMap_cons_none htext]
      simp [Bool.or_assoc]
    · rw [List.filterMap_cons_some htext]
      simp [Bool.or_assoc]
      omega

/-- **`printLines` on an answer** prints its lines, and tells whether there is more. -/
theorem printLines_answer (hportable : ∀ n < 32768,
      portable (UInt8.ofNat n) (UInt8.ofNat (n / 256)) = n) (a : Answer) (lines : ℤ) :
    ∃ d, printLines portable a.buffer lines (a.buffer.length + 1) = some (.ok d) ∧
      d.more = a.tells ∧ d.lines = lines + a.texts.length ∧ d.printed = a.texts.map cString := by
  have hdrop : a.buffer.drop (⟨0, false, lines, []⟩ : Drain).p =
    a.items.flatMap AnswerItem.encode ++ iscInfoEnd :: a.padding := rfl
  obtain ⟨hreaches, hend⟩ := reaches_items hportable hdrop
  obtain ⟨hmore, hlines, hprinted⟩ := foldl_add a.items ⟨0, false, lines, []⟩
  generalize a.items.foldl Drain.add ⟨0, false, lines, []⟩ = d at *
  have hlast : drainBody portable a.buffer d = .ok (.inr d) := by
    obtain ⟨htag, -⟩ := memory_of_drop hend
    rw [drainBody, if_pos (drop_of_memory htag).1, readAt_eq_ok.2 htag, ok_bind, if_pos rfl]
    rfl
  obtain ⟨n, hrun⟩ := Loop.exists_run_of_reaches (r := .ok d) hreaches hlast
  obtain ⟨r, hr⟩ : ∃ r, printLines portable a.buffer lines (a.buffer.length + 1) = some r :=
    Loop.exists_run_measure (μ := fun s : Drain ↦ a.buffer.length - s.p)
      (fun _ _ ↦ drainBody_decreases) ⟨0, false, lines, []⟩
  obtain rfl := Loop.run_unique hrun hr
  refine ⟨d, hr, ?_, hlines, hprinted⟩
  rw [hmore]
  rfl

/-- An answer with a line that is not empty says that there is more. -/
theorem Answer.tells_of_mem_texts {a : Answer} {text : List UInt8} (h : text ∈ a.texts) :
    a.tells = true := by
  obtain ⟨i, hi, htext⟩ := List.mem_filterMap.1 h
  refine List.any_eq_true.2 ⟨i, hi, ?_⟩
  cases i with
  | line t =>
    rw [AnswerItem.text?] at htext
    split_ifs at htext with ht
    exact decide_eq_true ht
  | timeout | dataNotReady | truncated => rfl

/-- **The loop of `services.cpp`** prints the lines of each answer, and goes on as long as answers
say that there is more. -/
theorem pollLoop_eq (hportable : ∀ n < 32768,
      portable (UInt8.ofNat n) (UInt8.ofNat (n / 256)) = n)
    (earlier : List Answer) {final : Answer} (hfinal : final.tells = false) (s : Poll) :
    ∃ s', pollLoop portable ((earlier ++ [final]).map Answer.buffer) s = some (.ok s') ∧
      s'.queries = s.queries + (earlier.takeWhile Answer.tells).length + 1 ∧
      s'.printed =
        s.printed ++ ((earlier.takeWhile Answer.tells).flatMap Answer.texts).map cString := by
  have hquiet : ∀ {a : Answer}, a.tells = false → a.texts = [] := by
    intro a ha
    refine List.eq_nil_iff_forall_not_mem.2 fun text htext ↦ ?_
    rw [Answer.tells_of_mem_texts htext] at ha
    cases ha
  induction earlier generalizing s with
  | nil =>
    obtain ⟨d, hrun, hmore, -, hprinted⟩ := printLines_answer hportable final s.lines
    rw [List.nil_append, List.map_singleton, pollLoop, hrun]
    dsimp only
    rw [hmore, hfinal, hprinted, hquiet hfinal]
    exact ⟨_, rfl, rfl, rfl⟩
  | cons a earlier ih =>
    obtain ⟨d, hrun, hmore, -, hprinted⟩ := printLines_answer hportable a s.lines
    rw [List.cons_append, List.map_cons, pollLoop, hrun]
    dsimp only
    rw [hmore, hprinted]
    rcases htells : a.tells with _ | _
    · rw [List.takeWhile_cons_of_neg (by simp [htells]), hquiet htells]
      exact ⟨_, rfl, rfl, rfl⟩
    · obtain ⟨s', hs', hqueries, hprinted'⟩ := ih
        { queries := s.queries + 1
          printed := s.printed ++ a.texts.map cString
          lines := d.lines }
      rw [List.takeWhile_cons_of_pos htells]
      refine ⟨s', hs', ?_, ?_⟩
      · rw [hqueries, List.length_cons]
        dsimp only
        omega
      · rw [hprinted', List.flatMap_cons, List.map_append, List.append_assoc]

end Services

/-! ### The loop of `backup.cpp` on answers -/

/-- An answer is printed if it begins with a line that is not empty. -/
theorem streamBody_answer (a : Answer) : streamBody a.buffer = .ok (a.first?.map cString) := by
  have hnone : ∀ {tag : UInt8} {rest : List UInt8}, a.buffer = tag :: rest → tag ≠ iscInfoSvcLine →
      streamBody a.buffer = .ok none := by
    intro tag rest hbuf htag
    rw [streamBody, hbuf, readAt_eq_ok.2 (memory_of_drop (List.drop_zero (l := tag :: rest))).1,
      ok_bind, if_pos htag]
    rfl
  obtain ⟨items, padding⟩ := a
  rcases items with _ | ⟨i, items⟩
  · exact hnone rfl (by decide)
  cases i with
  | timeout | dataNotReady | truncated => exact hnone rfl (by decide)
  | line text =>
    obtain ⟨text, htext⟩ := text
    generalize hrest : items.flatMap AnswerItem.encode ++ iscInfoEnd :: padding = rest
    have hbuf : (⟨.line ⟨text, htext⟩ :: items, padding⟩ : Answer).buffer =
        iscInfoSvcLine :: (le16 text.length ++ (text ++ rest)) := by
      rw [Answer.buffer, List.flatMap_cons, List.append_assoc, hrest, AnswerItem.encode,
        List.cons_append, List.append_assoc]
    have hlength : u16 (memory (iscInfoSvcLine :: (le16 text.length ++ (text ++ rest)))) 1 =
        .ok text.length :=
      u16_of_holds (by omega) (holds_memory_of_isPrefix ⟨text ++ rest, rfl⟩)
    rw [hbuf, streamBody, readAt_eq_ok.2 (show memory (iscInfoSvcLine :: _) 0 = _ from rfl),
      ok_bind, if_neg (by decide), hlength, ok_bind]
    rcases text with _ | ⟨x, text⟩
    · rfl
    · rw [if_neg (by exact Nat.succ_ne_zero _),
        printString_of_holds (holds_memory_of_isPrefix ⟨rest, rfl⟩)]
      rfl

/-- **The loop of `backup.cpp`** prints the first line of each answer, and goes on as long as
answers begin with a line that is not empty. -/
theorem streamServiceOutput_eq (earlier : List Answer) {final : Answer}
    (hfinal : final.first? = none) (s : Output) :
    streamServiceOutput ((earlier ++ [final]).map Answer.buffer) s =
      some (.ok
        { queries := s.queries + (earlier.takeWhile (·.first?.isSome)).length + 1
          printed := s.printed ++
            ((earlier.takeWhile (·.first?.isSome)).filterMap Answer.first?).map cString }) := by
  induction earlier generalizing s with
  | nil =>
    rw [List.nil_append, List.map_singleton, streamServiceOutput, streamBody_answer, hfinal]
    simp
  | cons a earlier ih =>
    rw [List.cons_append, List.map_cons, streamServiceOutput, streamBody_answer]
    rcases hfirst : a.first? with _ | text
    · rw [List.takeWhile_cons_of_neg (by simp [hfirst])]
      simp
    · rw [List.takeWhile_cons_of_pos (by simp [hfirst]), List.filterMap_cons_some hfirst]
      dsimp only [Option.map_some]
      rw [ih]
      simp [Nat.add_assoc, Nat.add_comm]

/-! ### Both loops -/

/-- Both loops print all lines that are not empty, and stop after the same answer. -/
def OutputAgree (portable : UInt8 → UInt8 → ℤ) (answers : List Answer) : Prop :=
  ∃ (s : Poll) (t : Output),
    pollLoop portable (answers.map Answer.buffer) ⟨⟨0, []⟩, 0⟩ = some (.ok s) ∧
      streamServiceOutput (answers.map Answer.buffer) ⟨0, []⟩ = some (.ok t) ∧
      s.printed = answers.flatMap Answer.texts ∧ t.printed = answers.flatMap Answer.texts ∧
      s.queries = t.queries

/-- The line that an answer begins with is the first of its lines. -/
theorem Answer.texts_of_first? {a : Answer} {text : List UInt8} (h : a.first? = some text) :
    ∃ rest, a.texts = text :: rest := by
  obtain ⟨items, padding⟩ := a
  rcases items with _ | ⟨i, items⟩
  · cases h
  · exact ⟨items.filterMap AnswerItem.text?, List.filterMap_cons_some h⟩

theorem Answer.tells_of_first? {a : Answer} (h : a.first?.isSome = true) : a.tells = true := by
  obtain ⟨text, htext⟩ := Option.isSome_iff_exists.1 h
  obtain ⟨rest, hrest⟩ := Answer.texts_of_first? htext
  exact Answer.tells_of_mem_texts (hrest ▸ List.mem_cons_self)

/-- Two scans of a list stop at the same place if the one that may stop earlier finds what it looks
for as far as the other one goes. -/
theorem takeWhile_eq_of_forall {α : Type} {p q : α → Bool} (hpq : ∀ a, p a = true → q a = true)
    {l : List α} (h : ∀ a ∈ l.takeWhile q, p a = true) : l.takeWhile p = l.takeWhile q := by
  induction l with
  | nil => rfl
  | cons a l ih =>
    rcases hq : q a with _ | _
    · have hp : p a = false := Bool.eq_false_iff.2 fun h ↦ by simp [hpq a h] at hq
      rw [List.takeWhile_cons_of_neg (by simp [hp]), List.takeWhile_cons_of_neg (by simp [hq])]
    · rw [List.takeWhile_cons_of_pos hq, List.forall_mem_cons] at h
      rw [List.takeWhile_cons_of_pos h.1, List.takeWhile_cons_of_pos hq, ih h.2]

theorem takeWhile_eq_of_length_eq {α : Type} {p q : α → Bool} {l : List α}
    (h : (l.takeWhile p).length = (l.takeWhile q).length) : l.takeWhile p = l.takeWhile q :=
  (List.prefix_of_prefix_length_le (List.takeWhile_prefix p) (List.takeWhile_prefix q)
    (Nat.le_of_eq h)).eq_of_length h

/-- Answers that begin with a line have one for each of them, and no more, only if none has a second
one. -/
theorem length_le_texts {as : List Answer} (hfirst : ∀ a ∈ as, a.first?.isSome = true) :
    as.length ≤ (as.flatMap Answer.texts).length := by
  induction as with
  | nil => exact Nat.le_refl 0
  | cons a as ih =>
    obtain ⟨ha, has⟩ := List.forall_mem_cons.1 hfirst
    obtain ⟨text, htext⟩ := Option.isSome_iff_exists.1 ha
    obtain ⟨rest, hrest⟩ := Answer.texts_of_first? htext
    have hle := ih has
    rw [List.flatMap_cons, List.length_append, hrest, List.length_cons, List.length_cons]
    omega

theorem texts_eq_singleton {as : List Answer} (hfirst : ∀ a ∈ as, a.first?.isSome = true)
    (hlength : (as.flatMap Answer.texts).length ≤ as.length) :
    ∀ a ∈ as, ∃ text, a.first? = some text ∧ a.texts = [text] := by
  induction as with
  | nil => exact fun _ h ↦ absurd h List.not_mem_nil
  | cons a as ih =>
    obtain ⟨ha, has⟩ := List.forall_mem_cons.1 hfirst
    obtain ⟨text, htext⟩ := Option.isSome_iff_exists.1 ha
    obtain ⟨rest, hrest⟩ := Answer.texts_of_first? htext
    have hle := length_le_texts has
    rw [List.flatMap_cons, List.length_append, hrest, List.length_cons, List.length_cons] at hlength
    refine List.forall_mem_cons.2 ⟨⟨text, htext, ?_⟩, ih has (by omega)⟩
    rw [hrest, List.length_eq_zero_iff.1 (show rest.length = 0 by omega)]

/-- What is printed of answers with one line each. -/
theorem map_cString_of_single {as : List Answer} (has : ∀ a ∈ as, a.Single) :
    (as.flatMap Answer.texts).map cString = as.flatMap Answer.texts := by
  refine (List.map_congr_left (g := id) fun text htext ↦ ?_).trans (List.map_id _)
  obtain ⟨a, ha, htext⟩ := List.mem_flatMap.1 htext
  obtain ⟨text', -, htexts, hzero⟩ := has a ha
  rw [htexts, List.mem_singleton] at htext
  rw [htext]
  exact cString_eq_self hzero

theorem filterMap_first?_of_single {as : List Answer} (has : ∀ a ∈ as, a.Single) :
    as.filterMap Answer.first? = as.flatMap Answer.texts := by
  rw [List.filterMap_eq_flatMap_toList]
  refine List.flatMap_congr fun a ha ↦ ?_
  obtain ⟨text, htext, htexts, -⟩ := has a ha
  rw [htext, htexts, Option.toList_some]

theorem zero_notMem_of_cString {text : List UInt8} (h : cString text = text) : 0 ∉ text :=
  fun hzero ↦ absurd rfl (of_decide_eq_true (List.takeWhile_eq_self_iff.1 h 0 hzero))

/-- **The two loops agree** exactly if each answer, up to the one that has nothing but empty lines,
is a single line that is not empty and has no NUL, possibly with notes and empty lines behind it,
and there are no lines that are not empty in the answers after that. -/
theorem output_agree_iff {portable : UInt8 → UInt8 → ℤ}
    (hportable : ∀ n < 32768, portable (UInt8.ofNat n) (UInt8.ofNat (n / 256)) = n)
    (earlier : List Answer) (padding : List UInt8) :
    OutputAgree portable (earlier ++ [finished padding]) ↔
      (∀ a ∈ earlier.takeWhile Answer.tells, a.Single) ∧
        ∀ a ∈ earlier.dropWhile Answer.tells, a.texts = [] := by
  have hall : (earlier ++ [finished padding]).flatMap Answer.texts =
      (earlier.takeWhile Answer.tells).flatMap Answer.texts ++
        (earlier.dropWhile Answer.tells).flatMap Answer.texts := by
    rw [← List.flatMap_append, List.takeWhile_append_dropWhile, List.flatMap_append]
    exact List.append_nil _
  obtain ⟨s, hs, hqueries, hprinted⟩ :=
    pollLoop_eq hportable earlier (show (finished padding).tells = false from rfl) ⟨⟨0, []⟩, 0⟩
  have ht := streamServiceOutput_eq earlier (show (finished padding).first? = none from rfl) ⟨0, []⟩
  rw [OutputAgree, hall]
  dsimp only at hqueries hprinted ht
  rw [Nat.zero_add] at hqueries ht
  rw [List.nil_append] at hprinted ht
  constructor
  · rintro ⟨s', t, hs', ht', hprinted₁, hprinted₂, hsame⟩
    obtain rfl := Except.ok.inj (Option.some.inj (hs.symm.trans hs'))
    obtain rfl := Except.ok.inj (Option.some.inj (ht.symm.trans ht'))
    have hlead : earlier.takeWhile (·.first?.isSome) = earlier.takeWhile Answer.tells :=
      takeWhile_eq_of_length_eq (Nat.succ.inj (hsame.symm.trans hqueries))
    -- the first loop prints no more lines than it finds
    have hquiet : (earlier.dropWhile Answer.tells).flatMap Answer.texts = [] := by
      have hlength := congrArg List.length (hprinted.symm.trans hprinted₁)
      rw [List.length_map, List.length_append] at hlength
      exact List.length_eq_zero_iff.1 (by omega)
    rw [hquiet, List.append_nil] at hprinted₁ hprinted₂
    rw [hlead] at hprinted₂
    have hfirst : ∀ a ∈ earlier.takeWhile Answer.tells, a.first?.isSome = true := by
      rw [← hlead]
      exact fun a ha ↦ List.mem_takeWhile_imp (p := fun a : Answer ↦ a.first?.isSome) ha
    -- and the second one no more than one of an answer
    have hsingle := texts_eq_singleton hfirst (by
      rw [← hprinted₂, List.length_map]
      exact List.length_filterMap_le _ _)
    refine ⟨fun a ha ↦ ?_, List.flatMap_eq_nil_iff.1 hquiet⟩
    obtain ⟨text, htext, htexts⟩ := hsingle a ha
    have hmem : text ∈ (earlier.takeWhile Answer.tells).flatMap Answer.texts :=
      List.mem_flatMap.2 ⟨a, ha, htexts ▸ List.mem_singleton_self text⟩
    have hself : cString text = id text :=
      List.map_inj_left.1 ((hprinted.symm.trans hprinted₁).trans (List.map_id _).symm) text hmem
    exact ⟨text, htext, htexts, zero_notMem_of_cString hself⟩
  · rintro ⟨htalk, hrest⟩
    have hlead : earlier.takeWhile (·.first?.isSome) = earlier.takeWhile Answer.tells := by
      refine takeWhile_eq_of_forall (fun a ↦ Answer.tells_of_first?) fun a ha ↦ ?_
      obtain ⟨text, htext, -⟩ := htalk a ha
      exact Option.isSome_iff_exists.2 ⟨text, htext⟩
    have hprint := map_cString_of_single htalk
    rw [List.flatMap_eq_nil_iff.2 hrest, List.append_nil]
    refine ⟨s, _, hs, ht, hprinted.trans hprint, ?_, ?_⟩
    · rw [hlead, filterMap_first?_of_single htalk, hprint]
    · rw [hqueries, hlead]

/-- The client library's reading, with the sign in the last byte, is the one expected. -/
theorem signed_portable (n : ℕ) (hn : n < 32768) :
    LittleEndian.signed [UInt8.ofNat n, UInt8.ofNat (n / 256)] = n := by
  have hvalue : LittleEndian.value [UInt8.ofNat n, UInt8.ofNat (n / 256)] = n := by
    rw [LittleEndian.value_cons, LittleEndian.value_singleton, UInt8.toNat_ofNat',
      UInt8.toNat_ofNat']
    omega
  refine (LittleEndian.signed_eq_value_iff.2 ?_).trans (congrArg _ hvalue)
  rw [hvalue, List.length_cons, List.length_singleton]
  omega

theorem output_agree_oneLine :
    OutputAgree (fun lo hi ↦ LittleEndian.signed [lo, hi])
      [⟨[.line ⟨[97], by decide⟩, .timeout], []⟩, finished []] :=
  (output_agree_iff signed_portable [⟨[.line ⟨[97], by decide⟩, .timeout], []⟩] []).2
    ⟨List.forall_mem_singleton.2 ⟨[97], rfl, rfl, by decide⟩, fun _ h ↦ absurd h List.not_mem_nil⟩

/-- Of two lines in an answer, the loop of `backup.cpp` prints the first one. -/
theorem not_output_agree_of_two_lines :
    ¬ OutputAgree (fun lo hi ↦ LittleEndian.signed [lo, hi])
      [⟨[.line ⟨[97], by decide⟩, .line ⟨[98], by decide⟩], []⟩, finished []] := by
  rintro ⟨s, t, -, ht, -, hprinted, -⟩
  have hfinal : (finished []).first? = none := rfl
  have hrun : streamServiceOutput _ _ = _ := streamServiceOutput_eq
    [⟨[.line ⟨[97], by decide⟩, .line ⟨[98], by decide⟩], []⟩] hfinal ⟨0, []⟩
  obtain rfl := Except.ok.inj (Option.some.inj (hrun.symm.trans ht))
  exact absurd hprinted (by decide)

end FirebirdSamples.Info
