import FirebirdSamples.Blr.Twins

/-!
# The hexadecimal dump

`hexDump` of `samples/cpp/blr.cpp` and `hex_dump` of its Python twin print the first bytes of the
BLR, sixteen to a line, and the number of all of them. The C++ function writes a separator behind
each byte, by its index. The Python function joins slices, and puts the number on a line of its own
or behind the last one.

They print the same (`hexDump_eq`). What the C++ loop prints of a full line ends with a line break
(`printed_row`), so that both functions can be followed line by line; the last line has less than
sixteen bytes, and may have none.
-/

namespace FirebirdSamples.Blr

open Fallible

/-- `%02x`: lower-case hexadecimal digits, with zeros up to two. -/
def format02x (b : UInt8) : List Char :=
  let digits := Nat.toDigits 16 b.toNat
  List.replicate (2 - digits.length) '0' ++ digits

/-! ### The C++ function -/

/-- What is printed behind the byte at an index. -/
def separator (i : ℕ) : List Char :=
  if i % 16 = 15 then ['\n'] else [' ']

/-- The loop of `hexDump`, from an index on. -/
def hexDumpLoop (b : List UInt8) (limit i : ℕ) : List Char :=
  if h : i < b.length ∧ i < limit then
    format02x b[i] ++ (separator i ++ hexDumpLoop b limit (i + 1))
  else []
termination_by b.length - i

/-- `hexDump(b, limit)`: what is printed. -/
def hexDump (b : List UInt8) (limit : ℕ) : List Char :=
  hexDumpLoop b limit 0 ++
    if limit < b.length then
      "... (".toList ++ (Nat.toDigits 10 b.length ++ " bytes total)\n".toList)
    else "(".toList ++ (Nat.toDigits 10 b.length ++ " bytes total)\n".toList)

/-! ### The Python function -/

namespace Python

/-- `' '.join(f'{x:02x}' for x in s)`. -/
def joinBytes (s : List UInt8) : List Char :=
  List.intercalate [' '] (s.map format02x)

/-- The lines of sixteen bytes. -/
def lines (shown : List UInt8) : List (List Char) :=
  (List.range' 0 ((shown.length + 15) / 16) 16).map fun i ↦ joinBytes (slice shown i (i + 16))

/-- The last lines: `lines[-1]` is changed, or one is appended. -/
def addTail (shown : List UInt8) (tail : List Char) (lines : List (List Char)) :
    Except Exc (List (List Char)) :=
  if shown.length % 16 ≠ 0 then
    match lines.getLast? with
    | none => .error .indexError
    | some last => .ok (lines.dropLast ++ [last ++ ' ' :: tail])
  else .ok (lines ++ [tail])

/-- `hex_dump(b, limit)`: what is printed. -/
def hexDump (b : List UInt8) (limit : ℕ) : Except Exc (List Char) := do
  let shown := slice b 0 limit
  let tail :=
    if limit < b.length then
      "... (".toList ++ (Nat.toDigits 10 b.length ++ " bytes total)".toList)
    else "(".toList ++ (Nat.toDigits 10 b.length ++ " bytes total)".toList)
  let lines ← addTail shown tail (lines shown)
  pure (List.intercalate ['\n'] lines ++ ['\n'])

end Python

/-! ### Bytes with blanks between them -/

namespace Python

theorem joinBytes_singleton (x : UInt8) : joinBytes [x] = format02x x :=
  List.intercalate_singleton

theorem joinBytes_cons (x : UInt8) {s : List UInt8} (hne : s ≠ []) :
    joinBytes (x :: s) = format02x x ++ ' ' :: joinBytes s := by
  rw [joinBytes, List.map_cons, List.intercalate_cons_of_ne_nil (List.map_eq_nil_iff.not.2 hne),
    List.append_assoc]
  rfl

theorem joinBytes_append_space {s : List UInt8} (hne : s ≠ []) :
    joinBytes s ++ [' '] = s.flatMap fun x ↦ format02x x ++ [' '] := by
  induction s with
  | nil => exact absurd rfl hne
  | cons x s ih =>
    rcases eq_or_ne s [] with rfl | hs
    · rw [joinBytes_singleton, List.flatMap_singleton]
    · rw [joinBytes_cons x hs, List.flatMap_cons, ← ih hs, List.append_assoc, List.append_assoc]
      rfl

end Python

/-! ### Lines of the C++ function -/

/-- What the loop prints of the bytes that are left, from an index on. -/
def printed : ℕ → List UInt8 → List Char
  | _, [] => []
  | i, x :: s => format02x x ++ (separator i ++ printed (i + 1) s)

theorem hexDumpLoop_eq (b : List UInt8) (limit i : ℕ) :
    hexDumpLoop b limit i = printed i ((b.take limit).drop i) := by
  induction i using hexDumpLoop.induct b limit with
  | case1 i h ih =>
    have hlt : i < (b.take limit).length := by
      rw [List.length_take]
      omega
    rw [hexDumpLoop, dif_pos h, ih, List.drop_eq_getElem_cons hlt, List.getElem_take]
    rfl
  | case2 i h =>
    have hle : (b.take limit).length ≤ i := by
      rw [List.length_take]
      omega
    rw [hexDumpLoop, dif_neg h, List.drop_eq_nil_of_le hle]
    rfl

/-- A line that is not full. -/
theorem printed_of_lt {i : ℕ} {s : List UInt8} (h : i % 16 + s.length < 16) :
    printed i s = s.flatMap fun x ↦ format02x x ++ [' '] := by
  induction s generalizing i with
  | nil => rfl
  | cons x s ih =>
    rw [List.length_cons] at h
    rw [printed, separator, if_neg (by omega), ih (by omega), List.flatMap_cons, List.append_assoc]

/-- The rest of a full line, which is not empty. -/
theorem printed_row {i : ℕ} {row : List UInt8} (hne : row ≠ []) (h : i % 16 + row.length = 16)
    (s : List UInt8) :
    printed i (row ++ s) = Python.joinBytes row ++ '\n' :: printed (i + row.length) s := by
  induction row generalizing i with
  | nil => exact absurd rfl hne
  | cons x row ih =>
    rw [List.length_cons] at h
    rw [List.cons_append, printed, separator, List.length_cons]
    rcases eq_or_ne row [] with rfl | hrow
    · rw [List.length_nil] at h
      rw [if_pos (by omega), Python.joinBytes_singleton]
      rfl
    · have hpos := List.length_pos_iff.2 hrow
      rw [if_neg (by omega), ih hrow (by omega), Python.joinBytes_cons x hrow, Nat.add_assoc,
        Nat.add_comm 1]
      simp only [List.append_assoc, List.cons_append, List.nil_append]

/-! ### Lines of the Python function -/

namespace Python

/-- A full line in front. -/
theorem lines_row {row : List UInt8} (h : row.length = 16) (s : List UInt8) :
    lines (row ++ s) = joinBytes row :: lines s := by
  have hcount : ((row ++ s).length + 15) / 16 = (s.length + 15) / 16 + 1 := by
    rw [List.length_append]
    omega
  have hfirst : slice (row ++ s) 0 16 = row := by
    rw [slice, ← h, List.take_left, List.drop_zero]
  have hrest : ∀ i, slice (row ++ s) (16 + i) (16 + i + 16) = slice s i (i + 16) := by
    intro i
    rw [slice, slice, Nat.add_assoc, ← h, List.take_length_add_append, List.drop_length_add_append]
  rw [lines, hcount, List.range'_succ, List.map_cons, Nat.zero_add, hfirst, lines,
    ← Nat.add_zero 16, ← List.map_add_range', List.map_map]
  refine congrArg _ (List.map_congr_left fun i _ ↦ ?_)
  exact congrArg joinBytes (hrest i)

/-- A line that is not full is the only one, if there is one. -/
theorem lines_of_lt {s : List UInt8} (hne : s ≠ []) (h : s.length < 16) :
    lines s = [joinBytes s] := by
  have hpos := List.length_pos_iff.2 hne
  have hcount : (s.length + 15) / 16 = 1 := by omega
  rw [lines, hcount]
  show [joinBytes (slice s 0 (0 + 16))] = _
  rw [slice, List.drop_zero, List.take_of_length_le (by omega)]

/-- A line in front does not matter to the last ones. -/
theorem addTail_cons {s s' : List UInt8} {tail line : List Char} {ls ls' : List (List Char)}
    (hmod : s'.length % 16 = s.length % 16) (h : addTail s tail ls = .ok ls') :
    addTail s' tail (line :: ls) = .ok (line :: ls') := by
  rw [addTail] at h ⊢
  rw [hmod]
  split_ifs at h ⊢ with hfull
  · rcases hlast : ls.getLast? with _ | last
    · rw [hlast] at h
      cases h
    · rw [hlast] at h
      obtain rfl := Except.ok.inj h
      have hne : ls ≠ [] := fun hnil ↦ by
        rw [hnil] at hlast
        cases hlast
      rw [List.getLast?_cons_of_ne_nil hne, hlast, List.dropLast_cons_of_ne_nil hne]
      rfl
  · obtain rfl := Except.ok.inj h
    rfl

/-- **The lines are what the C++ loop prints**, with the tail. -/
theorem addTail_lines {i : ℕ} (hi : i % 16 = 0) (shown : List UInt8) (tail : List Char) :
    ∃ ls, addTail shown tail (lines shown) = .ok ls ∧ ls ≠ [] ∧
      List.intercalate ['\n'] ls = printed i shown ++ tail := by
  induction hn : shown.length using Nat.strongRecOn generalizing i shown with
  | ind n ih =>
    rcases Nat.lt_or_ge shown.length 16 with hlt | hge
    · rcases eq_or_ne shown [] with rfl | hne
      · exact ⟨[tail], rfl, List.cons_ne_nil _ _, List.intercalate_singleton⟩
      · have hpos := List.length_pos_iff.2 hne
        refine ⟨[joinBytes shown ++ ' ' :: tail], ?_, List.cons_ne_nil _ _, ?_⟩
        · rw [lines_of_lt hne hlt, addTail, if_pos (by omega)]
          rfl
        · rw [List.intercalate_singleton, printed_of_lt (by omega), ← joinBytes_append_space hne,
            List.append_assoc]
          rfl
    · obtain ⟨row, s, rfl, hrow⟩ : ∃ row s, shown = row ++ s ∧ row.length = 16 :=
        ⟨shown.take 16, shown.drop 16, (List.take_append_drop 16 shown).symm,
          List.length_take_of_le hge⟩
      rw [List.length_append] at hn
      obtain ⟨ls, htail, hne, hprinted⟩ := ih s.length (by omega) (i := i + 16) (by omega) s rfl
      have hrowne : row ≠ [] := fun hnil ↦ by
        rw [hnil] at hrow
        cases hrow
      refine ⟨joinBytes row :: ls, ?_, List.cons_ne_nil _ _, ?_⟩
      · rw [lines_row hrow]
        refine addTail_cons ?_ htail
        rw [List.length_append]
        omega
      · rw [List.intercalate_cons_of_ne_nil hne, hprinted, printed_row hrowne (by omega), hrow]
        simp only [List.append_assoc, List.cons_append, List.nil_append]

end Python

/-- **The two functions print the same.** -/
theorem hexDump_eq (b : List UInt8) (limit : ℕ) :
    Python.hexDump b limit = .ok (hexDump b limit) := by
  have hshown : Python.slice b 0 limit = b.take limit := List.drop_zero
  obtain ⟨ls, htail, -, hprinted⟩ := Python.addTail_lines (i := 0) rfl (b.take limit)
    (if limit < b.length then
      "... (".toList ++ (Nat.toDigits 10 b.length ++ " bytes total)".toList)
    else "(".toList ++ (Nat.toDigits 10 b.length ++ " bytes total)".toList))
  have hloop := hexDumpLoop_eq b limit 0
  rw [List.drop_zero] at hloop
  rw [Python.hexDump, hshown, htail, ok_bind, hprinted, hexDump, hloop]
  refine congrArg Except.ok ?_
  rw [List.append_assoc]
  split_ifs <;> simp

end FirebirdSamples.Blr
