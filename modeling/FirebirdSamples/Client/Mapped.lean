import FirebirdSamples.Library.BufferedLines
import Mathlib.Data.List.TakeWhile

/-!
# Is the engine mapped

`mapped` of `embedded_demo.cpp` (for the C++ interface and for `fb-cpp`) looks for the name of a
library in the memory map of the process. It reads the map through a buffer of 512 characters and
searches each piece as a C string. Its Go twin searches the map as a whole.

The C++ sample finds nothing that is not there, but a name may lie across two pieces of a long line,
or behind a NUL. `mapped_found_iff` says exactly what is found. In a map without NULs the samples
give the same answer as long as no line is longer than the buffer.
-/

namespace FirebirdSamples.Client.EmbeddedDemo

open BufferedLines

/-- The content of `/proc/self/maps`, if it can be read. -/
abbrev Maps : Type :=
  Option (List UInt8)

/-- The character that ends a line. -/
def newline : UInt8 :=
  10

/-- A search in a text. -/
def contains (text frag : List UInt8) : Bool :=
  text.tails.any (frag.isPrefixOf ·)

/-! ### The C++ sample -/

namespace Cpp

/-- The string at the start of a buffer. -/
def cString (buffer : List UInt8) : List UInt8 :=
  buffer.takeWhile (· ≠ 0)

/-- `strstr(line, frag)` is not null. -/
def strstr (line frag : List UInt8) : Bool :=
  contains (cString line) frag

/-- `mapped(frag)`. With `char line[512]` there is room for 511 characters and a NUL. -/
def mapped : Maps → List UInt8 → Bool
  | none, _ => false
  | some content, frag =>
    (pieces newline 510 content).any fun line ↦ strstr (line ++ [0]) frag

end Cpp

/-! ### The Go sample -/

/-- `mapped(frag)`. -/
def Go.mapped (maps : Maps) (frag : List UInt8) : String :=
  match maps with
  | some b => if contains b frag then "yes" else "no"
  | none => "no"

/-! ### What is found -/

section Found

variable {text frag : List UInt8}

theorem contains_iff : contains text frag = true ↔ ∃ u v, text = u ++ frag ++ v := by
  rw [contains, List.any_eq_true]
  simp only [List.mem_tails, List.isPrefixOf_iff_prefix]
  constructor
  · rintro ⟨t, ⟨u, rfl⟩, v, rfl⟩
    exact ⟨u, v, (List.append_assoc u frag v).symm⟩
  · rintro ⟨u, v, rfl⟩
    exact ⟨frag ++ v, ⟨u, (List.append_assoc u frag v).symm⟩, v, rfl⟩

theorem cString_append_zero (text : List UInt8) : Cpp.cString (text ++ [0]) = Cpp.cString text := by
  induction text with
  | nil => rfl
  | cons x text ih =>
    rw [Cpp.cString, List.cons_append, List.takeWhile_cons, Cpp.cString, List.takeWhile_cons]
    split_ifs
    · exact congrArg (x :: ·) ih
    · rfl

/-- A C string is found in a buffer if there is no NUL in front. -/
theorem strstr_iff (hnul : 0 ∉ frag) :
    Cpp.strstr (text ++ [0]) frag = true ↔ ∃ u v, text = u ++ frag ++ v ∧ 0 ∉ u := by
  rw [Cpp.strstr, cString_append_zero, contains_iff]
  constructor
  · rintro ⟨u, v, h⟩
    have hmem : ∀ x ∈ Cpp.cString text, x ≠ 0 := fun x hx ↦ by
      simpa using List.mem_takeWhile_imp hx
    refine ⟨u, v ++ text.dropWhile (· ≠ 0), ?_, fun hu ↦ hmem 0 (h ▸ by simp [hu]) rfl⟩
    rw [← List.append_assoc, ← h]
    exact (List.takeWhile_append_dropWhile).symm
  · rintro ⟨u, v, rfl, hu⟩
    have hfront : ∀ x ∈ u ++ frag, decide (x ≠ 0) = true := by
      intro x hx
      rw [decide_eq_true_iff]
      rintro rfl
      exact List.not_mem_append hu hnul hx
    exact ⟨u, Cpp.cString v, List.takeWhile_append_of_pos hfront⟩

theorem Cpp.mapped_iff (content : List UInt8) (hfrag : frag ≠ []) (hnul : 0 ∉ frag) :
    Cpp.mapped (some content) frag = true ↔
      ∃ u v, content = u ++ frag ++ v ∧ Fits newline 511 frag (0 ∉ ·) u := by
  rw [Cpp.mapped, List.any_eq_true, ← exists_mem_pieces_iff hfrag]
  simp only [strstr_iff hnul]

theorem Go.mapped_iff (content frag : List UInt8) :
    Go.mapped (some content) frag = "yes" ↔ ∃ u v, content = u ++ frag ++ v := by
  rw [Go.mapped, ← contains_iff]
  show (if _ then _ else _) = _ ↔ _
  split_ifs with h
  · exact iff_of_true rfl h
  · exact iff_of_false (by decide) h

end Found

/-- No line is longer than the buffer. -/
def ShortLines (content : List UInt8) : Prop :=
  ∀ u line v, content = u ++ line ++ v → newline ∉ line → line.length ≤ 511

/-- On a short line, a name fits into the buffer. -/
theorem fits_of_shortLines {frag u v : List UInt8} (hline : newline ∉ frag)
    (hshort : ShortLines (u ++ frag ++ v)) (hfrag : frag ≠ []) (hnul : 0 ∉ u) :
    Fits newline 511 frag (0 ∉ ·) u := by
  have hpos := List.length_pos_iff.2 hfrag
  obtain ⟨l, t, hu, ht, hcolumn⟩ := exists_column newline u
  have hlength := hshort l (t ++ frag) v (by rw [hu]; simp) (List.not_mem_append ht hline)
  rw [List.length_append] at hlength
  refine ⟨fun h ↦ hline (List.mem_of_mem_dropLast h), ?_, fun h ↦ hnul (List.mem_of_mem_drop h)⟩
  rw [hcolumn, Nat.mod_eq_of_lt (by omega)]
  exact hlength

/-- **What the C++ sample finds**: a name that lies on one line, in one piece of it, with no NUL in
front in this piece. The Go sample finds the name anywhere. So the C++ sample finds nothing that is
not there, and if no line is longer than the buffer, it finds what is there. -/
theorem mapped_found_iff (content : List UInt8) {frag : List UInt8} (hfrag : frag ≠ [])
    (hnul : 0 ∉ frag) :
    (Cpp.mapped (some content) frag = true ↔
      ∃ u v, content = u ++ frag ++ v ∧ Fits newline 511 frag (0 ∉ ·) u) ∧
    (Go.mapped (some content) frag = "yes" ↔ ∃ u v, content = u ++ frag ++ v) ∧
    (Cpp.mapped (some content) frag = true → Go.mapped (some content) frag = "yes") ∧
    (newline ∉ frag → 0 ∉ content → ShortLines content →
      (Cpp.mapped (some content) frag = true ↔ Go.mapped (some content) frag = "yes")) := by
  have hcpp := Cpp.mapped_iff content hfrag hnul
  have hgo := Go.mapped_iff content frag
  have hsound : Cpp.mapped (some content) frag = true → Go.mapped (some content) frag = "yes" := by
    rw [hcpp, hgo]
    rintro ⟨u, v, h, -⟩
    exact ⟨u, v, h⟩
  refine ⟨hcpp, hgo, hsound, fun hline hcontent hshort ↦ ⟨hsound, ?_⟩⟩
  rw [hcpp, hgo]
  rintro ⟨u, v, rfl⟩
  exact ⟨u, v, rfl, fits_of_shortLines hline hshort hfrag fun h ↦ hcontent (by simp [h])⟩

/-- `libEngine14`. -/
def libEngine14 : List UInt8 :=
  [108, 105, 98, 69, 110, 103, 105, 110, 101, 49, 52]

/-- The name is found on the line `7 libEngine14.so`. -/
theorem mapped_found_iff_libEngine14 :
    Cpp.mapped (some ([55, 32] ++ libEngine14 ++ [46, 115, 111, 10])) libEngine14 = true :=
  (mapped_found_iff _ (by decide) (by decide)).1.2
    ⟨[55, 32], [46, 115, 111, 10], rfl, by decide, by decide, by decide⟩

/-- **The buffer matters**: every name of two characters or more is missed on a line that is one
character longer than the buffer. -/
theorem exists_not_mapped {x : UInt8} {frag : List UInt8} (hnul : 0 ∉ x :: frag)
    (hlength : 0 < frag.length) (hlength' : frag.length ≤ 511) :
    ∃ content, 0 ∉ content ∧ Go.mapped (some content) (x :: frag) = "yes" ∧
      Cpp.mapped (some content) (x :: frag) = false := by
  obtain ⟨y, hyx, hyline, hynul⟩ : ∃ y, y ≠ x ∧ y ≠ newline ∧ y ≠ 0 := by
    by_cases hx : x = 1
    · exact ⟨2, by rw [hx]; decide, by decide, by decide⟩
    · exact ⟨1, Ne.symm hx, by decide, by decide⟩
  have hfront : ∀ z, z ≠ y → z ∉ List.replicate (511 - frag.length) y := fun z hz h ↦
    hz (List.eq_of_mem_replicate h)
  refine ⟨List.replicate (511 - frag.length) y ++ x :: frag,
    List.not_mem_append (hfront 0 (Ne.symm hynul)) hnul,
    (Go.mapped_iff _ _).2 ⟨_, [], (List.append_nil _).symm⟩, ?_⟩
  rw [← Bool.not_eq_true, Cpp.mapped_iff _ (List.cons_ne_nil x frag) hnul]
  rintro ⟨u, v, hsplit, hfits⟩
  have hlen := congrArg List.length hsplit
  rw [List.length_append, List.length_replicate, List.length_append, List.length_append] at hlen
  rw [List.append_assoc] at hsplit
  have hu : u.length = 511 - frag.length := by
    by_contra hne
    have hat := congrArg (·[u.length]?) hsplit
    beta_reduce at hat
    rw [List.getElem?_append_left (by rw [List.length_replicate]; omega),
      List.getElem?_replicate_of_lt (by omega), List.getElem?_append_right (Nat.le_refl _),
      Nat.sub_self] at hat
    exact hyx (Option.some.inj hat)
  obtain ⟨rfl, -⟩ := List.append_inj hsplit (by rw [List.length_replicate, hu])
  have hle := hfits.le
  rw [column_of_notMem (hfront newline (Ne.symm hyline)), hu, Nat.mod_eq_of_lt (by omega),
    List.length_cons] at hle
  omega

end FirebirdSamples.Client.EmbeddedDemo
