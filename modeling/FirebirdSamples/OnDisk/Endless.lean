import FirebirdSamples.OnDisk.Census

/-!
# Where the census ends

The page size of the census comes from the file, so it may be zero. A loop that goes on by pages of
no bytes reads the same byte again and again. The C++ sample does, and so do its Python and Go twins
`samples/python/ods_header.py` and `samples/go/ods_header/main.go`, whose loops are modelled here.
The Rust sample does until a counter overflows, and panics then.

With any other page size the distance to the end of the file gets smaller with each page
(`ByPages.ends`). So the loops end exactly if the page size is not zero (`censusEnds_iff`). The Java
and the C# sample divide by the page size first, and end with an exception if it is zero.
-/

namespace FirebirdSamples.OnDisk

/-! ### The Python sample -/

namespace Python

/-- Why there is no census. -/
inductive Abort where
  /-- `seek` takes offsets of 63 bits only. -/
  | overflowError
  /-- The bound on the rounds is used up. The sample has no such bound. -/
  | outOfFuel
  deriving DecidableEq

/-- The loop of the census, from a page on: the offsets read, the page at which it stops, and the
counters. -/
def censusLoop (file : File) (pageSize : ℕ) :
    ℕ → ℕ → Counts → Except Abort (List ℕ × ℕ × Counts)
  | 0, _, _ => .error .outOfFuel
  | fuel + 1, pages, counts =>
    if 2 ^ 63 ≤ pages * pageSize then .error .overflowError
    else
      match file.1[pages * pageSize]? with
      | none => .ok ([], pages, counts)
      | some t =>
        (censusLoop file pageSize fuel (pages + 1)
          (Function.update counts (slot t) (counts (slot t) + 1))).map
            fun r ↦ (pages * pageSize :: r.1, r.2)

/-- The line of a type, also of type 0. -/
def line (counts : Counts) (t : Fin 11) : Option ℤ :=
  if counts t ≠ 0 then some (counts t) else none

/-- The census. -/
def census (file : File) (pageSize fuel : ℕ) : Except Abort Census :=
  (censusLoop file pageSize fuel 0 fun _ ↦ 0).map fun r ↦
    { visited := r.1, pages := r.2.1, line := line r.2.2 }

end Python

/-! ### The Go sample -/

namespace Go

/-- What an `int64` holds, which wraps around. -/
def int64 (x : ℤ) : ℤ :=
  Int.bmod x 18446744073709551616

/-- The loop of the census, from a page on. -/
def censusLoop (file : File) (pageSize : ℕ) :
    ℕ → ℤ → Counts → Except Abort (List ℕ × ℤ × Counts)
  | 0, _, _ => .error .outOfFuel
  | fuel + 1, pages, counts =>
    let offset := int64 (pages * pageSize)
    if offset < 0 then
      -- `ReadAt` returns an error
      .ok ([], pages, counts)
    else
      match file.1[offset.toNat]? with
      | none => .ok ([], pages, counts)
      | some b =>
        (censusLoop file pageSize fuel (int64 (pages + 1))
          (Function.update counts (slot b) (int64 (counts (slot b) + 1)))).map
            fun r ↦ (offset.toNat :: r.1, r.2)

/-- The line of a type, also of type 0. -/
def line (counts : Counts) (t : Fin 11) : Option ℤ :=
  if 0 < counts t then some (counts t) else none

/-- The census. -/
def census (file : File) (pageSize fuel : ℕ) : Except Abort Census :=
  (censusLoop file pageSize fuel 0 fun _ ↦ 0).map fun r ↦
    { visited := r.1, pages := r.2.1, line := line r.2.2 }

end Go

/-! ### Loops with an end -/

section Ends

variable {ε α β : Type} {outOfFuel : ε}

/-- A loop ends, with a result or with an exception: it does not need more than some number of
rounds. -/
def Ends (outOfFuel : ε) (loop : ℕ → Except ε α) : Prop :=
  ∃ rounds, ∀ fuel, rounds < fuel → loop fuel ≠ .error outOfFuel

/-- What is done with a result does not matter. -/
theorem map_eq_error_iff {x : Except ε α} {f : α → β} :
    x.map f = .error outOfFuel ↔ x = .error outOfFuel := by
  rcases x with e | a
  · exact ⟨fun h ↦ congrArg _ (Except.error.inj h), fun h ↦ congrArg _ (Except.error.inj h)⟩
  · exact ⟨nofun, nofun⟩

theorem ends_map_iff {loop : ℕ → Except ε α} (f : α → β) :
    Ends outOfFuel (fun fuel ↦ (loop fuel).map f) ↔ Ends outOfFuel loop := by
  simp only [Ends, ne_eq, map_eq_error_iff]

theorem not_ends {loop : ℕ → Except ε α} (h : ∀ fuel, loop fuel = .error outOfFuel) :
    ¬ Ends outOfFuel loop := fun ⟨rounds, hrounds⟩ ↦
  hrounds (rounds + 1) (Nat.lt_succ_self rounds) (h _)

theorem ends_of_eq {loop : ℕ → Except ε α} {result : Except ε α} {rounds : ℕ}
    (h : ∀ fuel, rounds < fuel → loop fuel = result) (hresult : result ≠ .error outOfFuel) :
    Ends outOfFuel loop :=
  ⟨rounds, fun fuel hfuel ↦ by rw [h fuel hfuel]; exact hresult⟩

/-- A loop goes by pages: it is left at the first offset behind the file, and goes on with the next
page within it, unless it is left there. -/
structure ByPages (file : File) (pageSize : ℕ) (outOfFuel : ε)
    (loop : ℕ → ℕ → Counts → Except ε α) : Prop where
  stop : ∀ fuel n counts, file.1.length ≤ n * pageSize → n * pageSize < file.1.length + pageSize →
    loop (fuel + 1) n counts ≠ .error outOfFuel
  next : ∀ fuel n counts, n * pageSize < file.1.length →
    loop (fuel + 1) n counts = .error outOfFuel →
      ∃ counts', loop fuel (n + 1) counts' = .error outOfFuel

/-- **The distance to the end of the file** bounds the rounds. -/
theorem ByPages.ends {file : File} {pageSize : ℕ} {loop : ℕ → ℕ → Counts → Except ε α}
    (h : ByPages file pageSize outOfFuel loop) (hsize : 0 < pageSize) (counts : Counts) :
    Ends outOfFuel (loop · 0 counts) := by
  have hend : ∀ fuel n counts, n * pageSize < file.1.length + pageSize →
      file.1.length - n * pageSize < fuel → loop fuel n counts ≠ .error outOfFuel := by
    intro fuel
    induction fuel with
    | zero => exact fun _ _ _ hfuel ↦ absurd hfuel (Nat.not_lt_zero _)
    | succ fuel ih =>
      intro n counts hn hfuel hout
      rcases Nat.lt_or_ge (n * pageSize) file.1.length with hin | hout'
      · obtain ⟨counts', hnext⟩ := h.next fuel n counts hin hout
        refine ih (n + 1) counts' ?_ ?_ hnext
        · rw [Nat.add_mul, Nat.one_mul]
          omega
        · rw [Nat.add_mul, Nat.one_mul]
          omega
      · exact h.stop fuel n counts hout' hn hout
  exact ⟨file.1.length, fun fuel hfuel ↦ hend fuel 0 counts (by omega) (by omega)⟩

end Ends

/-! ### Pages of some bytes -/

section Pages

variable {file : File} {pageSize : ℕ}

theorem Python.byPages (file : File) (pageSize : ℕ) :
    ByPages file pageSize .outOfFuel (Python.censusLoop file pageSize) where
  stop fuel n counts hlength _ := by
    rw [Python.censusLoop, List.getElem?_eq_none hlength]
    split_ifs
    · exact nofun
    · exact nofun
  next fuel n counts hlt hout := by
    have hlen := file.2
    rw [Python.censusLoop, if_neg (by omega), List.getElem?_eq_getElem hlt] at hout
    exact ⟨_, map_eq_error_iff.1 hout⟩

theorem Go.int64_of_lt {x : ℕ} (h : x < 2 ^ 63) : Go.int64 x = x :=
  Cpp.long_of_lt h

theorem Go.int64_eq {x : ℕ} (h : x < 2 ^ 64) : Go.int64 x = x ∨ Go.int64 x < 0 :=
  Cpp.long_eq h

theorem Go.byPages (hsize : 0 < pageSize) (hsize' : pageSize < 65536) :
    ByPages file pageSize .outOfFuel fun fuel n ↦ Go.censusLoop file pageSize fuel n where
  stop fuel n counts hlength hlt := by
    have hlen := file.2
    rw [Go.censusLoop, ← Nat.cast_mul]
    rcases Go.int64_eq (x := n * pageSize) (by omega) with hint | hint
    · rw [hint]
      simp only [Int.toNat_natCast, List.getElem?_eq_none hlength, ite_self]
      exact nofun
    · rw [if_pos hint]
      exact nofun
  next fuel n counts hlt hout := by
    have hlen := file.2
    have hn := Nat.le_mul_of_pos_right n hsize
    have hpage : Go.int64 ((n : ℤ) + 1) = ((n + 1 : ℕ) : ℤ) :=
      Go.int64_of_lt (x := n + 1) (by omega)
    rw [Go.censusLoop, ← Nat.cast_mul, Go.int64_of_lt (by omega)] at hout
    simp only [Int.toNat_natCast, List.getElem?_eq_getElem hlt, hpage] at hout
    rw [if_neg (by omega)] at hout
    exact ⟨_, map_eq_error_iff.1 hout⟩

end Pages

/-! ### Pages of no bytes -/

section NoBytes

variable {file : File} {b : UInt8}

theorem Cpp.censusLoop_zero (hb : file.1[0]? = some b) (fuel n : ℕ) (counts : Counts) :
    Cpp.censusLoop file 0 fuel n counts = .error .outOfFuel := by
  induction fuel generalizing n counts with
  | zero => rfl
  | succ fuel ih =>
    have hoffset : Cpp.long (Cpp.unsignedLong (n * 0)) = ((0 : ℕ) : ℤ) := by
      rw [Nat.mul_zero]
      rfl
    rw [Cpp.censusLoop, hoffset]
    simp only [Int.toNat_natCast, hb, ih]
    rfl

theorem Python.censusLoop_zero (hb : file.1[0]? = some b) (fuel n : ℕ) (counts : Counts) :
    Python.censusLoop file 0 fuel n counts = .error .outOfFuel := by
  induction fuel generalizing n counts with
  | zero => rfl
  | succ fuel ih =>
    rw [Python.censusLoop, Nat.mul_zero, if_neg (by omega), hb]
    simp only [ih]
    rfl

theorem Go.censusLoop_zero (hb : file.1[0]? = some b) (fuel : ℕ) (n : ℤ) (counts : Counts) :
    Go.censusLoop file 0 fuel n counts = .error .outOfFuel := by
  induction fuel generalizing n counts with
  | zero => rfl
  | succ fuel ih =>
    have hoffset : Go.int64 (n * (0 : ℕ)) = ((0 : ℕ) : ℤ) := by
      rw [Nat.cast_zero, Int.mul_zero]
      rfl
    rw [Go.censusLoop, hoffset]
    simp only [Int.toNat_natCast, hb, ih]
    rfl

/-- The Rust loop goes on until the counter of the only byte it reads overflows. -/
theorem Rust.censusLoop_zero (hb : file.1[0]? = some b) {k fuel : ℕ} {counts : Counts}
    (hk : 4294967296 ≤ counts (slot b) + 1 + k) (hfuel : k < fuel) (n : ℕ) :
    Rust.censusLoop file 0 fuel 0 n counts = .error .panic := by
  induction k generalizing fuel counts n with
  | zero =>
    obtain ⟨fuel, rfl⟩ : ∃ f, fuel = f + 1 := Nat.exists_eq_add_one.2 hfuel
    rw [Rust.censusLoop, hb]
    exact if_neg (by omega)
  | succ k ih =>
    obtain ⟨fuel, rfl⟩ : ∃ f, fuel = f + 1 := Nat.exists_eq_add_one.2 (by omega)
    rw [Rust.censusLoop, hb]
    show (if _ then _ else _) = _
    split_ifs
    · rw [Nat.add_zero, ih ?_ (by omega)]
      · rfl
      · rw [Function.update_self]
        omega
    · rfl

end NoBytes

/-! ### The four samples -/

/-- The four loops end, whether there is a report then or not. -/
def CensusEnds (file : File) : Prop :=
  Ends .outOfFuel (Cpp.census file file.pageSize) ∧
    Ends .outOfFuel (Python.census file file.pageSize) ∧
      Ends .outOfFuel (Rust.census file file.pageSize) ∧
        Ends .outOfFuel (Go.census file file.pageSize)

section Samples

variable {file : File}

theorem exists_first (hlength : 152 ≤ file.1.length) : ∃ b, file.1[0]? = some b :=
  ⟨_, List.getElem?_eq_getElem (by omega)⟩

theorem Cpp.census_zero (hlength : 152 ≤ file.1.length) (fuel : ℕ) :
    Cpp.census file 0 fuel = .error .outOfFuel := by
  obtain ⟨b, hb⟩ := exists_first hlength
  rw [Cpp.census, Cpp.censusLoop_zero hb]
  rfl

theorem Python.census_zero (hlength : 152 ≤ file.1.length) (fuel : ℕ) :
    Python.census file 0 fuel = .error .outOfFuel := by
  obtain ⟨b, hb⟩ := exists_first hlength
  rw [Python.census, Python.censusLoop_zero hb]
  rfl

theorem Go.census_zero (hlength : 152 ≤ file.1.length) (fuel : ℕ) :
    Go.census file 0 fuel = .error .outOfFuel := by
  obtain ⟨b, hb⟩ := exists_first hlength
  rw [Go.census, Go.censusLoop_zero hb]
  rfl

/-- If a census does not end with pages of no bytes, one that ends has a page size. -/
theorem pos_of_ends {ε : Type} {outOfFuel : ε} {census : ℕ → ℕ → Except ε Census}
    (hzero : ∀ fuel, census 0 fuel = .error outOfFuel) {pageSize : ℕ}
    (hends : Ends outOfFuel (census pageSize)) : 0 < pageSize := by
  rcases Nat.eq_zero_or_pos pageSize with rfl | hsize
  · exact absurd hends (not_ends hzero)
  · exact hsize

theorem Cpp.ends_iff (hlength : 152 ≤ file.1.length) :
    Ends .outOfFuel (Cpp.census file file.pageSize) ↔ 0 < file.pageSize :=
  ⟨pos_of_ends (Cpp.census_zero hlength), fun hsize ↦
    ends_of_eq (fun _ hfuel ↦ Cpp.census_eq hsize file.pageSize_lt hfuel) nofun⟩

theorem Python.ends_iff (hlength : 152 ≤ file.1.length) :
    Ends .outOfFuel (Python.census file file.pageSize) ↔ 0 < file.pageSize :=
  ⟨pos_of_ends (Python.census_zero hlength), fun hsize ↦
    (ends_map_iff _).2 ((Python.byPages file file.pageSize).ends hsize _)⟩

theorem Go.ends_iff (hlength : 152 ≤ file.1.length) :
    Ends .outOfFuel (Go.census file file.pageSize) ↔ 0 < file.pageSize :=
  ⟨pos_of_ends (Go.census_zero hlength), fun hsize ↦
    (ends_map_iff _).2 ((Go.byPages hsize file.pageSize_lt).ends hsize _)⟩

/-- With pages of no bytes the Rust sample panics. -/
theorem Rust.census_zero (hlength : 152 ≤ file.1.length) (hzero : file.pageSize = 0) {fuel : ℕ}
    (hfuel : 4294967295 < fuel) : Rust.census file file.pageSize fuel = .error .panic := by
  obtain ⟨b, hb⟩ := exists_first hlength
  rw [hzero, Rust.census, Rust.censusLoop_zero hb (by omega) hfuel]
  rfl

theorem Rust.ends (hlength : 152 ≤ file.1.length) :
    Ends .outOfFuel (Rust.census file file.pageSize) := by
  rcases Nat.eq_zero_or_pos file.pageSize with hzero | hsize
  · exact ends_of_eq (fun _ hfuel ↦ Rust.census_zero hlength hzero hfuel) nofun
  · refine ends_of_eq (fun _ hfuel ↦ Rust.census_eq hsize hfuel) ?_
    split_ifs
    · exact nofun
    · exact nofun

theorem Rust.reports_iff_fits (hlength : 152 ≤ file.1.length) :
    (∃ report, Reports (Rust.census file file.pageSize) report) ↔
      0 < file.pageSize ∧ ∀ t, pagesOfType file file.pageSize t < 4294967296 := by
  rcases Nat.eq_zero_or_pos file.pageSize with hzero | hsize
  · refine iff_of_false ?_ fun h ↦ h.1.ne' hzero
    rintro ⟨report, hreport⟩
    rw [reports_iff fun _ hfuel ↦ Rust.census_zero hlength hzero hfuel] at hreport
    cases hreport
  · have hreports : ∀ report, Reports (Rust.census file file.pageSize) report ↔ _ := fun _ ↦
      reports_iff fun _ hfuel ↦ Rust.census_eq hsize hfuel
    simp only [hreports]
    rw [and_iff_right hsize]
    constructor
    · rintro ⟨report, hreport⟩
      by_contra hfit
      rw [if_neg hfit] at hreport
      cases hreport
    · exact fun hfit ↦ ⟨_, if_pos hfit⟩

end Samples

/-- **The census ends** exactly if the page size is not zero. Of the four loops only the one of the
Rust sample ends if it is, with the panic of a counter. -/
theorem censusEnds_iff (file : File) (hlength : 152 ≤ file.1.length) :
    (CensusEnds file ↔ 0 < file.pageSize) ∧
      ((Ends .outOfFuel (Cpp.census file file.pageSize) ↔ 0 < file.pageSize) ∧
        (Ends .outOfFuel (Python.census file file.pageSize) ↔ 0 < file.pageSize) ∧
          (Ends .outOfFuel (Go.census file file.pageSize) ↔ 0 < file.pageSize)) ∧
        Ends .outOfFuel (Rust.census file file.pageSize) ∧
          ((∃ report, Reports (Rust.census file file.pageSize) report) ↔
            0 < file.pageSize ∧ ∀ t, pagesOfType file file.pageSize t < 4294967296) := by
  refine ⟨?_, ⟨Cpp.ends_iff hlength, Python.ends_iff hlength, Go.ends_iff hlength⟩,
    Rust.ends hlength, Rust.reports_iff_fits hlength⟩
  rw [CensusEnds, Cpp.ends_iff hlength, Python.ends_iff hlength, Go.ends_iff hlength]
  exact ⟨fun h ↦ h.1, fun h ↦ ⟨h, h, Rust.ends hlength, h⟩⟩

/-- Two pages of 76 bytes. -/
theorem censusEnds_twoPages : CensusEnds (fileOf 76 135 (by decide)) :=
  (censusEnds_iff (fileOf 76 135 (by decide)) (by decide +kernel)).1.2 (by decide +kernel)

/-- A header without a page size. -/
theorem not_censusEnds_of_zero :
    152 ≤ (fileOf 0 136 (by decide)).1.length ∧ ¬ CensusEnds (fileOf 0 136 (by decide)) := by
  have hlength : 152 ≤ (fileOf 0 136 (by decide)).1.length := by decide +kernel
  have hzero : ¬ 0 < (fileOf 0 136 (by decide)).pageSize := by decide +kernel
  exact ⟨hlength, fun h ↦ hzero ((Cpp.ends_iff hlength).1 h.1)⟩

end FirebirdSamples.OnDisk
