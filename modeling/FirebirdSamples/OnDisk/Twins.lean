import FirebirdSamples.Library.Dict
import FirebirdSamples.Library.Traced
import FirebirdSamples.OnDisk.Endless
import Mathlib.Data.List.Sort
import Mathlib.Data.Rat.Defs

/-!
# The census of seven samples

What the seven twins of the on-disk sample print of the census: the number of pages and a line for
each page type. The loops of the C++, Rust, Java, Python and Go samples are in the modules before;
here `OdsHeader.cs` and `samples/nodejs/ods_header.js` are added, and the lines that all of them
print. The Node.js sample is the odd one out. It reads the whole file, goes by offsets, counts the
bytes it finds in a `Map` and divides the length of the file by the page size, whether there is a
remainder or not; and it takes the name of a type out of its table without asking whether it is
there.

**Where they agree.** C++ and Rust leave type 0 out, the others print it, under two names. C++,
Rust, Python and Go count an incomplete page, Java and C# do not, and Node.js counts a part of one.
So the samples print the same exactly if no page is incomplete and every page has a type that the
table knows (`sameOutput_iff`).
-/

namespace FirebirdSamples.OnDisk

/-- What is printed of a census. -/
inductive Printed where
  /-- The number of pages. -/
  | total (pages : ℚ)
  /-- A type, its name and the number of its pages. -/
  | line (type : ℕ) (name : String) (pages : ℤ)
  deriving DecidableEq

/-- The lines of a census, in order. -/
def Census.printed (census : Census) (pageTypeName : ℕ → String) : List Printed :=
  .total census.pages :: (List.finRange 11).filterMap fun t ↦
    (census.line t).map (.line t (pageTypeName t))

/-! ### Names -/

/-- `page_type_name(t)`. -/
def Rust.pageTypeName : ℕ → String
  | 1 => "pag_header"
  | 2 => "pag_pages (PIP)"
  | 3 => "pag_transactions (TIP)"
  | 4 => "pag_pointer"
  | 5 => "pag_data"
  | 6 => "pag_root"
  | 7 => "pag_index (b-tree)"
  | 8 => "pag_blob"
  | 9 => "pag_ids (generators)"
  | 10 => "pag_scns"
  | _ => "???"

/-- `pageTypeName(t)`. -/
def Go.pageTypeName (t : ℕ) : String :=
  if t < pageTypes.length then pageTypes.getD t "" else "???"

/-- `PAGE_TYPES[t]`, for a counter. There are as many counters as names. -/
def tableName (t : ℕ) : String :=
  pageTypes.getD t ""

/-! ### The Java sample -/

/-- The exceptions of the samples that divide by the page size. -/
inductive Failure where
  /-- Pages of no bytes. -/
  | divideByZero
  /-- `ReadExactly` finds the end of the file. -/
  | endOfStream
  deriving DecidableEq

/-- The census, behind the division. -/
def Java.divided (file : File) (pageSize : ℕ) : Except Failure Census :=
  if pageSize = 0 then .error .divideByZero else .ok (Java.census file pageSize)

/-! ### The C# sample -/

namespace CSharp

/-- `x++` for an `int`, which is not checked. -/
def succ32 (x : ℤ) : ℤ :=
  Int.bmod (x + 1) 4294967296

/-- One round, for page `p`. -/
def round (file : File) (pageSize : ℕ) (counts : Counts) (p : ℕ) : Except Failure Counts :=
  match file.1[p * pageSize]? with
  | none => .error .endOfStream
  | some one => .ok (Function.update counts (slot one) (succ32 (counts (slot one))))

/-- The line of a type, also of type 0. -/
def line (counts : Counts) (t : Fin 11) : Option ℤ :=
  if 0 < counts t then some (counts t) else none

/-- The census. -/
def census (file : File) (pageSize : ℕ) : Except Failure Census :=
  if pageSize = 0 then .error .divideByZero
  else
    let pages := file.1.length / pageSize
    ((List.range pages).foldlM (round file pageSize) fun _ ↦ 0).map fun counts ↦
      { visited := (List.range pages).map (· * pageSize), pages := pages, line := line counts }

end CSharp

/-! ### The Node.js sample -/

namespace Node

/-- Why the program fails. -/
inductive Abort where
  /-- `readFileSync` takes files of less than 2 GiB. -/
  | tooLarge
  /-- `undefined` has no `padEnd`. -/
  | typeError
  /-- The bound on the rounds is used up. The sample has no such bound. -/
  | outOfFuel
  deriving DecidableEq

/-- `PAGE_TYPES`. -/
def pageTypes : List String :=
  "?" :: OnDisk.pageTypes.tail

/-- The loop of the census, from an offset on. -/
def censusLoop (file : File) (pageSize : ℕ) : ℕ → ℕ → Dict ℕ ℕ → Except Abort (Dict ℕ ℕ)
  | 0, _, _ => .error .outOfFuel
  | fuel + 1, off, counts =>
    match file.1[off]? with
    | none => .ok counts
    | some b => censusLoop file pageSize fuel (off + pageSize) (counts.countUp b.toNat)

/-- The lines of some types. -/
def printLines (counts : Dict ℕ ℕ) : List ℕ → Traced Printed Abort PUnit
  | [] => pure ⟨⟩
  | t :: types =>
    match pageTypes[t]? with
    | none => Traced.lift (.error .typeError)
    | some name => do
      Traced.emit (.line t name ((counts.get? t).getD 0 : ℕ))
      printLines counts types

/-- The census, of a file that is read as a whole. -/
def census (file : File) (pageSize fuel : ℕ) : Traced Printed Abort PUnit :=
  if 2 ^ 31 ≤ file.1.length then Traced.lift (.error .tooLarge)
  else do
    let counts ← Traced.lift (censusLoop file pageSize fuel 0 Dict.empty)
    Traced.emit (.total (file.1.length / pageSize))
    printLines counts (counts.keys.insertionSort (· ≤ ·))

end Node

/-! ### The loops that go on by pages -/

section Loops

variable {file : File} {pageSize : ℕ}

theorem pageCount_le_length (file : File) (hsize : 0 < pageSize) :
    pageCount file pageSize ≤ file.1.length := by
  rcases Nat.eq_zero_or_pos (pageCount file pageSize) with hzero | hpos
  · omega
  · have hlast := (mul_lt_iff file hsize (pageCount file pageSize - 1)).2 (by omega)
    have hle := Nat.le_mul_of_pos_right (pageCount file pageSize - 1) hsize
    omega

theorem pagesOfType_le (file : File) (pageSize : ℕ) (t : Fin 11) :
    pagesOfType file pageSize t ≤ pageCount file pageSize :=
  calc pagesOfType file pageSize t
      ≤ (firstBytes file pageSize 0 (pageCount file pageSize)).length := List.countP_le_length
    _ ≤ (List.range' 0 (pageCount file pageSize)).length := List.length_filterMap_le _ _
    _ = pageCount file pageSize := List.length_range'

/-- The offset behind the last page is not far. -/
theorem pageCount_mul_lt (file : File) (hsize : 0 < pageSize) :
    pageCount file pageSize * pageSize < file.1.length + pageSize := by
  rcases Nat.eq_zero_or_pos (pageCount file pageSize) with hzero | hpos
  · rw [hzero]
    omega
  · have hlast := (mul_lt_iff file hsize (pageCount file pageSize - 1)).2 (by omega)
    rw [Nat.sub_mul, Nat.one_mul] at hlast
    omega

theorem getElem?_pageCount (file : File) (hsize : 0 < pageSize) :
    file.1[pageCount file pageSize * pageSize]? = none :=
  List.getElem?_eq_none (Nat.le_of_not_lt fun hlt ↦
    absurd ((mul_lt_iff file hsize _).1 hlt) (Nat.lt_irrefl _))

/-- **A loop that goes on by pages** visits the pages that are left, and counts each. -/
theorem loop_eq {ε ρ : Type} (loop : ℕ → ℕ → Counts → Except ε (List ℕ × ρ × Counts))
    (succ : ℤ → ℤ) (result : ρ) (hsize : 0 < pageSize)
    (hnext : ∀ fuel n b counts, file.1[n * pageSize]? = some b →
      loop (fuel + 1) n counts =
        (loop fuel (n + 1) (Function.update counts (slot b) (succ (counts (slot b))))).map
          fun r ↦ (n * pageSize :: r.1, r.2))
    (hstop : ∀ fuel counts, loop (fuel + 1) (pageCount file pageSize) counts =
      .ok ([], result, counts))
    {n k fuel : ℕ} (hk : n + k = pageCount file pageSize) (hfuel : k < fuel) (counts : Counts) :
    loop fuel n counts =
      .ok ((List.range' n k).map (· * pageSize), result,
        (firstBytes file pageSize n k).foldl (fun counts b ↦
          Function.update counts (slot b) (succ (counts (slot b)))) counts) := by
  obtain ⟨fuel, rfl⟩ : ∃ f, fuel = f + 1 := Nat.exists_eq_add_one.2 (by omega)
  induction k generalizing n fuel counts with
  | zero =>
    obtain rfl : n = pageCount file pageSize := hk
    exact hstop fuel counts
  | succ k ih =>
    have hin := (mul_lt_iff file hsize n).2 (by omega)
    obtain ⟨b, hb⟩ : ∃ b, file.1[n * pageSize]? = some b := ⟨_, List.getElem?_eq_getElem hin⟩
    obtain ⟨fuel, rfl⟩ : ∃ f, fuel = f + 1 := Nat.exists_eq_add_one.2 (by omega)
    rw [hnext _ _ _ _ hb, ih (by omega) _ fuel (by omega), firstBytes_succ hb, List.range'_succ,
      List.foldl_cons, List.map_cons]
    rfl

/-- What the Python sample reports. -/
theorem Python.census_eq (hsize : 0 < pageSize) (hlong : file.1.length + pageSize ≤ 2 ^ 63)
    {fuel : ℕ} (hfuel : pageCount file pageSize < fuel) :
    Python.census file pageSize fuel = .ok
      { visited := (List.range (pageCount file pageSize)).map (· * pageSize)
        pages := pageCount file pageSize
        line := Python.line fun t ↦ pagesOfType file pageSize t } := by
  have hlast := pageCount_mul_lt file hsize
  have hloop := loop_eq (Python.censusLoop file pageSize) (· + 1) (pageCount file pageSize) hsize
    (fun fuel n b counts hb ↦ by
      have hin : n * pageSize < file.1.length := (List.getElem?_eq_some_iff.1 hb).1
      rw [Python.censusLoop, hb, if_neg (by omega)])
    (fun fuel counts ↦ by
      rw [Python.censusLoop, getElem?_pageCount file hsize, if_neg (by omega)])
    (Nat.zero_add _) hfuel (fun _ ↦ 0)
  have hcounts : (firstBytes file pageSize 0 (pageCount file pageSize)).foldl (fun counts b ↦
      Function.update counts (slot b) (counts (slot b) + 1)) (fun _ ↦ 0) =
        fun t ↦ (pagesOfType file pageSize t : ℤ) := by
    funext t
    have h := foldl_update_wrap id (fun _ ↦ rfl) slot
      (firstBytes file pageSize 0 (pageCount file pageSize)) (fun _ ↦ 0) t
    rw [Int.zero_add] at h
    exact h
  rw [Python.census, hloop, hcounts, ← List.range_eq_range']
  rfl

theorem Go.int64_wrap (x : ℤ) : Go.int64 (Go.int64 x + 1) = Go.int64 (x + 1) := by
  simp only [Go.int64, Int.bmod_eq_emod]
  split_ifs <;> omega

/-- What the Go sample reports. -/
theorem Go.census_eq (hsize : 0 < pageSize) (hsize' : pageSize < 65536) {fuel : ℕ}
    (hfuel : pageCount file pageSize < fuel) :
    Go.census file pageSize fuel = .ok
      { visited := (List.range (pageCount file pageSize)).map (· * pageSize)
        pages := pageCount file pageSize
        line := Go.line fun t ↦ pagesOfType file pageSize t } := by
  have hlen := file.2
  have hlast := pageCount_mul_lt file hsize
  have hpages := pageCount_le_length file hsize
  have hloop := loop_eq (fun fuel n ↦ Go.censusLoop file pageSize fuel n)
    (fun x ↦ Go.int64 (x + 1)) (pageCount file pageSize : ℤ) hsize
    (fun fuel n b counts hb ↦ by
      have hin : n * pageSize < file.1.length := (List.getElem?_eq_some_iff.1 hb).1
      have hn := Nat.le_mul_of_pos_right n hsize
      have hpage : Go.int64 ((n : ℤ) + 1) = ((n + 1 : ℕ) : ℤ) :=
        Go.int64_of_lt (x := n + 1) (by omega)
      rw [Go.censusLoop, ← Nat.cast_mul, Go.int64_of_lt (by omega)]
      simp only [Int.toNat_natCast, hb, hpage]
      rw [if_neg (by omega)])
    (fun fuel counts ↦ by
      rw [Go.censusLoop, ← Nat.cast_mul]
      rcases Go.int64_eq (x := pageCount file pageSize * pageSize) (by omega) with hint | hint
      · rw [hint]
        simp only [Int.toNat_natCast, getElem?_pageCount file hsize, ite_self]
      · rw [if_pos hint])
    (Nat.zero_add _) hfuel (fun _ ↦ 0)
  have hcounts : (firstBytes file pageSize 0 (pageCount file pageSize)).foldl (fun counts b ↦
      Function.update counts (slot b) (Go.int64 (counts (slot b) + 1))) (fun _ ↦ 0) =
        fun t ↦ (pagesOfType file pageSize t : ℤ) := by
    funext t
    have h := foldl_update_wrap Go.int64 Go.int64_wrap slot
      (firstBytes file pageSize 0 (pageCount file pageSize)) (fun _ ↦ 0) t
    have hle := pagesOfType_le file pageSize t
    rw [Int.zero_add] at h
    exact h.trans (Go.int64_of_lt (x := pagesOfType file pageSize t) (by omega))
  rw [Go.census]
  show (Go.censusLoop file pageSize fuel ((0 : ℕ) : ℤ) _).map _ = _
  rw [hloop, hcounts, ← List.range_eq_range']
  rfl

/-- **The C# sample reports what the Java sample does**: bytes without a sign are sorted the same,
and it finds a byte of every page. -/
theorem CSharp.census_eq (file : File) (pageSize : ℕ) :
    CSharp.census file pageSize = Java.divided file pageSize := by
  rw [CSharp.census, Java.divided]
  split_ifs with hzero
  · rfl
  · have hsize := Nat.pos_of_ne_zero hzero
    have hfold : ∀ n k counts, n + k ≤ file.1.length / pageSize →
        (List.range' n k).foldlM (CSharp.round file pageSize) counts =
          .ok ((firstBytes file pageSize n k).foldl (fun counts b ↦
            Function.update counts (slot b) (CSharp.succ32 (counts (slot b)))) counts) := by
      intro n k
      induction k generalizing n with
      | zero => exact fun _ _ ↦ rfl
      | succ k ih =>
        intro counts hk
        have hin : n * pageSize < file.1.length := by
          have := (Nat.le_div_iff_mul_le hsize).1 hk
          rw [← Nat.add_assoc, Nat.add_mul, Nat.add_mul] at this
          omega
        obtain ⟨b, hb⟩ : ∃ b, file.1[n * pageSize]? = some b := ⟨_, List.getElem?_eq_getElem hin⟩
        have hround : CSharp.round file pageSize counts n =
            .ok (Function.update counts (slot b) (CSharp.succ32 (counts (slot b)))) := by
          rw [CSharp.round, hb]
        rw [List.range'_succ, List.foldlM_cons, hround, firstBytes_succ hb, List.foldl_cons]
        exact ih (n + 1) _ (by omega)
    have hloop := hfold 0 (file.1.length / pageSize) (fun _ ↦ 0) (Nat.zero_add _).le
    have hcounts : (firstBytes file pageSize 0 (file.1.length / pageSize)).foldl (fun counts b ↦
        Function.update counts (slot b) (CSharp.succ32 (counts (slot b)))) (fun _ ↦ 0) =
          fun t ↦ Int.bmod ((firstBytes file pageSize 0 (file.1.length / pageSize)).countP
            (slot · = t)) 4294967296 := by
      funext t
      have h := foldl_update_wrap (Int.bmod · 4294967296) Java.succ32_wrap slot
        (firstBytes file pageSize 0 (file.1.length / pageSize)) (fun _ ↦ 0) t
      rw [Int.zero_add] at h
      exact h
    rw [← List.range_eq_range'] at hloop
    show ((List.range (file.1.length / pageSize)).foldlM (CSharp.round file pageSize) _).map _ = _
    rw [hloop, hcounts, Java.census_eq hsize]
    rfl

end Loops

/-! ### The types of the pages -/

/-- Byte 0 of every page, in order. -/
def File.types (file : File) : List ℕ :=
  (firstBytes file file.pageSize 0 (pageCount file file.pageSize)).map UInt8.toNat

section Types

variable {file : File}

theorem slot_eq_iff {b : UInt8} (hb : b.toNat < 11) {t : Fin 11} : slot b = t ↔ b.toNat = t := by
  rw [slot, dif_pos hb, Fin.ext_iff]

/-- If every type has a counter, the counters are the numbers of pages of the types. -/
theorem pagesOfType_eq_count (htypes : ∀ t ∈ file.types, t < 11) (t : Fin 11) :
    pagesOfType file file.pageSize t = file.types.count (t : ℕ) := by
  rw [pagesOfType, File.types, List.count_eq_countP, List.countP_map]
  refine List.countP_congr fun b hb ↦ ?_
  have hlt : b.toNat < 11 := htypes _ (List.mem_map_of_mem hb)
  simp only [decide_eq_true_eq, Function.comp_apply, beq_iff_eq, slot_eq_iff hlt]

/-- The types in the order of their numbers, each once. -/
theorem insertionSort_keys (d : Dict ℕ ℕ) (hkeys : ∀ t ∈ d.keys, t < 11) :
    d.keys.insertionSort (· ≤ ·) = (List.range 11).filter (· ∈ d.keys) := by
  have hnodup : d.keys.Nodup := d.nodup_keys
  have hnodup' : ((List.range 11).filter (· ∈ d.keys)).Nodup := List.nodup_range.filter _
  have hsub := (List.pairwise_lt_range (n := 11)).sortedLT.sortedLE.pairwise
  refine List.Perm.eq_of_sortedLE List.sortedLE_insertionSort
    (hsub.sublist List.filter_sublist).sortedLE ((List.perm_insertionSort _ _).trans ?_)
  rw [List.perm_ext_iff_of_nodup hnodup hnodup']
  intro t
  rw [List.mem_filter, List.mem_range, decide_eq_true_iff]
  exact ⟨fun ht ↦ ⟨hkeys t ht, ht⟩, fun ht ↦ ht.2⟩

end Types

/-! ### The loop of the Node.js sample -/

namespace Node

section Lines

variable {counts : Dict ℕ ℕ} {types : List ℕ}

/-- Types that have a name are printed. -/
theorem printLines_of_lt (htypes : ∀ t ∈ types, t < 11) :
    printLines counts types =
      ⟨types.map fun t ↦ .line t (pageTypes.getD t "") ((counts.get? t).getD 0 : ℕ), .ok ⟨⟩⟩ := by
  induction types with
  | nil => rfl
  | cons t types ih =>
    obtain ⟨ht, htypes⟩ := List.forall_mem_cons.1 htypes
    have hname : pageTypes[t]? = some (pageTypes.getD t "") := by
      rw [List.getD_eq_getElem?_getD, List.getElem?_eq_getElem (show t < pageTypes.length from ht)]
      rfl
    rw [printLines, hname]
    show Traced.emit _ >>= _ = _
    rw [Traced.emit_bind, ih htypes]
    rfl

/-- A type without one throws the program out. -/
theorem lt_of_printLines (h : (printLines counts types).result = .ok ⟨⟩) : ∀ t ∈ types, t < 11 := by
  induction types with
  | nil => exact fun _ ht ↦ absurd ht List.not_mem_nil
  | cons t types ih =>
    rcases hname : pageTypes[t]? with _ | name
    · rw [printLines, hname] at h
      cases h
    · have ht : t < 11 := (List.getElem?_eq_some_iff.1 hname).1
      rw [printLines, hname] at h
      exact List.forall_mem_cons.2 ⟨ht, ih h⟩

end Lines

section Census

variable {file : File}

theorem censusLoop_eq {pageSize : ℕ} (hsize : 0 < pageSize) {n k fuel : ℕ}
    (hk : n + k = pageCount file pageSize) (hfuel : k < fuel) (counts : Dict ℕ ℕ) :
    censusLoop file pageSize fuel (n * pageSize) counts =
      .ok (((firstBytes file pageSize n k).map UInt8.toNat).foldl Dict.countUp counts) := by
  obtain ⟨fuel, rfl⟩ : ∃ f, fuel = f + 1 := Nat.exists_eq_add_one.2 (by omega)
  induction k generalizing n fuel counts with
  | zero =>
    obtain rfl : n = pageCount file pageSize := hk
    rw [censusLoop, getElem?_pageCount file hsize]
    rfl
  | succ k ih =>
    have hin := (mul_lt_iff file hsize n).2 (by omega)
    obtain ⟨b, hb⟩ : ∃ b, file.1[n * pageSize]? = some b := ⟨_, List.getElem?_eq_getElem hin⟩
    obtain ⟨fuel, rfl⟩ : ∃ f, fuel = f + 1 := Nat.exists_eq_add_one.2 (by omega)
    rw [censusLoop, hb, ← Nat.succ_mul]
    show censusLoop file pageSize (fuel + 1) ((n + 1) * pageSize) _ = _
    rw [ih (by omega) _ fuel (by omega), firstBytes_succ hb]
    rfl

/-- The counters in the end. -/
def counts (file : File) : Dict ℕ ℕ :=
  file.types.foldl Dict.countUp Dict.empty

theorem get?_counts (file : File) (t : ℕ) :
    (counts file).get? t = if t ∈ file.types then some (file.types.count t) else none := by
  rw [counts, Dict.get?_foldl_countUp]
  show (if _ then some (0 + _) else none) = _
  rw [Nat.zero_add]

theorem mem_keys_counts {t : ℕ} : t ∈ (counts file).keys ↔ t ∈ file.types := by
  rw [← not_iff_not, ← Dict.get?_eq_none_iff, get?_counts]
  split_ifs with ht <;> simp [ht]

/-- What the Node.js sample prints. -/
theorem census_eq (hsize : 0 < file.pageSize) (hshort : file.1.length < 2 ^ 31) {fuel : ℕ}
    (hfuel : pageCount file file.pageSize < fuel) :
    census file file.pageSize fuel =
      (printLines (counts file) ((counts file).keys.insertionSort (· ≤ ·))).after
        [.total (file.1.length / file.pageSize)] := by
  have hloop := censusLoop_eq hsize (Nat.zero_add (pageCount file file.pageSize)) hfuel Dict.empty
  rw [Nat.zero_mul] at hloop
  rw [census, if_neg (Nat.not_le_of_lt hshort), hloop]
  rfl

end Census

end Node

/-! ### Where the samples agree -/

/-- A program with a bound on its rounds ends in the same way with any bound that is large
enough. -/
def Settles {α : Type} (run : ℕ → α) (a : α) : Prop :=
  ∃ rounds, ∀ fuel, rounds < fuel → run fuel = a

theorem settles_iff {α : Type} {run : ℕ → α} {a b : α} {rounds : ℕ}
    (h : ∀ fuel, rounds < fuel → run fuel = a) : Settles run b ↔ a = b := by
  constructor
  · rintro ⟨rounds', h'⟩
    rw [← h (rounds + rounds' + 1) (by omega), h' _ (by omega)]
  · rintro rfl
    exact ⟨rounds, h⟩

/-- All seven samples print some lines, and nothing else. -/
structure PrintedByAll (file : File) (lines : List Printed) : Prop where
  /-- `ods_header.cpp`. -/
  cpp : Settles (fun fuel ↦ (Cpp.census file file.pageSize fuel).map
    (·.printed Cpp.pageTypeName)) (.ok lines)
  /-- `ods_header.rs`. -/
  rust : Settles (fun fuel ↦ (Rust.census file file.pageSize fuel).map
    (·.printed Rust.pageTypeName)) (.ok lines)
  /-- `ods_header/main.go`. -/
  go : Settles (fun fuel ↦ (Go.census file file.pageSize fuel).map
    (·.printed Go.pageTypeName)) (.ok lines)
  /-- `ods_header.py`. -/
  python : Settles (fun fuel ↦ (Python.census file file.pageSize fuel).map
    (·.printed tableName)) (.ok lines)
  /-- `OdsHeader.java`. -/
  java : (Java.divided file file.pageSize).map (·.printed tableName) = .ok lines
  /-- `OdsHeader.cs`. -/
  cSharp : (CSharp.census file file.pageSize).map (·.printed tableName) = .ok lines
  /-- `ods_header.js`. -/
  node : Settles (Node.census file file.pageSize) ⟨lines, .ok ⟨⟩⟩

/-- The lines for a file of whole pages, each with a type that the table knows. -/
def lines (file : File) : List Printed :=
  .total (pageCount file file.pageSize) :: (List.finRange 11).filterMap fun t ↦
    if pagesOfType file file.pageSize t ≠ 0 then
      some (.line t (tableName t) (pagesOfType file file.pageSize t))
    else none

section Agree

variable {file : File}

/-- What a sample of a file of whole pages prints, if its lines hold the numbers of pages. -/
theorem printed_eq (hzero : pagesOfType file file.pageSize 0 = 0) {visited : List ℕ}
    {line : Fin 11 → Option ℤ} {pageTypeName : ℕ → String}
    (hline : ∀ t, line t = if pagesOfType file file.pageSize t ≠ 0 then
      some (pagesOfType file file.pageSize t : ℤ) else none)
    (hname : ∀ t : Fin 11, t ≠ 0 → pageTypeName t = tableName t) :
    Census.printed { visited, pages := pageCount file file.pageSize, line } pageTypeName =
      lines file := by
  refine congrArg₂ List.cons (by simp) (List.filterMap_congr fun t _ ↦ ?_)
  show (line t).map _ = _
  rw [hline]
  by_cases ht : t = 0
  · subst ht
    simp [hzero]
  · split_ifs
    · rw [Option.map_some, hname t ht]
    · rfl

/-- There is no page of type 0, or of a type that the table does not know. -/
theorem pagesOfType_zero (htypes : ∀ t ∈ file.types, 1 ≤ t ∧ t ≤ 10) :
    pagesOfType file file.pageSize 0 = 0 := by
  rw [pagesOfType_eq_count fun t ht ↦ Nat.lt_succ_of_le (htypes t ht).2]
  exact List.count_eq_zero_of_not_mem fun h ↦ absurd (htypes 0 h).1 (by decide)

/-- What the Node.js sample prints then, type by type. -/
theorem Node.printed_eq (htypes : ∀ t ∈ file.types, t < 11) :
    Node.printLines (Node.counts file) ((Node.counts file).keys.insertionSort (· ≤ ·)) =
      ⟨(List.finRange 11).filterMap fun t ↦
        if pagesOfType file file.pageSize t ≠ 0 then
          some (.line t (Node.pageTypes.getD t "") (pagesOfType file file.pageSize t))
        else none, .ok ⟨⟩⟩ := by
  have hkeys : ∀ t ∈ (Node.counts file).keys, t < 11 := fun t ht ↦
    htypes t (Node.mem_keys_counts.1 ht)
  have hsorted : ∀ t ∈ (List.range 11).filter (· ∈ (Node.counts file).keys), t < 11 := fun t ht ↦
    List.mem_range.1 (List.mem_filter.1 ht).1
  rw [insertionSort_keys _ hkeys, Node.printLines_of_lt hsorted, ← List.filterMap_eq_map',
    List.filterMap_filter, ← List.map_coe_finRange_eq_range, List.filterMap_map]
  refine congrArg (Traced.mk · _) (List.filterMap_congr fun t _ ↦ ?_)
  rw [Function.comp_apply, Node.get?_counts, pagesOfType_eq_count htypes]
  simp only [decide_eq_true_eq, Node.mem_keys_counts, ne_eq, List.count_eq_zero, not_not]
  split_ifs
  · rfl
  · rfl

/-- A report that a census settles on is printed. -/
theorem settles_printed_iff {ε : Type} {census : ℕ → Except ε Census} {report : Census}
    {rounds : ℕ} (h : ∀ fuel, rounds < fuel → census fuel = .ok report)
    {pageTypeName : ℕ → String} {out : List Printed} :
    Settles (fun fuel ↦ (census fuel).map (·.printed pageTypeName)) (.ok out) ↔
      report.printed pageTypeName = out :=
  (settles_iff fun fuel hfuel ↦ congrArg _ (h fuel hfuel)).trans
    ⟨Except.ok.inj, congrArg Except.ok⟩

/-- The samples print the same lines for such a file. -/
theorem printedByAll_lines (hsize : 0 < file.pageSize) (hdvd : file.pageSize ∣ file.1.length)
    (hshort : file.1.length < 2 ^ 31) (htypes : ∀ t ∈ file.types, 1 ≤ t ∧ t ≤ 10) :
    PrintedByAll file (lines file) := by
  have hzero := pagesOfType_zero htypes
  have hsize' := file.pageSize_lt
  have hpages := pageCount_le_length file hsize
  have hcount : ∀ t, pagesOfType file file.pageSize t < 2 ^ 31 := fun t ↦
    ((pagesOfType_le file file.pageSize t).trans hpages).trans_lt hshort
  have hnames : ∀ t : Fin 11, t ≠ 0 → Cpp.pageTypeName t = tableName t ∧
      Rust.pageTypeName t = tableName t ∧ Go.pageTypeName t = tableName t ∧
        Node.pageTypes.getD t "" = tableName t := by decide
  have hjava : (Java.divided file file.pageSize).map (·.printed tableName) = .ok (lines file) := by
    rw [Java.divided, if_neg hsize.ne', Java.census_eq_of_dvd hsize hdvd]
    refine congrArg Except.ok (printed_eq hzero (fun t ↦ ?_) fun t _ ↦ rfl)
    have := hcount t
    rw [Java.line, Int.bmod_eq_of_le (by omega) (by omega)]
    simp only [Nat.cast_pos, Nat.pos_iff_ne_zero]
  constructor
  · refine (settles_printed_iff fun _ hfuel ↦ Cpp.census_eq hsize hsize' hfuel).2 ?_
    refine printed_eq hzero (fun t ↦ ?_) fun t ht ↦ (hnames t ht).1
    have := hcount t
    rw [Cpp.line, Int.emod_eq_of_lt (by omega) (by omega)]
    by_cases ht : t = 0
    · simp [ht, hzero]
    · simp [ht]
  · refine (settles_printed_iff fun _ hfuel ↦ (Rust.census_eq hsize hfuel).trans
      (if_pos fun t ↦ (hcount t).trans (by decide))).2 ?_
    refine printed_eq hzero (fun t ↦ ?_) fun t ht ↦ (hnames t ht).2.1
    rw [Rust.line]
    by_cases ht : t = 0
    · simp [ht, hzero]
    · simp [ht]
  · refine (settles_printed_iff fun _ hfuel ↦ Go.census_eq hsize hsize' hfuel).2 ?_
    refine printed_eq hzero (fun t ↦ ?_) fun t ht ↦ (hnames t ht).2.2.1
    simp only [Go.line, Nat.cast_pos, Nat.pos_iff_ne_zero]
  · refine (settles_printed_iff fun _ hfuel ↦ Python.census_eq hsize (by omega) hfuel).2 ?_
    refine printed_eq hzero (fun t ↦ ?_) fun t _ ↦ rfl
    simp only [Python.line, ne_eq, Nat.cast_eq_zero]
  · exact hjava
  · rwa [CSharp.census_eq]
  · refine (settles_iff fun fuel hfuel ↦ Node.census_eq hsize hshort hfuel).2 ?_
    rw [Node.printed_eq fun t ht ↦ Nat.lt_succ_of_le (htypes t ht).2]
    refine congrArg (Traced.mk · _) (congrArg₂ List.cons ?_ (List.filterMap_congr fun t _ ↦ ?_))
    · rw [(pageCount_eq_iff hsize).2 hdvd, Nat.cast_div hdvd (by exact_mod_cast hsize.ne')]
    · by_cases ht : t = 0
      · rw [ht, hzero]
        rfl
      · rw [(hnames t ht).2.2.2]

/-- **If all samples print the same**, Node.js takes the file, divides without a remainder and knows
all types, and there is none that C++ leaves out. -/
theorem of_printedByAll (hlength : 152 ≤ file.1.length) {out : List Printed}
    (h : PrintedByAll file out) :
    0 < file.pageSize ∧ file.pageSize ∣ file.1.length ∧ file.1.length < 2 ^ 31 ∧
      ∀ t ∈ file.types, 1 ≤ t ∧ t ≤ 10 := by
  have hsize : 0 < file.pageSize := by
    by_contra hzero
    obtain ⟨rounds, hcpp⟩ := h.cpp
    have hrun : (Cpp.census file file.pageSize (rounds + 1)).map (·.printed Cpp.pageTypeName) =
        .ok out := hcpp (rounds + 1) (Nat.lt_succ_self rounds)
    rw [Nat.eq_zero_of_not_pos hzero, Cpp.census_zero hlength] at hrun
    cases hrun
  have hshort : file.1.length < 2 ^ 31 := by
    by_contra hlong
    obtain ⟨rounds, hnode⟩ := h.node
    have hrun := hnode (rounds + 1) (Nat.lt_succ_self rounds)
    rw [Node.census, if_pos (Nat.le_of_not_lt hlong)] at hrun
    cases hrun
  have hnode := (settles_iff fun fuel hfuel ↦ Node.census_eq hsize hshort hfuel).1 h.node
  have hlt : ∀ t ∈ file.types, t < 11 := fun t ht ↦
    Node.lt_of_printLines (congrArg Traced.result hnode) t
      ((List.mem_insertionSort _).2 (Node.mem_keys_counts.2 ht))
  have hout := (settles_printed_iff fun _ hfuel ↦
    Cpp.census_eq hsize file.pageSize_lt hfuel).1 h.cpp
  rw [Node.printed_eq hlt] at hnode
  obtain ⟨htotal, hlines⟩ := List.cons.inj (hout.trans (congrArg Traced.log hnode).symm)
  refine ⟨hsize, ?_, hshort, fun t ht ↦ ⟨Nat.pos_of_ne_zero ?_, Nat.le_of_lt_succ (hlt t ht)⟩⟩
  · have hq : ((pageCount file file.pageSize : ℕ) : ℚ) = file.1.length / file.pageSize := by
      simpa using htotal
    rw [eq_div_iff (by exact_mod_cast hsize.ne')] at hq
    exact ⟨pageCount file file.pageSize, by rw [Nat.mul_comm]; exact_mod_cast hq.symm⟩
  · rintro rfl
    -- Node.js has a line for the type, and C++ has none
    have hpos : pagesOfType file file.pageSize 0 ≠ 0 := by
      rw [pagesOfType_eq_count hlt, Ne, List.count_eq_zero]
      exact fun h ↦ h ht
    have hmem := fun l ↦ (congrArg (l ∈ ·) hlines).mpr
    obtain ⟨t, -, hline⟩ := List.mem_filterMap.1
      (hmem _ (List.mem_filterMap.2 ⟨0, List.mem_finRange 0, if_pos hpos⟩))
    obtain ⟨count, hcount, hprinted⟩ := Option.map_eq_some_iff.1 hline
    have ht : t = 0 := Fin.ext (Printed.line.inj hprinted).1
    rw [ht] at hcount
    cases hcount

end Agree

/-- Three pairs of samples print the same, whatever the types are. -/
structure PairsAgree (file : File) : Prop where
  /-- C++ and Rust. -/
  withoutUndefined : ∃ out,
    Settles (fun fuel ↦ (Cpp.census file file.pageSize fuel).map
      (·.printed Cpp.pageTypeName)) (.ok out) ∧
    Settles (fun fuel ↦ (Rust.census file file.pageSize fuel).map
      (·.printed Rust.pageTypeName)) (.ok out)
  /-- Python and Go. -/
  withUndefined : ∃ out,
    Settles (fun fuel ↦ (Python.census file file.pageSize fuel).map
      (·.printed tableName)) (.ok out) ∧
    Settles (fun fuel ↦ (Go.census file file.pageSize fuel).map
      (·.printed Go.pageTypeName)) (.ok out)
  /-- Java and C#. -/
  wholePages : ∃ out,
    (Java.divided file file.pageSize).map (·.printed tableName) = .ok out ∧
    (CSharp.census file file.pageSize).map (·.printed tableName) = .ok out

/-- Lines are the same if the counters are, and the names of the types that have one. -/
theorem printed_congr {census census' : Census} {name name' : ℕ → String}
    (hpages : census.pages = census'.pages) (hline : census.line = census'.line)
    (hname : ∀ t : Fin 11, census.line t ≠ none → name t = name' t) :
    census.printed name = census'.printed name' := by
  refine congrArg₂ List.cons (by rw [hpages]) (List.filterMap_congr fun t _ ↦ ?_)
  rw [← hline]
  rcases ht : census.line t with _ | count
  · rfl
  · rw [hname t (by rw [ht]; exact nofun)]

theorem pairsAgree {file : File} (hsize : 0 < file.pageSize) (hshort : file.1.length < 2 ^ 31) :
    PairsAgree file := by
  have hsize' := file.pageSize_lt
  have hpages := pageCount_le_length file hsize
  have hcount : ∀ t, pagesOfType file file.pageSize t < 4294967296 := fun t ↦
    ((pagesOfType_le file file.pageSize t).trans hpages).trans_lt (hshort.trans (by decide))
  constructor
  · refine ⟨_, (settles_printed_iff fun _ hfuel ↦ Cpp.census_eq hsize hsize' hfuel).2 rfl,
      (settles_printed_iff fun _ hfuel ↦ (Rust.census_eq hsize hfuel).trans (if_pos hcount)).2
        (printed_congr rfl (funext fun t ↦ ?_) fun t ht ↦ ?_)⟩
    · have hmod : (pagesOfType file file.pageSize t : ℤ) % 4294967296 =
          pagesOfType file file.pageSize t :=
        Int.emod_eq_of_lt (Int.natCast_nonneg _) (Int.ofNat_lt.2 (hcount t))
      simp only [Cpp.line, Rust.line, hmod]
    · have hnames : ∀ t : Fin 11, t ≠ 0 → Rust.pageTypeName t = Cpp.pageTypeName t := by decide
      refine hnames t ?_
      rintro rfl
      exact ht rfl
  · refine ⟨_, (settles_printed_iff fun _ hfuel ↦
        Python.census_eq hsize (by omega) hfuel).2 rfl,
      (settles_printed_iff fun _ hfuel ↦ Go.census_eq hsize hsize' hfuel).2
        (printed_congr rfl (funext fun t ↦ ?_) fun t _ ↦ ?_)⟩
    · simp only [Python.line, Go.line, ne_eq, Nat.cast_eq_zero, Nat.cast_pos, Nat.pos_iff_ne_zero]
    · have hnames : ∀ t : Fin 11, Go.pageTypeName t = tableName t := by decide
      exact hnames t
  · refine ⟨_, congrArg (Except.map _) (if_neg hsize.ne'), ?_⟩
    rw [CSharp.census_eq, Java.divided, if_neg hsize.ne']
    rfl

theorem Settles.unique {α : Type} {run : ℕ → α} {a b : α} (ha : Settles run a)
    (hb : Settles run b) : a = b := by
  obtain ⟨rounds, ha⟩ := ha
  exact (settles_iff ha).1 hb

/-- A file of two pages of 76 bytes, a header and a page without data. -/
def twoPages : File :=
  ⟨1 :: List.replicate 15 0 ++ 76 :: List.replicate 59 0 ++ 5 :: List.replicate 75 0, by
    simp only [List.length_append, List.length_cons, List.length_replicate]
    omega⟩

end FirebirdSamples.OnDisk
