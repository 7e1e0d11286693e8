import FirebirdSamples.OnDisk.HeaderPage

/-!
# The page-type census

The samples of the on-disk structure end with a census: byte 0 of every page of the file, by type.
Three of them are modelled, `samples/cpp/ods_header.cpp`, `samples/rust/src/bin/ods_header.rs` and
`OdsHeader.java`, with the widths of their counters. The C++ loop seeks until there is nothing to
read, the Rust loop goes by offsets, and the Java loop works the number of pages out first.

All three go through the offsets of pages in order, and count each page they visit. So each is a
fold over the first bytes of these pages (`Cpp.censusLoop_eq`, `Rust.censusLoop_eq`,
`Java.census_eq`), and what a counter holds in the end is the number of pages of its type, as far as
the counter goes.

**Where they agree.** C++ and Rust visit an incomplete last page, and Java does not. Counters of the
C++ sample wrap around at 2 ^ 32, those of the Rust sample panic there (as `cargo run` builds it),
and those of the Java sample turn negative at 2 ^ 31, when nothing is printed. Apart from these the
samples report the same (`census_agree_iff`).
-/

namespace FirebirdSamples.OnDisk

open LittleEndian (value signed)

/-- The content of a file. The length of a file is a signed 64-bit number. -/
abbrev File : Type :=
  {b : List UInt8 // b.length < 2 ^ 63}

/-- `hdr_page_size`. -/
def File.pageSize (file : File) : ℕ :=
  value ((file.1.drop 16).take 2)

/-- The counters of the page types; what is of no type is counted as of type 0. -/
abbrev Counts : Type :=
  Fin 11 → ℤ

/-- What a census reports. -/
structure Census where
  /-- The offsets read, in order. -/
  visited : List ℕ
  /-- The number of pages. -/
  pages : ℤ
  /-- The number of pages of a type, if there is a line for it. -/
  line : Fin 11 → Option ℤ

/-- Why there is no census. -/
inductive Abort where
  /-- A counter overflows. -/
  | panic
  /-- The bound on the rounds is used up. The samples have no such bound. -/
  | outOfFuel
  deriving DecidableEq

/-- The counter of a page, by its byte 0. -/
def slot (t : UInt8) : Fin 11 :=
  if h : t.toNat < 11 then ⟨t.toNat, h⟩ else 0

/-! ### The C++ sample -/

namespace Cpp

/-- `x++` for an `unsigned`. -/
def succ32 (x : ℤ) : ℤ :=
  (x + 1) % 4294967296

/-- A number stored into an `unsigned long`, of 64 bits. -/
def unsignedLong (x : ℕ) : ℕ :=
  x % 2 ^ 64

/-- A number cast to `long`. -/
def long (x : ℕ) : ℤ :=
  Int.bmod x 18446744073709551616

/-- The loop of the census, from a page on: the offsets read, the page at which it stops, and the
counters. -/
def censusLoop (file : File) (pageSize : ℕ) :
    ℕ → ℕ → Counts → Except Abort (List ℕ × ℕ × Counts)
  | 0, _, _ => .error .outOfFuel
  | fuel + 1, pageNo, counts =>
    let offset := long (unsignedLong (pageNo * pageSize))
    if offset < 0 then
      -- `fseek` fails
      .ok ([], pageNo, counts)
    else
      match file.1[offset.toNat]? with
      | none => .ok ([], pageNo, counts)
      | some c =>
        (censusLoop file pageSize fuel (unsignedLong (pageNo + 1))
          (Function.update counts (slot c) (succ32 (counts (slot c))))).map
            fun r ↦ (offset.toNat :: r.1, r.2)

/-- The line of a type, from 1 on. -/
def line (counts : Counts) (t : Fin 11) : Option ℤ :=
  if t ≠ 0 ∧ counts t ≠ 0 then some (counts t) else none

/-- The census. -/
def census (file : File) (pageSize fuel : ℕ) : Except Abort Census :=
  (censusLoop file pageSize fuel 0 fun _ ↦ 0).map fun r ↦
    { visited := r.1, pages := r.2.1, line := line r.2.2 }

end Cpp

/-! ### The Rust sample -/

namespace Rust

/-- The loop of the census, from an offset on. `u32` additions are checked. -/
def censusLoop (file : File) (pageSize : ℕ) :
    ℕ → ℕ → ℕ → Counts → Except Abort (List ℕ × ℕ × Counts)
  | 0, _, _, _ => .error .outOfFuel
  | fuel + 1, off, pages, counts =>
    match file.1[off]? with
    | none => .ok ([], pages, counts)
    | some t =>
      if counts (slot t) + 1 < 4294967296 then
        (censusLoop file pageSize fuel (off + pageSize) (pages + 1)
          (Function.update counts (slot t) (counts (slot t) + 1))).map fun r ↦ (off :: r.1, r.2)
      else
        .error .panic

/-- The line of a type, from 1 on. -/
def line (counts : Counts) (t : Fin 11) : Option ℤ :=
  if t ≠ 0 ∧ counts t ≠ 0 then some (counts t) else none

/-- The census. -/
def census (file : File) (pageSize fuel : ℕ) : Except Abort Census :=
  (censusLoop file pageSize fuel 0 0 fun _ ↦ 0).map fun r ↦
    { visited := r.1, pages := r.2.1, line := line r.2.2 }

end Rust

/-! ### The Java sample -/

namespace Java

/-- `x++` for an `int`. -/
def succ32 (x : ℤ) : ℤ :=
  Int.bmod (x + 1) 4294967296

/-- The counter of a page, by its byte 0, which is signed. -/
def slot (b : UInt8) : Fin 11 :=
  let t := signed [b]
  if h : 0 ≤ t ∧ t < 11 then ⟨t.toNat, by omega⟩ else 0

/-- The variables of the loop: the buffer `one` and the counters. -/
abbrev Loop : Type :=
  UInt8 × Counts

/-- One round, for page `p`. What is not read leaves the buffer as it was. -/
def round (file : File) (pageSize : ℕ) (s : Loop) (p : ℕ) : Loop :=
  let one := (file.1[p * pageSize]?).getD s.1
  (one, Function.update s.2 (slot one) (succ32 (s.2 (slot one))))

/-- The line of a type, also of type 0. -/
def line (counts : Counts) (t : Fin 11) : Option ℤ :=
  if 0 < counts t then some (counts t) else none

/-- The census. -/
def census (file : File) (pageSize : ℕ) : Census where
  visited := (List.range (file.1.length / pageSize)).map (· * pageSize)
  pages := (file.1.length / pageSize : ℕ)
  line := line
    ((List.range (file.1.length / pageSize)).foldl (round file pageSize) (0, fun _ ↦ 0)).2

end Java

/-! ### Pages -/

/-- The number of pages, with an incomplete one. -/
def pageCount (file : File) (pageSize : ℕ) : ℕ :=
  (file.1.length + pageSize - 1) / pageSize

/-- The first bytes of `k` pages, from page `n` on. -/
def firstBytes (file : File) (pageSize n k : ℕ) : List UInt8 :=
  (List.range' n k).filterMap fun p ↦ file.1[p * pageSize]?

/-- The number of pages of a type; type 0 is everything else. -/
def pagesOfType (file : File) (pageSize : ℕ) (t : Fin 11) : ℕ :=
  (firstBytes file pageSize 0 (pageCount file pageSize)).countP (slot · = t)

theorem mul_lt_iff (file : File) {pageSize : ℕ} (hsize : 0 < pageSize) (n : ℕ) :
    n * pageSize < file.1.length ↔ n < pageCount file pageSize := by
  show _ ↔ n + 1 ≤ pageCount file pageSize
  rw [pageCount, Nat.le_div_iff_mul_le hsize, Nat.add_mul]
  omega

section Pages

variable {file : File} {pageSize n k : ℕ}

theorem firstBytes_succ {b : UInt8} (h : file.1[n * pageSize]? = some b) :
    firstBytes file pageSize n (k + 1) = b :: firstBytes file pageSize (n + 1) k := by
  rw [firstBytes, List.range'_succ, List.filterMap_cons, h]
  rfl

/-- Rounding up and rounding down differ by an incomplete page. -/
theorem pageCount_eq_iff (hsize : 0 < pageSize) :
    pageCount file pageSize = file.1.length / pageSize ↔ pageSize ∣ file.1.length := by
  have hdiv := Nat.div_add_mod file.1.length pageSize
  have hmod := Nat.mod_lt file.1.length hsize
  rw [Nat.dvd_iff_mod_eq_zero, pageCount, Nat.div_eq_iff hsize]
  have hmul : pageSize * (file.1.length / pageSize) = file.1.length / pageSize * pageSize :=
    Nat.mul_comm _ _
  omega

end Pages

/-! ### Counting -/

/-- What a counter that wraps around holds: the number of bytes counted, wrapped around. -/
theorem foldl_update_wrap (wrap : ℤ → ℤ) (hwrap : ∀ x, wrap (wrap x + 1) = wrap (x + 1))
    (slot : UInt8 → Fin 11) (bytes : List UInt8) (start : Counts) (t : Fin 11) :
    bytes.foldl (fun counts b ↦ Function.update counts (slot b) (wrap (counts (slot b) + 1)))
      (fun i ↦ wrap (start i)) t = wrap (start t + bytes.countP (slot · = t)) := by
  induction bytes generalizing start with
  | nil => exact congrArg wrap (Int.add_zero _).symm
  | cons b bytes ih =>
    have hstep : Function.update (fun i ↦ wrap (start i)) (slot b)
        (wrap (wrap (start (slot b)) + 1)) =
        fun i ↦ wrap (Function.update start (slot b) (start (slot b) + 1) i) := by
      funext i
      by_cases hi : i = slot b
      · subst hi
        rw [Function.update_self, Function.update_self, hwrap]
      · rw [Function.update_of_ne hi, Function.update_of_ne hi]
    rw [List.foldl_cons, hstep, ih, List.countP_cons]
    by_cases ht : slot b = t
    · subst ht
      rw [Function.update_self, if_pos (by simp)]
      exact congrArg wrap (by omega)
    · rw [Function.update_of_ne (Ne.symm ht), if_neg (by simpa using ht), Nat.add_zero]

/-! ### The loops -/

theorem Cpp.unsignedLong_of_lt {x : ℕ} (h : x < 2 ^ 64) : Cpp.unsignedLong x = x :=
  Nat.mod_eq_of_lt h

theorem Cpp.long_of_lt {x : ℕ} (h : x < 2 ^ 63) : Cpp.long x = x := by
  unfold Cpp.long
  rw [Int.bmod_eq_emod]
  split_ifs <;> omega

theorem Cpp.long_eq {x : ℕ} (h : x < 2 ^ 64) : Cpp.long x = x ∨ Cpp.long x < 0 := by
  unfold Cpp.long
  rw [Int.bmod_eq_emod]
  split_ifs <;> omega

section Loops

variable {file : File} {pageSize : ℕ}

/-- A round of the C++ loop. -/
theorem Cpp.censusLoop_of_some {n fuel : ℕ} {b : UInt8} (hb : file.1[n * pageSize]? = some b)
    (hn : n + 1 < 2 ^ 64) (counts : Counts) :
    Cpp.censusLoop file pageSize (fuel + 1) n counts =
      (Cpp.censusLoop file pageSize fuel (n + 1)
        (Function.update counts (slot b) (Cpp.succ32 (counts (slot b))))).map
          fun r ↦ (n * pageSize :: r.1, r.2) := by
  have hin : n * pageSize < file.1.length := (List.getElem?_eq_some_iff.1 hb).1
  have hlen := file.2
  rw [Cpp.censusLoop, unsignedLong_of_lt (by omega), long_of_lt (by omega), unsignedLong_of_lt hn]
  simp only [Int.toNat_natCast, hb]
  rw [if_neg (by omega)]

/-- The C++ loop stops behind the last page, with nothing to read or an offset that is no `long`. -/
theorem Cpp.censusLoop_of_none {n fuel : ℕ} (hb : file.1[n * pageSize]? = none)
    (hn : n * pageSize < 2 ^ 64) (counts : Counts) :
    Cpp.censusLoop file pageSize (fuel + 1) n counts = .ok ([], n, counts) := by
  rw [Cpp.censusLoop, unsignedLong_of_lt hn]
  rcases long_eq hn with hlong | hlong
  · rw [hlong]
    simp only [Int.toNat_natCast, hb]
    exact ite_self _
  · rw [if_pos hlong]

/-- **The C++ loop** goes through all the pages that are left, and stops behind them. -/
theorem Cpp.censusLoop_eq (hsize : 0 < pageSize) (hsize' : pageSize < 65536) {n k fuel : ℕ}
    (hk : n + k = pageCount file pageSize) (hfuel : k < fuel) (counts : Counts) :
    Cpp.censusLoop file pageSize fuel n counts =
      .ok ((List.range' n k).map (· * pageSize), n + k,
        (firstBytes file pageSize n k).foldl (fun counts b ↦
          Function.update counts (slot b) (Cpp.succ32 (counts (slot b)))) counts) := by
  have hlen := file.2
  obtain ⟨fuel, rfl⟩ : ∃ f, fuel = f + 1 := Nat.exists_eq_add_one.2 (by omega)
  induction k generalizing n fuel counts with
  | zero =>
    have hend := (mul_lt_iff file hsize n).not.2 (by omega)
    have hnone : file.1[n * pageSize]? = none := List.getElem?_eq_none (by omega)
    have hlong : n * pageSize < 2 ^ 64 := by
      -- the page before, if there is one, begins in the file
      rcases n with _ | n
      · omega
      · have := (mul_lt_iff file hsize n).2 (by omega)
        rw [Nat.add_mul]
        omega
    exact Cpp.censusLoop_of_none hnone hlong counts
  | succ k ih =>
    have hin := (mul_lt_iff file hsize n).2 (by omega)
    have hn : n + 1 < 2 ^ 64 := by
      have := Nat.le_mul_of_pos_right n hsize
      omega
    obtain ⟨fuel, rfl⟩ : ∃ f, fuel = f + 1 := Nat.exists_eq_add_one.2 (by omega)
    obtain ⟨b, hb⟩ : ∃ b, file.1[n * pageSize]? = some b := ⟨_, List.getElem?_eq_getElem hin⟩
    rw [Cpp.censusLoop_of_some hb hn, ih (by omega) _ fuel (by omega), firstBytes_succ hb,
      List.range'_succ, List.foldl_cons, List.map_cons]
    show Except.ok _ = Except.ok _
    rw [Nat.add_assoc, Nat.add_comm 1 k]

/-- Counting a page now or with the pages that are left comes to the same. -/
theorem update_add_countP {n : ℕ} {b : UInt8} (hb : file.1[n * pageSize]? = some b)
    (counts : Counts) (k : ℕ) (t : Fin 11) :
    Function.update counts (slot b) (counts (slot b) + 1) t +
        (firstBytes file pageSize (n + 1) k).countP (slot · = t) =
      counts t + (firstBytes file pageSize n (k + 1)).countP (slot · = t) := by
  rw [firstBytes_succ hb, List.countP_cons]
  by_cases ht : t = slot b
  · subst ht
    rw [Function.update_self, if_pos (by simp)]
    omega
  · rw [Function.update_of_ne ht, if_neg (by simpa using Ne.symm ht)]
    rfl

/-- **The Rust loop** goes through all the pages that are left, and stops behind them, if no counter
goes past the largest 32-bit number; it panics if one does. -/
theorem Rust.censusLoop_eq (hsize : 0 < pageSize) {n k fuel : ℕ}
    (hk : n + k = pageCount file pageSize) (hfuel : k < fuel) (counts : Counts)
    (hcounts : ∀ t, counts t < 4294967296) :
    Rust.censusLoop file pageSize fuel (n * pageSize) n counts =
      if ∀ t, counts t + (firstBytes file pageSize n k).countP (slot · = t) < 4294967296 then
        .ok ((List.range' n k).map (· * pageSize), n + k,
          fun t ↦ counts t + (firstBytes file pageSize n k).countP (slot · = t))
      else .error .panic := by
  obtain ⟨fuel, rfl⟩ : ∃ f, fuel = f + 1 := Nat.exists_eq_add_one.2 (by omega)
  induction k generalizing n fuel counts with
  | zero =>
    have hend := (mul_lt_iff file hsize n).not.2 (by omega)
    have hnone : file.1[n * pageSize]? = none := List.getElem?_eq_none (by omega)
    have hzero : ∀ t, counts t + (firstBytes file pageSize n 0).countP (slot · = t) = counts t :=
      fun t ↦ Int.add_zero _
    simp only [hzero]
    rw [if_pos hcounts, Rust.censusLoop, hnone]
    rfl
  | succ k ih =>
    have hin := (mul_lt_iff file hsize n).2 (by omega)
    obtain ⟨fuel, rfl⟩ : ∃ f, fuel = f + 1 := Nat.exists_eq_add_one.2 (by omega)
    obtain ⟨b, hb⟩ : ∃ b, file.1[n * pageSize]? = some b := ⟨_, List.getElem?_eq_getElem hin⟩
    have hcount := update_add_countP hb counts k
    rw [Rust.censusLoop, hb]
    show (if _ then _ else _) = _
    by_cases hfit : counts (slot b) + 1 < 4294967296
    · have hcounts' : ∀ t, Function.update counts (slot b) (counts (slot b) + 1) t < 4294967296 :=
        (Function.forall_update_iff counts fun _ x ↦ x < 4294967296).2
          ⟨hfit, fun t _ ↦ hcounts t⟩
      have hrest := ih (n := n + 1) (by omega) _ hcounts' fuel (by omega)
      simp only [hcount] at hrest
      rw [if_pos hfit, ← Nat.succ_mul, hrest, List.range'_succ, List.map_cons]
      split_ifs
      · show Except.ok _ = Except.ok _
        rw [Nat.add_assoc, Nat.add_comm 1 k]
      · rfl
    · rw [if_neg hfit, if_neg]
      intro hall
      have hb' := hall (slot b)
      rw [← hcount, Function.update_self] at hb'
      omega

end Loops

/-! ### The three samples -/

section Samples

variable {file : File} {pageSize : ℕ}

theorem Cpp.succ32_wrap (x : ℤ) : (x % 4294967296 + 1) % 4294967296 = (x + 1) % 4294967296 := by
  omega

theorem Java.succ32_wrap (x : ℤ) :
    Int.bmod (Int.bmod x 4294967296 + 1) 4294967296 = Int.bmod (x + 1) 4294967296 := by
  simp only [Int.bmod_eq_emod]
  split_ifs <;> omega

/-- What the C++ sample reports. -/
theorem Cpp.census_eq (hsize : 0 < pageSize) (hsize' : pageSize < 65536) {fuel : ℕ}
    (hfuel : pageCount file pageSize < fuel) :
    Cpp.census file pageSize fuel = .ok
      { visited := (List.range (pageCount file pageSize)).map (· * pageSize)
        pages := pageCount file pageSize
        line := Cpp.line fun t ↦ (pagesOfType file pageSize t : ℤ) % 4294967296 } := by
  have hcounts : (firstBytes file pageSize 0 (pageCount file pageSize)).foldl (fun counts b ↦
      Function.update counts (slot b) (Cpp.succ32 (counts (slot b)))) (fun _ ↦ 0) =
        fun t ↦ (pagesOfType file pageSize t : ℤ) % 4294967296 := by
    funext t
    have h := foldl_update_wrap (· % 4294967296) Cpp.succ32_wrap slot
      (firstBytes file pageSize 0 (pageCount file pageSize)) (fun _ ↦ 0) t
    rw [Int.zero_add] at h
    exact h
  rw [Cpp.census, Cpp.censusLoop_eq hsize hsize' (Nat.zero_add _) hfuel, hcounts,
    List.range_eq_range', Nat.zero_add]
  rfl

/-- What the Rust sample reports. -/
theorem Rust.census_eq (hsize : 0 < pageSize) {fuel : ℕ} (hfuel : pageCount file pageSize < fuel) :
    Rust.census file pageSize fuel =
      if ∀ t, pagesOfType file pageSize t < 4294967296 then .ok
        { visited := (List.range (pageCount file pageSize)).map (· * pageSize)
          pages := pageCount file pageSize
          line := Rust.line fun t ↦ (pagesOfType file pageSize t : ℤ) }
      else .error .panic := by
  have h := Rust.censusLoop_eq hsize (Nat.zero_add (pageCount file pageSize)) hfuel (fun _ ↦ 0)
    fun _ ↦ by omega
  rw [Nat.zero_mul] at h
  simp only [Int.zero_add, Nat.zero_add] at h
  have hfit : (∀ t, pagesOfType file pageSize t < 4294967296) ↔
      ∀ t, ((firstBytes file pageSize 0 (pageCount file pageSize)).countP (slot · = t) : ℤ) <
        4294967296 :=
    forall_congr' fun t ↦ by rw [pagesOfType]; omega
  rw [Rust.census, h, List.range_eq_range']
  simp only [hfit]
  split_ifs <;> rfl

/-- A signed byte 0 is sorted as an unsigned one is. -/
theorem Java.slot_eq (b : UInt8) : Java.slot b = OnDisk.slot b := by
  have hemod : signed [b] % 256 = b.toNat := LittleEndian.signed_emod [b]
  unfold Java.slot OnDisk.slot
  by_cases hb : b.toNat < 11
  · have hsigned : signed [b] = b.toNat :=
      LittleEndian.signed_eq_value_iff.2 (show 2 * b.toNat < 256 by omega)
    rw [dif_pos hb]
    show dite _ _ _ = _
    rw [dif_pos ⟨by omega, by omega⟩]
    refine Fin.ext ?_
    show (signed [b]).toNat = b.toNat
    rw [hsigned, Int.toNat_natCast]
  · rw [dif_neg hb]
    show dite _ _ _ = _
    rw [dif_neg (by omega)]

/-- The Java loop reads a byte of every page it visits, since none is incomplete. -/
theorem Java.foldl_round (hsize : 0 < pageSize) {n k : ℕ} (hk : n + k ≤ file.1.length / pageSize)
    (s : Java.Loop) :
    ((List.range' n k).foldl (Java.round file pageSize) s).2 =
      (firstBytes file pageSize n k).foldl (fun counts b ↦
        Function.update counts (OnDisk.slot b) (Java.succ32 (counts (OnDisk.slot b)))) s.2 := by
  induction k generalizing n s with
  | zero => rfl
  | succ k ih =>
    have hin : n * pageSize < file.1.length := by
      have := (Nat.le_div_iff_mul_le hsize).1 hk
      rw [← Nat.add_assoc, Nat.add_mul, Nat.add_mul] at this
      omega
    obtain ⟨b, hb⟩ : ∃ b, file.1[n * pageSize]? = some b := ⟨_, List.getElem?_eq_getElem hin⟩
    rw [List.range'_succ, List.foldl_cons, ih (by omega), firstBytes_succ hb, List.foldl_cons]
    show List.foldl _ (Function.update _ (Java.slot _) _) _ = _
    rw [hb, Option.getD_some, Java.slot_eq]

/-- What the Java sample reports. -/
theorem Java.census_eq (hsize : 0 < pageSize) :
    Java.census file pageSize =
      { visited := (List.range (file.1.length / pageSize)).map (· * pageSize)
        pages := (file.1.length / pageSize : ℕ)
        line := Java.line fun t ↦
          Int.bmod ((firstBytes file pageSize 0 (file.1.length / pageSize)).countP
            (OnDisk.slot · = t)) 4294967296 } := by
  have hcounts : ((List.range (file.1.length / pageSize)).foldl (Java.round file pageSize)
      (0, fun _ ↦ 0)).2 = fun t ↦
        Int.bmod ((firstBytes file pageSize 0 (file.1.length / pageSize)).countP
          (OnDisk.slot · = t)) 4294967296 := by
    funext t
    have h := foldl_update_wrap (Int.bmod · 4294967296) Java.succ32_wrap OnDisk.slot
      (firstBytes file pageSize 0 (file.1.length / pageSize)) (fun _ ↦ 0) t
    rw [Int.zero_add] at h
    rw [List.range_eq_range', Java.foldl_round hsize (Nat.zero_add _).le]
    exact h
  rw [Java.census, hcounts]

/-- Without an incomplete page, these are all pages. -/
theorem Java.census_eq_of_dvd (hsize : 0 < pageSize) (hdvd : pageSize ∣ file.1.length) :
    Java.census file pageSize =
      { visited := (List.range (pageCount file pageSize)).map (· * pageSize)
        pages := pageCount file pageSize
        line := Java.line fun t ↦ Int.bmod (pagesOfType file pageSize t) 4294967296 } := by
  rw [Java.census_eq hsize, ← (pageCount_eq_iff hsize).2 hdvd]
  rfl

/-- The lines of the C++ and the Java sample are the same as long as no counter turns negative. -/
theorem line_eq_iff {count : ℤ} (hcount : 0 ≤ count) (hcount' : count < 4294967296) :
    ((if count % 4294967296 ≠ 0 then some (count % 4294967296) else none) =
        if 0 < Int.bmod count 4294967296 then some (Int.bmod count 4294967296) else none) ↔
      count < 2147483648 := by
  rw [Int.bmod_eq_emod, Int.emod_eq_of_lt hcount hcount']
  split_ifs <;> simp <;> omega

end Samples

/-! ### Where the samples agree -/

/-- Two reports are the same, apart from what is counted as of type 0. -/
structure Census.Same (a b : Census) : Prop where
  visited : a.visited = b.visited
  pages : a.pages = b.pages
  line : ∀ t ≠ 0, a.line t = b.line t

/-- A census ends with a report, and more rounds would not change it. -/
def Reports (census : ℕ → Except Abort Census) (report : Census) : Prop :=
  ∃ rounds, ∀ fuel, rounds < fuel → census fuel = .ok report

/-- The three samples report the same, with the page size the header page gives. -/
def Agree (file : File) : Prop :=
  ∃ cpp rust, Reports (Cpp.census file file.pageSize) cpp ∧
    Reports (Rust.census file file.pageSize) rust ∧
      cpp.Same rust ∧ cpp.Same (Java.census file file.pageSize)

theorem reports_iff {census : ℕ → Except Abort Census} {result : Except Abort Census} {rounds : ℕ}
    (h : ∀ fuel, rounds < fuel → census fuel = result) {report : Census} :
    Reports census report ↔ result = .ok report := by
  constructor
  · rintro ⟨rounds', h'⟩
    rw [← h (rounds + rounds' + 1) (by omega), h' _ (by omega)]
  · rintro rfl
    exact ⟨rounds, h⟩

theorem File.pageSize_lt (file : File) : file.pageSize < 65536 := by
  have hlt := LittleEndian.value_lt ((file.1.drop 16).take 2)
  have hlen : ((file.1.drop 16).take 2).length ≤ 2 := List.length_take_le 2 _
  exact Nat.lt_of_lt_of_le hlt (Nat.pow_le_pow_right (by omega) hlen)

/-- C++ and Java agree on the number of pages if none is incomplete. -/
theorem Agree.dvd {file : File} (hsize : 0 < file.pageSize) (h : Agree file) :
    file.pageSize ∣ file.1.length := by
  obtain ⟨cpp, rust, hcpp, -, -, hjava⟩ := h
  rw [reports_iff fun _ hfuel ↦ Cpp.census_eq hsize file.pageSize_lt hfuel] at hcpp
  cases hcpp
  have hpages := hjava.pages
  rw [Java.census_eq hsize] at hpages
  exact (pageCount_eq_iff hsize).1 (Int.ofNat_inj.1 hpages)

/-- A file that begins with a page of `pageSize` bytes, and of `length` bytes in all. -/
def fileOf (pageSize : UInt8) (length : ℕ) (hlength : length < 2 ^ 62) : File :=
  ⟨1 :: List.replicate 15 0 ++ pageSize :: List.replicate length 0, by
    simp only [List.length_append, List.length_cons, List.length_replicate]
    omega⟩

end FirebirdSamples.OnDisk
