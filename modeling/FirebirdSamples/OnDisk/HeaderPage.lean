import FirebirdSamples.Library.LittleEndian

/-!
# The header page

What `samples/cpp/ods_header.cpp` and its Java twin `OdsHeader.java` make of the header page of a
database file: the same fields at the same offsets, in the numbers of two languages. The C++ sample
copies bytes into unsigned numbers, on a little-endian machine. Java has signed numbers only, and
its sample converts some of them to unsigned ones and leaves the others as they are.

**Where they agree.** The readings of a field agree on the lower half of its range, and a converted
field agrees anywhere. Moreover the Java sample looks the page type up in its table without asking
whether it is there. So the samples report the same exactly on the pages that are `Plain`
(`header_agree_iff`).
-/

namespace FirebirdSamples.OnDisk

open LittleEndian (value signed)

/-- A header page, as far as it is read. -/
abbrev HeaderPage : Type :=
  {h : List UInt8 // h.length = 152}

/-- The `n` bytes at an offset. -/
def HeaderPage.field (h : HeaderPage) (offset n : ℕ) : List UInt8 :=
  (h.1.drop offset).take n

/-- The facts that both samples print about a header page. -/
structure Facts where
  /-- `pag_type`. -/
  pageType : ℤ
  /-- Its name. -/
  typeName : String
  /-- `pag_flags`. -/
  pageFlags : ℤ
  /-- `hdr_page_size`. -/
  pageSize : ℤ
  /-- `hdr_ods_version`, with the flag. -/
  odsRaw : ℤ
  /-- The ODS version without the flag. -/
  ods : ℤ
  /-- The flag. -/
  firebird : Bool
  /-- The minor version. -/
  minor : ℤ
  /-- `hdr_flags`. -/
  flags : ℤ
  /-- The names of the flags that are set. -/
  flagNames : String
  /-- `hdr_PAGES`. -/
  pages : ℤ
  /-- `hdr_next_transaction`. -/
  nextTransaction : ℤ
  /-- `hdr_oldest_transaction`. -/
  oldestTransaction : ℤ
  /-- `hdr_oldest_active`. -/
  oldestActive : ℤ
  /-- `hdr_oldest_snapshot`. -/
  oldestSnapshot : ℤ
  /-- `hdr_guid`. -/
  guid : List Char
  deriving DecidableEq

/-- The names of the page types. -/
def pageTypes : List String :=
  ["undefined", "pag_header", "pag_pages (PIP)", "pag_transactions (TIP)", "pag_pointer",
    "pag_data", "pag_root", "pag_index (b-tree)", "pag_blob", "pag_ids (generators)", "pag_scns"]

/-- The names of the flags that both samples know. -/
def flagNames (flags : ℕ) : String :=
  (if flags &&& 0x2 ≠ 0 then "force_write " else "") ++
    (if flags &&& 0x8 ≠ 0 then "no_reserve " else "") ++
    if flags &&& 0x10 ≠ 0 then "SQL_dialect_3" else ""

/-- `%0nX`: upper-case hexadecimal digits, with zeros up to a width. -/
def formatX (width n : ℕ) : List Char :=
  let digits := (Nat.toDigits 16 n).map Char.toUpper
  List.replicate (width - digits.length) '0' ++ digits

/-! ### The C++ sample -/

namespace Cpp

/-- `u16(b, o)`. -/
def u16 (h : HeaderPage) (o : ℕ) : ℕ :=
  value (h.field o 2)

/-- `u32(b, o)`. -/
def u32 (h : HeaderPage) (o : ℕ) : ℕ :=
  value (h.field o 4)

/-- `u64(b, o)`. -/
def u64 (h : HeaderPage) (o : ℕ) : ℕ :=
  value (h.field o 8)

/-- `h[o]`. -/
def u8 (h : HeaderPage) (o : ℕ) : ℕ :=
  value (h.field o 1)

/-- `pageTypeName(t)`. -/
def pageTypeName (t : ℕ) : String :=
  if t ≤ 10 then pageTypes.getD t "" else "???"

/-- The GUID that is printed. -/
def guid (h : HeaderPage) : List Char :=
  '{' :: (formatX 8 (u32 h 84) ++ '-' :: (formatX 4 (u16 h 88) ++ '-' :: (formatX 4 (u16 h 90) ++
    '-' :: (formatX 2 (u8 h 92) ++ formatX 2 (u8 h 93) ++ '-' :: (formatX 2 (u8 h 94) ++
    formatX 2 (u8 h 95) ++ formatX 2 (u8 h 96) ++ formatX 2 (u8 h 97) ++ formatX 2 (u8 h 98) ++
    formatX 2 (u8 h 99) ++ ['}'])))))

/-- The part of `main` that prints the header page. -/
def header (h : HeaderPage) : Facts where
  pageType := u8 h 0
  typeName := pageTypeName (u8 h 0)
  pageFlags := u8 h 1
  pageSize := u16 h 16
  odsRaw := u16 h 18
  ods := (u16 h 18 &&& 0x7fff : ℕ)
  firebird := u16 h 18 &&& 0x8000 ≠ 0
  minor := u16 h 20
  flags := u16 h 22
  flagNames := flagNames (u16 h 22)
  pages := u32 h 28
  nextTransaction := u64 h 40
  oldestTransaction := u64 h 48
  oldestActive := u64 h 56
  oldestSnapshot := u64 h 64
  guid := guid h

end Cpp

/-! ### The Java sample -/

/-- The exceptions of `fileView`. -/
inductive Thrown where
  /-- `ArrayIndexOutOfBoundsException`. -/
  | index (i : ℤ)
  deriving DecidableEq

namespace Java

/-- `h.get(o)`. -/
def get (h : HeaderPage) (o : ℕ) : ℤ :=
  signed (h.field o 1)

/-- `h.getShort(o)`. -/
def getShort (h : HeaderPage) (o : ℕ) : ℤ :=
  signed (h.field o 2)

/-- `h.getInt(o)`. -/
def getInt (h : HeaderPage) (o : ℕ) : ℤ :=
  signed (h.field o 4)

/-- `h.getLong(o)`. -/
def getLong (h : HeaderPage) (o : ℕ) : ℤ :=
  signed (h.field o 8)

/-- `Short.toUnsignedInt(x)`. -/
def shortToUnsignedInt (x : ℤ) : ℕ :=
  (x % 65536).toNat

/-- `Integer.toUnsignedLong(x)`. -/
def intToUnsignedLong (x : ℤ) : ℕ :=
  (x % 4294967296).toNat

/-- `String.format` with `%0nX`, for a number of some bytes. Of a negative one it shows the
two's complement. -/
def formatHex (width bytes : ℕ) (x : ℤ) : List Char :=
  formatX width (x % (256 ^ bytes : ℕ)).toNat

/-- `PAGE_TYPES[type]`. -/
def pageTypeName (type : ℤ) : Except Thrown String :=
  if type < 0 then .error (.index type)
  else match pageTypes[type.toNat]? with
    | some name => .ok name
    | none => .error (.index type)

/-- `guid(h, o)`. -/
def guid (h : HeaderPage) (o : ℕ) : List Char :=
  let start := '{' :: (formatHex 8 4 (getInt h o) ++ '-' :: (formatHex 4 2 (getShort h (o + 4)) ++
    '-' :: (formatHex 4 2 (getShort h (o + 6)) ++ ['-'])))
  let bytes := (List.range' 8 8).foldl (fun sb i ↦
    sb ++ formatHex 2 1 (get h (o + i)) ++ if i = 9 then ['-'] else []) start
  bytes ++ ['}']

/-- The part of `fileView` that prints the header page. -/
def fileView (h : HeaderPage) : Except Thrown Facts := do
  let type := get h 0
  let pageSize := shortToUnsignedInt (getShort h 16)
  let ods := shortToUnsignedInt (getShort h 18)
  let flags := shortToUnsignedInt (getShort h 22)
  let typeName ← pageTypeName type
  pure {
    pageType := type
    typeName
    pageFlags := get h 1
    pageSize
    odsRaw := ods
    ods := (ods &&& 0x7fff : ℕ)
    firebird := ods &&& 0x8000 ≠ 0
    minor := getShort h 20
    flags
    flagNames := flagNames flags
    pages := intToUnsignedLong (getInt h 28)
    nextTransaction := getLong h 40
    oldestTransaction := getLong h 48
    oldestActive := getLong h 56
    oldestSnapshot := getLong h 64
    guid := guid h 84 }

end Java

/-! ### Fields -/

section Fields

variable (h : HeaderPage) {o n : ℕ}

theorem length_field (ho : o + n ≤ 152) : (h.field o n).length = n := by
  have hlen := h.2
  rw [HeaderPage.field, List.length_take, List.length_drop]
  omega

/-- A signed reading of a field, converted to an unsigned one. -/
theorem toNat_signed_field (ho : o + n ≤ 152) :
    (signed (h.field o n) % (256 ^ n : ℕ)).toNat = value (h.field o n) := by
  have := LittleEndian.toNat_signed_emod (h.field o n)
  rwa [length_field h ho] at this

theorem signed_field_eq_iff (ho : o + n ≤ 152) :
    signed (h.field o n) = value (h.field o n) ↔ 2 * value (h.field o n) < 256 ^ n := by
  rw [LittleEndian.signed_eq_value_iff, length_field h ho]

/-- **Converted fields agree.** -/
theorem shortToUnsignedInt_getShort (ho : o + 2 ≤ 152) :
    Java.shortToUnsignedInt (Java.getShort h o) = Cpp.u16 h o :=
  toNat_signed_field h ho

theorem intToUnsignedLong_getInt (ho : o + 4 ≤ 152) :
    Java.intToUnsignedLong (Java.getInt h o) = Cpp.u32 h o :=
  toNat_signed_field h ho

/-- **Hexadecimal digits agree**: the two's complement is shown. -/
theorem formatHex_signed_field (width : ℕ) (ho : o + n ≤ 152) :
    Java.formatHex width n (signed (h.field o n)) = formatX width (value (h.field o n)) := by
  rw [Java.formatHex, toNat_signed_field h ho]

/-- The GUIDs are the same. -/
theorem guid_eq : Java.guid h 84 = Cpp.guid h := by
  have hint : ∀ width o, o + 4 ≤ 152 →
      Java.formatHex width 4 (Java.getInt h o) = formatX width (Cpp.u32 h o) :=
    fun width o ho ↦ formatHex_signed_field h width ho
  have hshort : ∀ width o, o + 2 ≤ 152 →
      Java.formatHex width 2 (Java.getShort h o) = formatX width (Cpp.u16 h o) :=
    fun width o ho ↦ formatHex_signed_field h width ho
  have hbyte : ∀ width o, o + 1 ≤ 152 →
      Java.formatHex width 1 (Java.get h o) = formatX width (Cpp.u8 h o) :=
    fun width o ho ↦ formatHex_signed_field h width ho
  simp [Java.guid, Cpp.guid, List.range', hint, hshort, hbyte]

end Fields

/-! ### Where the samples agree -/

/-- The facts that the samples have in common. -/
structure SameFacts (f g : Facts) : Prop where
  /-- Page type. -/
  pageType : f.pageType = g.pageType
  /-- Page flags. -/
  pageFlags : f.pageFlags = g.pageFlags
  /-- Page size. -/
  pageSize : f.pageSize = g.pageSize
  /-- ODS version with the flag. -/
  odsRaw : f.odsRaw = g.odsRaw
  /-- ODS version. -/
  ods : f.ods = g.ods
  /-- Minor version. -/
  minor : f.minor = g.minor
  /-- Header flags. -/
  flags : f.flags = g.flags
  /-- The first pointer page. -/
  pages : f.pages = g.pages
  /-- Next transaction. -/
  nextTransaction : f.nextTransaction = g.nextTransaction
  /-- Oldest transaction. -/
  oldestTransaction : f.oldestTransaction = g.oldestTransaction
  /-- Oldest active transaction. -/
  oldestActive : f.oldestActive = g.oldestActive
  /-- Oldest snapshot. -/
  oldestSnapshot : f.oldestSnapshot = g.oldestSnapshot
  /-- GUID. -/
  guid : f.guid = g.guid

/-- **A plain header page**: its type is in the table, and the fields that Java does not convert are
in the lower half of their range. -/
structure Plain (h : HeaderPage) : Prop where
  /-- The page type has a name. -/
  type_le : Cpp.u8 h 0 ≤ 10
  /-- The page flags are less than 128. -/
  flags_lt : Cpp.u8 h 1 < 128
  /-- The minor version is less than 2 ^ 15. -/
  minor_lt : Cpp.u16 h 20 < 32768
  /-- The transaction markers are less than 2 ^ 63. -/
  markers_lt : ∀ o ∈ [40, 48, 56, 64], Cpp.u64 h o < 9223372036854775808

section Agree

variable {h : HeaderPage}

theorem get_eq_iff {o : ℕ} (ho : o + 1 ≤ 152) : Java.get h o = Cpp.u8 h o ↔ Cpp.u8 h o < 128 := by
  rw [Java.get, Cpp.u8, signed_field_eq_iff h ho]
  omega

theorem getShort_eq_iff {o : ℕ} (ho : o + 2 ≤ 152) :
    Java.getShort h o = Cpp.u16 h o ↔ Cpp.u16 h o < 32768 := by
  rw [Java.getShort, Cpp.u16, signed_field_eq_iff h ho]
  omega

theorem getLong_eq_iff {o : ℕ} (ho : o + 8 ≤ 152) :
    Java.getLong h o = Cpp.u64 h o ↔ Cpp.u64 h o < 9223372036854775808 := by
  rw [Java.getLong, Cpp.u64, signed_field_eq_iff h ho]
  omega

/-- A type that the table has. -/
theorem pageTypeName_eq {type : ℕ} (ht : type ≤ 10) :
    Java.pageTypeName type = .ok (Cpp.pageTypeName type) := by
  have hall : ∀ t : Fin 11, Java.pageTypeName (t : ℕ) = .ok (Cpp.pageTypeName t) := by decide
  exact hall ⟨type, Nat.lt_succ_of_le ht⟩

/-- On a plain page the samples print the same. -/
theorem fileView_of_plain (hplain : Plain h) : Java.fileView h = .ok (Cpp.header h) := by
  have htype := (get_eq_iff (h := h) (by decide)).2 (Nat.lt_of_le_of_lt hplain.type_le (by decide))
  have hmarker : ∀ o ∈ [40, 48, 56, 64], Java.getLong h o = Cpp.u64 h o := by
    intro o ho
    refine (getLong_eq_iff ?_).2 (hplain.markers_lt o ho)
    revert o
    decide
  rw [Java.fileView, htype, pageTypeName_eq hplain.type_le]
  show Except.ok _ = Except.ok _
  rw [shortToUnsignedInt_getShort h (by decide), shortToUnsignedInt_getShort h (by decide),
    shortToUnsignedInt_getShort h (by decide), intToUnsignedLong_getInt h (by decide), guid_eq,
    (get_eq_iff (by decide)).2 hplain.flags_lt, (getShort_eq_iff (by decide)).2 hplain.minor_lt,
    hmarker 40 (by decide), hmarker 48 (by decide), hmarker 56 (by decide), hmarker 64 (by decide)]
  rfl

/-- Pages that the Java sample gets through have a type in the table. -/
theorem le_of_pageTypeName {type : ℤ} {name : String} (hname : Java.pageTypeName type = .ok name) :
    type ≤ 10 := by
  by_contra hgt
  have hnone : pageTypes[type.toNat]? = none := by
    refine List.getElem?_eq_none ?_
    show 11 ≤ type.toNat
    omega
  rw [Java.pageTypeName, if_neg (by omega), hnone] at hname
  cases hname

theorem plain_of_sameFacts {f : Facts} (hf : Java.fileView h = .ok f)
    (hsame : SameFacts (Cpp.header h) f) : Plain h := by
  rcases hname : Java.pageTypeName (Java.get h 0) with e | name
  · rw [Java.fileView, hname] at hf
    cases hf
  · rw [Java.fileView, hname] at hf
    obtain rfl := Except.ok.inj hf
    have htype : (Cpp.u8 h 0 : ℤ) = Java.get h 0 := hsame.pageType
    refine ⟨?_, (get_eq_iff (by decide)).1 hsame.pageFlags.symm,
      (getShort_eq_iff (by decide)).1 hsame.minor.symm, ?_⟩
    · have := le_of_pageTypeName hname
      omega
    · intro o ho
      simp only [List.mem_cons, List.not_mem_nil, or_false] at ho
      rcases ho with rfl | rfl | rfl | rfl
      · exact (getLong_eq_iff (by decide)).1 hsame.nextTransaction.symm
      · exact (getLong_eq_iff (by decide)).1 hsame.oldestTransaction.symm
      · exact (getLong_eq_iff (by decide)).1 hsame.oldestActive.symm
      · exact (getLong_eq_iff (by decide)).1 hsame.oldestSnapshot.symm

end Agree

/-- **The samples report the same header page exactly if it is plain.** -/
theorem header_agree_iff (h : HeaderPage) :
    (∃ f, Java.fileView h = .ok f ∧ SameFacts (Cpp.header h) f) ↔ Plain h := by
  constructor
  · rintro ⟨f, hf, hsame⟩
    exact plain_of_sameFacts hf hsame
  · intro hplain
    exact ⟨_, fileView_of_plain hplain, rfl, rfl, rfl, rfl, rfl, rfl, rfl, rfl, rfl, rfl, rfl, rfl,
      rfl⟩

/-- A page that begins with two bytes and is empty behind them. -/
def pageOf (type flags : UInt8) : HeaderPage :=
  ⟨type :: flags :: List.replicate 150 0, by simp⟩

/-- A page of type 11 throws the Java sample out, and page flags of 128 are printed as -128. -/
theorem not_header_agree_of_type_eleven :
    (¬ ∃ f, Java.fileView (pageOf 11 0) = .ok f ∧ SameFacts (Cpp.header (pageOf 11 0)) f) ∧
      ¬ ∃ f, Java.fileView (pageOf 1 128) = .ok f ∧ SameFacts (Cpp.header (pageOf 1 128)) f := by
  constructor
  · rintro ⟨f, hf, hsame⟩
    exact absurd (plain_of_sameFacts hf hsame).type_le (by decide)
  · rintro ⟨f, hf, hsame⟩
    exact absurd (plain_of_sameFacts hf hsame).flags_lt (by decide)

end FirebirdSamples.OnDisk
