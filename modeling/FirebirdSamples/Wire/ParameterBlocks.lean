import FirebirdSamples.Library.TagLengthValue
import FirebirdSamples.Wire.Handshake

/-!
# The parameter blocks

The server takes `userIdBlock` apart as a sequence of tags, one-byte lengths and payloads, and the
database parameters likewise, behind a version byte. The client writes both entry by entry
(`userIdBlock_eq`, `dpb_eq`), so they are read back as they were meant if every payload has a
length that fits into a byte.

The public key is cut into blocks whose lengths do, and their sequence numbers are in order
(`reassemble_specificDataEntries`). What is not cut is the user name, the plugin name and the plugin
list: a payload that is read back has at most 255 bytes, so that a longer name never is. So the
blocks carry what the client means exactly if these three have at most 255 bytes in UTF-8
(`parametersRead_iff`).
-/

namespace FirebirdSamples.Wire

open TagLengthValue Srp

/-! ### The entries of the blocks -/

/-- The entry of a text. -/
def textEntry (tag : UInt8) (text : String) : Entry :=
  ⟨tag, Buffer.ofString text⟩

/-- The blocks of the public key: a sequence number and at most 254 characters. -/
def specificDataEntries (specificData : List Char) : List Entry :=
  (List.range ((specificData.length + 253) / 254)).map fun i ↦
    ⟨Cnct.specificData.code, UInt8.ofNat i ::
      Buffer.ofString (String.ofList ((specificData.drop (i * 254)).take 254))⟩

/-- The entries of `userIdBlock`. -/
def userIdEntries (login pluginName pluginList : String) (specificData : List Char) : List Entry :=
  [textEntry Cnct.login.code login, textEntry Cnct.pluginName.code pluginName,
      textEntry Cnct.pluginList.code pluginList] ++ specificDataEntries specificData ++
    [⟨Cnct.clientCrypt.code, [wireCryptEnabled, 0, 0, 0]⟩, textEntry Cnct.user.code "demo",
      textEntry Cnct.host.code "localhost", ⟨Cnct.userVerification.code, []⟩]

/-- The entries of the database parameters. -/
def dpbEntries (user : String) : List Entry :=
  [textEntry 48 "NONE", textEntry 28 user]

theorem tlv_eq (tag : Cnct) (data : String) :
    tlv tag data = (textEntry tag.code data).encode 1 :=
  rfl

theorem specificDataBlocks_eq (specificData : List Char) :
    specificDataBlocks specificData = (specificDataEntries specificData).flatMap (·.encode 1) := by
  rw [specificDataEntries, List.flatMap_map]
  rfl

/-- The user identification block is made of entries. -/
theorem userIdBlock_eq (login pluginName pluginList : String) (specificData : List Char) :
    userIdBlock login pluginName pluginList specificData =
      (userIdEntries login pluginName pluginList specificData).flatMap (·.encode 1) := by
  rw [userIdBlock, userIdEntries, specificDataBlocks_eq, List.flatMap_append, List.flatMap_append]
  simp only [List.flatMap_cons, List.flatMap_nil, tlv_eq, List.append_assoc, List.append_nil]
  rfl

/-- The database parameters are a version and entries. -/
theorem dpb_eq (cfg : Config) : dpb cfg = 1 :: (dpbEntries cfg.USER).flatMap (·.encode 1) := by
  rw [dpbEntries, List.flatMap_cons, List.flatMap_cons, List.flatMap_nil, List.append_nil]
  rfl

/-! ### The public key -/

/-- Blocks in the order of their sequence numbers, which are left out. -/
def reassemble (blocks : List Buffer) : Buffer :=
  (blocks.mergeSort fun b c ↦ b.headD 0 ≤ c.headD 0).flatMap List.tail

theorem payloads_specificDataEntries (specificData : List Char) :
    payloads Cnct.specificData.code (specificDataEntries specificData) =
      (specificDataEntries specificData).map (·.payload) := by
  rw [payloads, List.filter_eq_self.2]
  intro e he
  obtain ⟨i, -, rfl⟩ := List.mem_map.1 he
  rfl

theorem payloads_specificDataEntries_of_ne {tag : UInt8} (htag : tag ≠ Cnct.specificData.code)
    (specificData : List Char) : payloads tag (specificDataEntries specificData) = [] := by
  rw [payloads, List.filter_eq_nil_iff.2, List.map_nil]
  intro e he
  obtain ⟨i, -, rfl⟩ := List.mem_map.1 he
  simpa using Ne.symm htag

/-- The parts of a text make up the text. -/
theorem flatMap_parts (cs : List Char) (n : ℕ) :
    ((List.range n).flatMap fun i ↦
        Buffer.ofString (String.ofList ((cs.drop (i * 254)).take 254))) =
      Buffer.ofString (String.ofList (cs.take (n * 254))) := by
  induction n with
  | zero => rfl
  | succ n ih =>
    rw [List.range_succ, List.flatMap_append, ih, List.flatMap_singleton, Nat.succ_mul,
      List.take_add]
    simp only [Buffer.ofString_ofList, List.flatMap_append]

/-- **The blocks of the public key make up its text.** A byte numbers 256 of them. -/
theorem reassemble_specificDataEntries {specificData : List Char}
    (hlength : specificData.length ≤ 65024) :
    reassemble (payloads Cnct.specificData.code (specificDataEntries specificData)) =
      Buffer.ofString (String.ofList specificData) := by
  have hsorted : ((specificDataEntries specificData).map (·.payload)).Pairwise
      fun b c ↦ decide (b.headD 0 ≤ c.headD 0) := by
    rw [specificDataEntries, List.map_map, List.pairwise_map]
    refine List.pairwise_lt_range.imp_of_mem fun hi hj hlt ↦ decide_eq_true ?_
    rw [List.mem_range] at hi hj
    show UInt8.ofNat _ ≤ UInt8.ofNat _
    rw [UInt8.le_iff_toNat_le, UInt8.toNat_ofNat', UInt8.toNat_ofNat']
    omega
  rw [payloads_specificDataEntries, reassemble, List.mergeSort_of_pairwise hsorted,
    specificDataEntries, List.map_map, List.flatMap_map]
  refine (flatMap_parts specificData _).trans ?_
  rw [List.take_of_length_le (by omega)]

theorem utf8EncodeChar_digitChar {d : ℕ} (hd : d < 16) :
    (String.utf8EncodeChar (Nat.digitChar d)).length = 1 := by
  interval_cases d <;> rfl

/-- The digits of a number are hexadecimal digits. -/
theorem exists_digitChar_of_mem_toDigits {c : Char} {n : ℕ} (hc : c ∈ Nat.toDigits 16 n) :
    ∃ d < 16, c = Nat.digitChar d := by
  induction n using Nat.strongRecOn with
  | ind n ih =>
    rw [Nat.toDigits_eq_if (by omega)] at hc
    split_ifs at hc with hn
    · exact ⟨n, hn, List.mem_singleton.1 hc⟩
    · rcases List.mem_append.1 hc with hc | hc
      · exact ih _ (by omega) hc
      · exact ⟨n % 16, by omega, List.mem_singleton.1 hc⟩

/-- The text of a public key takes one byte for a character. -/
theorem length_utf8EncodeChar_of_mem_bigToHex {A : ℤ} (hA : 0 ≤ A) {c : Char}
    (hc : c ∈ bigToHex A) : (String.utf8EncodeChar c).length = 1 := by
  obtain ⟨d, hd, rfl⟩ : ∃ d < 16, c = Nat.digitChar d := by
    rw [bigToHex_of_nonneg hA] at hc
    split_ifs at hc
    · rcases List.mem_cons.1 hc with rfl | hc
      · exact ⟨0, by omega, rfl⟩
      · exact exists_digitChar_of_mem_toDigits hc
    · exact exists_digitChar_of_mem_toDigits hc
  exact utf8EncodeChar_digitChar hd

/-- A public key has at most 256 hexadecimal digits. -/
theorem length_bigToHex_le {A : ℤ} (hA : 0 ≤ A) (hAN : A < N) : (bigToHex A).length ≤ 256 := by
  have hlt : A.natAbs < 16 ^ 256 := by
    have : N < 16 ^ 256 := by decide
    omega
  have hdigits := (Nat.length_toDigits_le_iff (by omega) (by omega)).2 hlt
  rw [bigToHex_of_nonneg hA]
  split_ifs
  · rw [List.length_cons]
    omega
  · exact hdigits

/-- Each block of the public key has a length that fits into a byte. -/
theorem fits_specificDataEntries {A : ℤ} (hA : 0 ≤ A) {e : Entry}
    (he : e ∈ specificDataEntries (bigToHex A)) : e.Fits 1 := by
  obtain ⟨i, -, rfl⟩ := List.mem_map.1 he
  have hpart : (Buffer.ofString (String.ofList
      (((bigToHex A).drop (i * 254)).take 254))).length ≤ 254 := by
    rw [Buffer.ofString_ofList, List.length_flatMap,
      List.map_congr_left (g := fun _ ↦ 1) fun c hc ↦
        length_utf8EncodeChar_of_mem_bigToHex hA (List.mem_of_mem_drop (List.mem_of_mem_take hc)),
      List.map_const', List.sum_replicate, List.length_take]
    simp only [smul_eq_mul]
    omega
  rw [Entry.Fits, List.length_cons]
  omega

/-! ### What the server reads -/

/-- What the server must find in the user identification block. -/
structure UserIdReads (login pluginName pluginList : String) (specificData : List Char)
    (es : List Entry) : Prop where
  login : payloads Cnct.login.code es = [Buffer.ofString login]
  pluginName : payloads Cnct.pluginName.code es = [Buffer.ofString pluginName]
  pluginList : payloads Cnct.pluginList.code es = [Buffer.ofString pluginList]
  specificData : reassemble (payloads Cnct.specificData.code es) =
    Buffer.ofString (String.ofList specificData)
  clientCrypt : payloads Cnct.clientCrypt.code es = [[wireCryptEnabled, 0, 0, 0]]

/-- What the server must find in the database parameters: character set and user. -/
structure DpbReads (user : String) (es : List Entry) : Prop where
  charset : payloads 48 es = [Buffer.ofString "NONE"]
  userName : payloads 28 es = [Buffer.ofString user]

/-- Both blocks can be taken apart, to what the client means. -/
def ParametersRead (cfg : Config) (pluginName pluginList : String) (A : ℤ) : Prop :=
  (∃ es, read 1 (userIdBlock cfg.USER pluginName pluginList (bigToHex A)) = some es ∧
      UserIdReads cfg.USER pluginName pluginList (bigToHex A) es) ∧
    ∃ es, (dpb cfg).head? = some 1 ∧ read 1 (dpb cfg).tail = some es ∧ DpbReads cfg.USER es

/-- A text that is read back has at most 255 bytes. -/
theorem length_le_of_payloads_eq {b : Buffer} {es : List Entry} {tag : UInt8} {text : String}
    (hread : read 1 b = some es) (h : payloads tag es = [Buffer.ofString text]) :
    (Buffer.ofString text).length ≤ 255 := by
  have hmem : Buffer.ofString text ∈ payloads tag es := h ▸ List.mem_singleton_self _
  have hlt := length_lt_of_mem_payloads hread hmem
  omega

theorem userIdReads_userIdEntries (login pluginName pluginList : String)
    {specificData : List Char} (hlength : specificData.length ≤ 65024) :
    UserIdReads login pluginName pluginList specificData
      (userIdEntries login pluginName pluginList specificData) := by
  constructor
  case specificData =>
    rw [userIdEntries, payloads_append, payloads_append]
    show reassemble ([] ++ payloads _ _ ++ []) = _
    rw [List.nil_append, List.append_nil]
    exact reassemble_specificDataEntries hlength
  all_goals
    rw [userIdEntries, payloads_append, payloads_append,
      payloads_specificDataEntries_of_ne (by decide)]
    rfl

/-- What can be read back is not too long. -/
theorem ParametersRead.length_le {cfg : Config} {pluginName pluginList : String} {A : ℤ}
    (h : ParametersRead cfg pluginName pluginList A) :
    (Buffer.ofString cfg.USER).length ≤ 255 ∧ (Buffer.ofString pluginName).length ≤ 255 ∧
      (Buffer.ofString pluginList).length ≤ 255 := by
  obtain ⟨⟨es, hread, hes⟩, -⟩ := h
  exact ⟨length_le_of_payloads_eq hread hes.login, length_le_of_payloads_eq hread hes.pluginName,
    length_le_of_payloads_eq hread hes.pluginList⟩

/-- **The parameter blocks can be read back** if the user name, the plugin name and the plugin list
take at most 255 bytes each, and otherwise they cannot. -/
theorem parametersRead_iff (cfg : Config) (pluginName pluginList : String) {A : ℤ} (hA : 0 ≤ A)
    (hAN : A < N) :
    ParametersRead cfg pluginName pluginList A ↔
      (Buffer.ofString cfg.USER).length ≤ 255 ∧ (Buffer.ofString pluginName).length ≤ 255 ∧
        (Buffer.ofString pluginList).length ≤ 255 := by
  constructor
  · exact ParametersRead.length_le
  · rintro ⟨huser, hname, hlist⟩
    have hfits : ∀ {text : String} (tag : UInt8), (Buffer.ofString text).length ≤ 255 →
        (textEntry tag text).Fits 1 := fun tag h ↦ Nat.lt_succ_of_le h
    constructor
    · refine ⟨userIdEntries cfg.USER pluginName pluginList (bigToHex A), ?_,
        userIdReads_userIdEntries _ _ _ ((length_bigToHex_le hA hAN).trans (by omega))⟩
      rw [userIdBlock_eq]
      refine read_flatMap_encode fun e he ↦ ?_
      rw [userIdEntries, List.mem_append, List.mem_append] at he
      rcases he with (he | he) | he
      · simp only [List.mem_cons, List.not_mem_nil, or_false] at he
        rcases he with rfl | rfl | rfl
        exacts [hfits _ huser, hfits _ hname, hfits _ hlist]
      · exact fits_specificDataEntries hA he
      · simp only [List.mem_cons, List.not_mem_nil, or_false] at he
        rcases he with rfl | rfl | rfl | rfl <;> decide
    · refine ⟨dpbEntries cfg.USER, by rw [dpb_eq, List.head?_cons], ?_, rfl, rfl⟩
      rw [dpb_eq, List.tail_cons]
      refine read_flatMap_encode fun e he ↦ ?_
      simp only [dpbEntries, List.mem_cons, List.not_mem_nil, or_false] at he
      rcases he with rfl | rfl
      exacts [by decide, hfits _ huser]

/-- A command line that names a user. -/
def configOf (user : String) : Config where
  hashes := oneHashes
  DB := "employee"
  USER := user
  PASS := "masterkey"
  a := 0

/-- The default user, and the names the script has. -/
theorem parametersRead_sysdba :
    ParametersRead (configOf "SYSDBA") "Srp256" "Srp256,Srp" 255 :=
  (parametersRead_iff (configOf "SYSDBA") "Srp256" "Srp256,Srp" (by decide) (by decide)).2
    ⟨by decide, by decide, by decide⟩

/-- A user name of 256 letters. -/
theorem not_parametersRead_of_long_user :
    ¬ ParametersRead (configOf (String.ofList (List.replicate 256 'A'))) "Srp256" "Srp256,Srp"
      255 := by
  intro h
  have huser := h.length_le.1
  rw [show (configOf (String.ofList (List.replicate 256 'A'))).USER =
    String.ofList (List.replicate 256 'A') from rfl, Buffer.ofString_ofList] at huser
  exact absurd huser (by decide +kernel)

end FirebirdSamples.Wire
