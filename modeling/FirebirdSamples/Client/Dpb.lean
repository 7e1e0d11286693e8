import FirebirdSamples.Buffer
import FirebirdSamples.Library.Fallible
import FirebirdSamples.Library.TagLengthValue

/-!
# A database parameter block built by hand

The samples `api_styles` attach with a parameter block that they write byte by byte: a version, and
for the user name and the password a tag, a length in one byte and the payload.

The C++ version writes into 128 bytes of storage without comparing what it writes with their number.
The Python version takes the number of characters for the length and the UTF-8 encoding for the
payload. So the block carries the credentials exactly if the storage holds it, or if all characters
are encoded in one byte and the length fits into one (`dpb_carries_iff`).
-/

namespace FirebirdSamples.Client

open Fallible TagLengthValue

/-- `isc_dpb_version1`. -/
def iscDpbVersion1 : UInt8 := 1

/-- `isc_dpb_user_name`. -/
def iscDpbUserName : UInt8 := 28

/-- `isc_dpb_password`. -/
def iscDpbPassword : UInt8 := 29

/-! ### C++ -/

/-- A string as C has it, up to its NUL. -/
structure CString where
  bytes : List UInt8
  notMem_bytes : 0 ∉ bytes

/-- `strlen`. -/
def CString.strlen (s : CString) : ℕ :=
  s.bytes.length

namespace Cpp

/-- A write behind the storage. -/
inductive Fault where
  | overflow
  deriving DecidableEq

/-- The size of `dpb`. -/
def storage : ℕ := 128

/-- Write bytes behind those written. -/
def put (dpb bytes : List UInt8) : Except Fault (List UInt8) :=
  if dpb.length + bytes.length ≤ storage then .ok (dpb ++ bytes) else .error .overflow

/-- The parameter block of `iscStyle`. -/
def iscStyle (user password : CString) : Except Fault (List UInt8) := do
  let dpb ← put [] [iscDpbVersion1]
  let dpb ← put dpb [iscDpbUserName]
  let dpb ← put dpb [UInt8.ofNat user.strlen]
  let dpb ← put dpb user.bytes
  let dpb ← put dpb [iscDpbPassword]
  let dpb ← put dpb [UInt8.ofNat password.strlen]
  put dpb password.bytes

end Cpp

/-! ### Python -/

namespace Python

/-- A character of a Python string, which may be a surrogate. -/
abbrev CodePoint := Fin 0x110000

/-- What a builder can raise. -/
inductive Exception where
  /-- `bytes` of a number that is no byte. -/
  | valueError
  /-- `encode` of a surrogate. -/
  | unicodeEncodeError
  deriving DecidableEq

/-- The encoding of a character. -/
def encodeChar (c : CodePoint) : Except Exception (List UInt8) :=
  if h : c.1.isValidChar then .ok (String.utf8EncodeChar (Char.ofNatAux c.1 h))
  else .error .unicodeEncodeError

/-- `value.encode()`. -/
def encode : List CodePoint → Except Exception (List UInt8)
  | [] => .ok []
  | c :: value => do
    let head ← encodeChar c
    let tail ← encode value
    pure (head ++ tail)

/-- `bytes([tag, n])`. -/
def tagLength (tag : UInt8) (n : ℕ) : Except Exception (List UInt8) :=
  if n < 256 then .ok [tag, UInt8.ofNat n] else .error .valueError

/-- `dpb += bytes([tag, len(value)]) + value.encode()`. -/
def add (dpb : List UInt8) (tag : UInt8) (value : List CodePoint) :
    Except Exception (List UInt8) := do
  let head ← tagLength tag value.length
  let payload ← encode value
  pure (dpb ++ (head ++ payload))

/-- The parameter block of `isc_style`. -/
def iscStyle (user password : List CodePoint) : Except Exception (List UInt8) := do
  let dpb ← add [iscDpbVersion1] iscDpbUserName user
  add dpb iscDpbPassword password

end Python

/-! ### What the block should carry -/

/-- The entries of the credentials. -/
def credentials (user password : List UInt8) : List Entry :=
  [⟨iscDpbUserName, user⟩, ⟨iscDpbPassword, password⟩]

/-- A block that is taken apart to a version and the credentials. -/
def Carries (dpb user password : List UInt8) : Prop :=
  dpb.head? = some iscDpbVersion1 ∧ read 1 dpb.tail = some (credentials user password)

/-- The block of the C++ version stays within its storage and carries the credentials. -/
def Cpp.Carried (user password : CString) : Prop :=
  ∃ dpb, iscStyle user password = .ok dpb ∧ Carries dpb user.bytes password.bytes

/-- The block of the Python version carries the credentials, in UTF-8. -/
def Python.Carried (user password : List CodePoint) : Prop :=
  ∃ dpb u p, iscStyle user password = .ok dpb ∧ encode user = .ok u ∧ encode password = .ok p ∧
    Carries dpb u p

/-- A block with lengths that need not be those of the payloads. -/
def blockOf (n m : ℕ) (user password : List UInt8) : List UInt8 :=
  iscDpbVersion1 :: iscDpbUserName :: UInt8.ofNat n ::
    (user ++ iscDpbPassword :: UInt8.ofNat m :: password)

/-- **When a block carries the credentials**: the lengths are right, and fit. -/
theorem carries_blockOf_iff {n m : ℕ} (hn : n < 256) (hm : m < 256) (user password : List UInt8) :
    Carries (blockOf n m user password) user password ↔
      n = user.length ∧ m = password.length := by
  have hcancel : ∀ {a b : ℕ}, a < 256 → b < 256 → UInt8.ofNat a = UInt8.ofNat b → a = b := by
    intro a b ha hb hab
    have htoNat := congrArg UInt8.toNat hab
    rw [UInt8.toNat_ofNat', UInt8.toNat_ofNat'] at htoNat
    omega
  have hfits : (∀ e ∈ credentials user password, e.Fits 1) ↔
      user.length < 256 ∧ password.length < 256 := by
    simp only [credentials, List.forall_mem_cons, List.not_mem_nil, false_implies, implies_true,
      and_true, Entry.Fits, Nat.pow_one]
  have hencode : (credentials user password).flatMap (·.encode 1) =
      (blockOf user.length password.length user password).tail := by
    rw [credentials, List.flatMap_cons, List.flatMap_cons, List.flatMap_nil, List.append_nil]
    rfl
  rw [Carries, read_eq_some_iff, hfits, hencode]
  constructor
  · rintro ⟨-, hblock, huser, hpassword⟩
    obtain ⟨-, hlength, hrest⟩ : _ ∧ _ ∧ _ := by
      simpa only [blockOf, List.tail_cons, List.cons.injEq] using hblock
    obtain ⟨-, hlength', -⟩ : _ ∧ _ ∧ _ := by
      simpa only [List.append_cancel_left_eq, List.cons.injEq] using hrest
    exact ⟨hcancel hn huser hlength, hcancel hm hpassword hlength'⟩
  · rintro ⟨rfl, rfl⟩
    exact ⟨rfl, rfl, hn, hm⟩

/-! ### When it does -/

theorem Cpp.put_eq_ok_iff {dpb bytes dpb' : List UInt8} :
    put dpb bytes = .ok dpb' ↔ dpb.length + bytes.length ≤ storage ∧ dpb ++ bytes = dpb' := by
  rw [put]
  split_ifs with h
  · rw [Except.ok.injEq, and_iff_right h]
  · exact iff_of_false (fun h' ↦ nomatch h') fun h' ↦ h h'.1

/-- Two writes are one. -/
theorem Cpp.put_bind_put (dpb xs ys : List UInt8) :
    (put dpb xs >>= fun dpb' ↦ put dpb' ys) = put dpb (xs ++ ys) := by
  by_cases h : dpb.length + xs.length ≤ storage
  · rw [show put dpb xs = .ok (dpb ++ xs) from if_pos h, ok_bind, put, put, List.length_append,
      List.length_append, List.append_assoc, Nat.add_assoc]
  · have hall : ¬ dpb.length + (xs ++ ys).length ≤ storage := by
      rw [List.length_append]
      omega
    rw [show put dpb xs = .error .overflow from if_neg h, error_bind, put, if_neg hall]

/-- The C++ version writes a block. -/
theorem Cpp.iscStyle_eq (user password : CString) :
    iscStyle user password =
      put [] (blockOf user.strlen password.strlen user.bytes password.bytes) := by
  simp only [iscStyle, put_bind_put]
  rfl

/-- **The C++ version** works if the block fits into the storage. -/
theorem Cpp.carried_iff (user password : CString) :
    Carried user password ↔ user.strlen + password.strlen ≤ 123 := by
  have hlength : (blockOf user.strlen password.strlen user.bytes password.bytes).length =
      user.strlen + password.strlen + 5 := by
    simp only [blockOf, List.length_cons, List.length_append, CString.strlen]
    omega
  have hput : ∀ dpb, iscStyle user password = .ok dpb ↔ user.strlen + password.strlen ≤ 123 ∧
      blockOf user.strlen password.strlen user.bytes password.bytes = dpb := by
    intro dpb
    rw [iscStyle_eq, put_eq_ok_iff, hlength, List.nil_append]
    refine and_congr_left fun _ ↦ ?_
    show 0 + (_ + 5) ≤ 128 ↔ _
    omega
  constructor
  · rintro ⟨dpb, hdpb, -⟩
    exact ((hput dpb).1 hdpb).1
  · intro h
    exact ⟨_, (hput _).2 ⟨h, rfl⟩, (carries_blockOf_iff (by omega) (by omega) _ _).2 ⟨rfl, rfl⟩⟩

namespace Python

/-- All characters are of seven bits. -/
def Ascii (value : List CodePoint) : Prop :=
  ∀ c ∈ value, c.1 < 128

instance (value : List CodePoint) : Decidable (Ascii value) :=
  List.decidableBAll _ value

/-- A character takes one byte if it is of seven bits, and else more. -/
theorem length_encodeChar {c : CodePoint} {bytes : List UInt8} (h : encodeChar c = .ok bytes) :
    1 ≤ bytes.length ∧ (bytes.length = 1 ↔ c.1 < 128) := by
  rw [encodeChar] at h
  split_ifs at h with hvalid
  obtain rfl := Except.ok.inj h
  rw [String.length_utf8EncodeChar]
  refine ⟨Char.utf8Size_pos _, Char.utf8Size_eq_one_iff.trans ?_⟩
  rw [UInt32.le_iff_toNat_le]
  show c.1 ≤ 127 ↔ _
  omega

/-- The encoding of a text has as many bytes as the text has characters if these are all of seven
bits, and else more. -/
theorem length_encode {value : List CodePoint} {bytes : List UInt8} (h : encode value = .ok bytes) :
    value.length ≤ bytes.length ∧ (value.length = bytes.length ↔ Ascii value) := by
  induction value generalizing bytes with
  | nil =>
    obtain rfl := Except.ok.inj h
    exact ⟨Nat.le_refl 0, iff_of_true rfl fun _ h ↦ absurd h List.not_mem_nil⟩
  | cons c value ih =>
    rw [encode] at h
    obtain ⟨head, hhead, h⟩ := bind_eq_ok.1 h
    obtain ⟨tail, htail, h⟩ := bind_eq_ok.1 h
    obtain rfl := Except.ok.inj h
    obtain ⟨hle, hiff⟩ := ih htail
    obtain ⟨hle', hiff'⟩ := length_encodeChar hhead
    rw [List.length_cons, List.length_append, Ascii, List.forall_mem_cons, ← hiff', ← Ascii, ← hiff]
    omega

theorem exists_encode {value : List CodePoint} (h : Ascii value) :
    ∃ bytes, encode value = .ok bytes := by
  induction value with
  | nil => exact ⟨[], rfl⟩
  | cons c value ih =>
    obtain ⟨hc, hvalue⟩ := List.forall_mem_cons.1 h
    obtain ⟨tail, htail⟩ := ih hvalue
    have hvalid : c.1.isValidChar := Or.inl (by omega)
    exact ⟨_, by rw [encode, encodeChar, dif_pos hvalid, ok_bind, htail, ok_bind]; rfl⟩

theorem add_eq_ok_iff {dpb dpb' : List UInt8} {tag : UInt8} {value : List CodePoint} :
    add dpb tag value = .ok dpb' ↔ value.length < 256 ∧ ∃ payload, encode value = .ok payload ∧
      dpb ++ tag :: UInt8.ofNat value.length :: payload = dpb' := by
  rw [add, tagLength]
  split_ifs with hlength
  · rw [ok_bind, bind_eq_ok, and_iff_right hlength]
    exact exists_congr fun payload ↦ and_congr_right fun _ ↦ iff_of_eq (Except.ok.injEq _ _)
  · exact iff_of_false (fun h ↦ nomatch h) fun h ↦ hlength h.1

/-- **The Python version** works for texts of seven bits whose length fits into a byte. -/
theorem carried_iff (user password : List CodePoint) :
    Carried user password ↔
      (Ascii user ∧ user.length ≤ 255) ∧ Ascii password ∧ password.length ≤ 255 := by
  constructor
  · rintro ⟨dpb, u, p, hdpb, hu, hp, hcarries⟩
    rw [iscStyle] at hdpb
    obtain ⟨dpb', hdpb', hdpb⟩ := bind_eq_ok.1 hdpb
    obtain ⟨huser, _, hu', rfl⟩ := add_eq_ok_iff.1 hdpb'
    obtain ⟨hpassword, _, hp', rfl⟩ := add_eq_ok_iff.1 hdpb
    obtain rfl := Except.ok.inj (hu.symm.trans hu')
    obtain rfl := Except.ok.inj (hp.symm.trans hp')
    obtain ⟨hulength, hplength⟩ := (carries_blockOf_iff huser hpassword u p).1 hcarries
    exact ⟨⟨(length_encode hu).2.1 hulength, by omega⟩, (length_encode hp).2.1 hplength, by omega⟩
  · rintro ⟨⟨huser, hulength⟩, hpassword, hplength⟩
    obtain ⟨u, hu⟩ := exists_encode huser
    obtain ⟨p, hp⟩ := exists_encode hpassword
    refine ⟨blockOf user.length password.length u p, u, p, ?_, hu, hp,
      (carries_blockOf_iff (by omega) (by omega) u p).2
        ⟨(length_encode hu).2.2 huser, (length_encode hp).2.2 hpassword⟩⟩
    have huser' := add_eq_ok_iff.2 ⟨Nat.lt_succ_of_le hulength, u, hu,
      show [iscDpbVersion1] ++ iscDpbUserName :: UInt8.ofNat user.length :: u = _ from rfl⟩
    rw [iscStyle, huser', ok_bind]
    exact add_eq_ok_iff.2 ⟨Nat.lt_succ_of_le hplength, p, hp, rfl⟩

end Python

/-! ### Both versions -/

/-- **The hand-built block carries the credentials** exactly if, in C++, the user name and the
password take at most 123 bytes together, and in Python, each of the two has at most 255 characters,
all of seven bits. -/
theorem dpb_carries_iff (user password : CString) (user' password' : List Python.CodePoint) :
    (Cpp.Carried user password ↔ user.strlen + password.strlen ≤ 123) ∧
      (Python.Carried user' password' ↔
        (Python.Ascii user' ∧ user'.length ≤ 255) ∧
          Python.Ascii password' ∧ password'.length ≤ 255) :=
  ⟨Cpp.carried_iff user password, Python.carried_iff user' password'⟩

/-- The default user, in bytes. -/
def sysdba : CString where
  bytes := [83, 89, 83, 68, 66, 65]
  notMem_bytes := by decide

/-- A password of 124 letters, and a user name with a letter that is not of seven bits. -/
theorem not_dpb_carries :
    (¬ Cpp.Carried sysdba ⟨List.replicate 124 65, by decide +kernel⟩) ∧
      ¬ Python.Carried [0xe9] [] := by
  constructor
  · intro h
    exact absurd ((Cpp.carried_iff _ _).1 h) (by decide +kernel)
  · intro h
    exact absurd ((Python.carried_iff _ _).1 h).1.1 (by decide)

end FirebirdSamples.Client
