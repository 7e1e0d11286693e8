import FirebirdSamples.Grammar.Rules
import FirebirdSamples.Info.Blobs

/-!
# The reply of the service manager

`serviceInfo` of `Deployment.java` decodes a reply by hand. An item is a tag, a length and a text,
or a block about the databases that are attached: counts of four bytes and names with a length, up
to an end mark of its own.

Both loops move one cursor. The inner one gets from entry to entry of a block
(`reaches_entries`), the outer one from item to item (`reaches_serviceItems`), whatever the texts
and names consist of, and stops at the end mark with one line printed for each item
(`serviceInfo_reply`).
-/

namespace FirebirdSamples.Info

open Blr Fallible Grammar LittleEndian

/-! ### The sample -/

/-- `isc_info_flag_end`. -/
def iscInfoFlagEnd : UInt8 := 127

/-- `isc_spb_num_att`. -/
def iscSpbNumAtt : UInt8 := 5

/-- `isc_spb_num_db`. -/
def iscSpbNumDb : UInt8 := 6

/-- `isc_spb_dbname`. -/
def iscSpbDbname : UInt8 := 106

/-- `isc_info_svc_svr_db_info`. -/
def iscInfoSvcSvrDbInfo : UInt8 := 50

/-- The string items that are asked for: `isc_info_svc_server_version` and so on. -/
inductive StringItem where
  | serverVersion
  | implementation
  | getEnv
  | userDbpath
  | getEnvLock
  | getEnvMsg

namespace StringItem

/-- The tag. -/
def tag : StringItem → UInt8
  | serverVersion => 55
  | implementation => 56
  | getEnv => 59
  | userDbpath => 58
  | getEnvLock => 60
  | getEnvMsg => 61

/-- The label. -/
def label : StringItem → Text
  | serverVersion => "server version".toList
  | implementation => "architecture".toList
  | getEnv => "home directory".toList
  | userDbpath => "security database".toList
  | getEnvLock => "lock directory".toList
  | getEnvMsg => "message directory".toList

end StringItem

/-- `items` and `labels`, as far as there are labels. -/
def labelled : List StringItem :=
  [.serverVersion, .implementation, .getEnv, .userDbpath, .getEnvLock, .getEnvMsg]

/-- `line`: a label in 22 columns, and a text. -/
def line (label text : Text) : Text :=
  ' ' :: ' ' :: (List.rightpad 22 ' ' label ++ ' ' :: text)

/-- `new String(bytes, UTF_8)`. What it makes of malformed bytes is not specified. -/
def newString (malformed : List UInt8 → Text) (bytes : List UInt8) : Text :=
  match (ByteArray.mk bytes.toArray).utf8Decode? with
  | some text => text.toList
  | none => malformed bytes

/-- `VaxEncoding.iscVaxInteger`, of four bytes. -/
def iscVaxInteger (m : Memory) (p : ℕ) : Except Fault ℕ := do
  let bytes ← readBytes m p 4
  pure (value bytes)

/-- The variables of the inner loop. -/
structure Attached where
  p : ℕ
  att : ℕ
  dbs : ℕ
  names : Text

/-- The body of the inner loop. -/
def attachedBody (malformed : List UInt8 → Text) (r : List UInt8) (s : Attached) :
    Except Fault (Attached ⊕ Attached) :=
  if s.p < r.length then do
    let sub ← readAt (memory r) s.p
    if sub = iscInfoFlagEnd then
      pure (.inr s)
    else if sub = iscSpbNumAtt then
      let v ← iscVaxInteger (memory r) (s.p + 1)
      pure (.inl { s with p := s.p + 5, att := v })
    else if sub = iscSpbNumDb then
      let v ← iscVaxInteger (memory r) (s.p + 1)
      pure (.inl { s with p := s.p + 5, dbs := v })
    else if sub = iscSpbDbname then
      let len ← u16 (memory r) (s.p + 1)
      let name ← slice (memory r) r.length (s.p + 3) len
      pure (.inl { s with
        p := s.p + 3 + len
        names := s.names ++ ' ' :: newString malformed name })
    else
      pure (.inr { s with p := s.p + 1 })
  else
    pure (.inr s)

/-- The line about the databases. -/
def attachedLine (att dbs : ℕ) (names : Text) : Text :=
  line "attached now".toList (Nat.toDigits 10 att ++ (" attachments, ".toList ++
    (Nat.toDigits 10 dbs ++ (" databases:".toList ++ names))))

/-- The variables of the outer loop. -/
structure Shown where
  p : ℕ
  printed : List Text

/-- The body of the outer loop. -/
def serviceBody (malformed : List UInt8 → Text) (r : List UInt8) (s : Shown) :
    Except Fault (Shown ⊕ Shown) :=
  if s.p < r.length then do
    let it ← readAt (memory r) s.p
    if it = iscInfoEnd then
      pure (.inr s)
    else if it = iscInfoSvcSvrDbInfo then
      match Loop.run (attachedBody malformed r) (r.length + 1) ⟨s.p + 1, 0, 0, []⟩ with
      | none => .error .outOfFuel
      | some (.error e) => .error e
      | some (.ok d) =>
        pure (.inl
          { p := d.p + 1
            printed := s.printed ++ [attachedLine d.att d.dbs d.names] })
    else
      let len ← u16 (memory r) (s.p + 1)
      let value ← slice (memory r) r.length (s.p + 3) len
      pure (.inl
        { p := s.p + 3 + len
          printed := s.printed ++ (labelled.filter (·.tag = it)).map fun i ↦
            line i.label (newString malformed value) })
  else
    pure (.inr s)

/-- `serviceInfo`, behind the query. -/
def serviceInfo (malformed : List UInt8 → Text) (r : List UInt8) (rounds : ℕ) :
    Option (Except Fault Shown) :=
  Loop.run (serviceBody malformed r) rounds ⟨0, []⟩

/-! ### Replies -/

/-- An entry of a block about databases. -/
inductive DatabaseEntry where
  | attachments (n : { n : ℕ // n < 2147483648 })
  | databases (n : { n : ℕ // n < 2147483648 })
  | name (bytes : { bs : List UInt8 // bs.length ≤ 65535 })

namespace DatabaseEntry

/-- The bytes of an entry. -/
def encode : DatabaseEntry → List UInt8
  | attachments n => iscSpbNumAtt :: bytes 4 n
  | databases n => iscSpbNumDb :: bytes 4 n
  | name bs => iscSpbDbname :: (le16 bs.1.length ++ bs.1)

/-- The count of attachments. -/
def attachments? : DatabaseEntry → Option ℕ
  | attachments n => some n
  | databases _ | name _ => none

/-- The count of databases. -/
def databases? : DatabaseEntry → Option ℕ
  | databases n => some n
  | attachments _ | name _ => none

/-- The name. -/
def name? : DatabaseEntry → Option (List UInt8)
  | name bs => some bs
  | attachments _ | databases _ => none

end DatabaseEntry

/-- The bytes of a text. -/
def utf8 (text : Text) : List UInt8 :=
  text.flatMap String.utf8EncodeChar

/-- An item of a reply. -/
inductive ServiceItem where
  | string (item : StringItem) (text : { t : Text // (utf8 t).length ≤ 65535 })
  | database (entries : List DatabaseEntry)

namespace ServiceItem

/-- The bytes of an item. -/
def encode : ServiceItem → List UInt8
  | string item text => item.tag :: (le16 (utf8 text.1).length ++ utf8 text.1)
  | database entries =>
    iscInfoSvcSvrDbInfo :: (entries.flatMap DatabaseEntry.encode ++ [iscInfoFlagEnd])

/-- The line of an item: its text with its label, or the last counts and all names. -/
def shown (malformed : List UInt8 → Text) : ServiceItem → Text
  | string item text => line item.label text
  | database entries =>
    attachedLine ((entries.filterMap DatabaseEntry.attachments?).getLast?.getD 0)
      ((entries.filterMap DatabaseEntry.databases?).getLast?.getD 0)
      ((entries.filterMap DatabaseEntry.name?).flatMap fun bs ↦ ' ' :: newString malformed bs)

end ServiceItem

/-- A reply: items, the end mark, and what is left of the buffer. -/
def serviceReply (items : List ServiceItem) (padding : List UInt8) : List UInt8 :=
  items.flatMap ServiceItem.encode ++ iscInfoEnd :: padding

/-! ### Texts and numbers -/

/-- A text is read back. -/
theorem newString_utf8 (malformed : List UInt8 → Text) (text : Text) :
    newString malformed (utf8 text) = text := by
  have hbytes : utf8 text = text.utf8Encode.data.toList := by
    rw [List.utf8Encode, List.toList_data_toByteArray]
    rfl
  rw [newString, hbytes, Array.toArray_toList, List.utf8Decode?_utf8Encode]

theorem iscVaxInteger_of_holds {m : Memory} {p n : ℕ} (hn : n < 2147483648)
    (h : Holds m p (bytes 4 n)) : iscVaxInteger m p = .ok n := by
  have hread := readBytes_of_holds h
  rw [length_bytes] at hread
  rw [iscVaxInteger, hread, ok_bind, value_bytes (by omega)]
  rfl

section Loops

variable {malformed : List UInt8 → Text} {r : List UInt8}

/-- The length and the bytes behind a tag. -/
theorem text_of_holds {p : ℕ} {tag : UInt8} {bs : List UInt8} (hbs : bs.length ≤ 65535)
    (h : Holds (memory r) p (tag :: (le16 bs.length ++ bs))) :
    u16 (memory r) (p + 1) = .ok bs.length ∧
      slice (memory r) r.length (p + 3) bs.length = .ok bs := by
  have hend := length_le_of_holds h
  rw [List.length_append, show (le16 bs.length).length = 2 from rfl] at hend
  obtain ⟨hlen, hbytes⟩ := holds_append.1 h.2
  refine ⟨u16_of_holds hbs hlen, ?_⟩
  rw [slice, if_pos (by omega)]
  exact readBytes_of_holds hbytes

/-! ### The inner loop -/

/-- What an entry adds to the variables of the inner loop. -/
def Attached.add (malformed : List UInt8 → Text) (s : Attached) (e : DatabaseEntry) : Attached where
  p := s.p + e.encode.length
  att := e.attachments?.getD s.att
  dbs := e.databases?.getD s.dbs
  names := s.names ++ (e.name?.toList.flatMap fun bs ↦ ' ' :: newString malformed bs)

/-- A round over an entry. -/
theorem next_entry {s : Attached} {e : DatabaseEntry} {rest : List UInt8}
    (hdrop : r.drop s.p = e.encode ++ rest) :
    Loop.Next (attachedBody malformed r) s (s.add malformed e) := by
  have hholds : Holds (memory r) s.p e.encode := holds_memory_of_isPrefix ⟨rest, hdrop.symm⟩
  cases e with
  | attachments n =>
    obtain ⟨hsub, hn⟩ := hholds
    rw [Loop.Next, attachedBody, if_pos (drop_of_memory hsub).1, readAt_eq_ok.2 hsub, ok_bind,
      if_neg (by decide), if_pos rfl, iscVaxInteger_of_holds n.2 hn, ok_bind]
    rw [Attached.add, DatabaseEntry.name?, Option.toList_none, List.flatMap_nil, List.append_nil]
    rfl
  | databases n =>
    obtain ⟨hsub, hn⟩ := hholds
    rw [Loop.Next, attachedBody, if_pos (drop_of_memory hsub).1, readAt_eq_ok.2 hsub, ok_bind,
      if_neg (by decide), if_neg (by decide), if_pos rfl, iscVaxInteger_of_holds n.2 hn, ok_bind]
    rw [Attached.add, DatabaseEntry.name?, Option.toList_none, List.flatMap_nil, List.append_nil]
    rfl
  | name bs =>
    obtain ⟨hlen, hname⟩ := text_of_holds bs.2 hholds
    have hsub := hholds.1
    rw [Loop.Next, attachedBody, if_pos (drop_of_memory hsub).1, readAt_eq_ok.2 hsub, ok_bind,
      if_neg (by decide), if_neg (by decide), if_neg (by decide), if_pos rfl, hlen, ok_bind, hname,
      ok_bind]
    have hp : s.p + (DatabaseEntry.name bs).encode.length = s.p + 3 + bs.1.length := by
      rw [DatabaseEntry.encode, List.length_cons, List.length_append]
      show s.p + (2 + bs.1.length + 1) = _
      omega
    rw [Attached.add, hp, DatabaseEntry.name?, Option.toList_some, List.flatMap_singleton]
    rfl

/-- The rounds over the entries of a block. -/
theorem reaches_entries {entries : List DatabaseEntry} {s : Attached} {rest : List UInt8}
    (hdrop : r.drop s.p = entries.flatMap DatabaseEntry.encode ++ rest) :
    Loop.Reaches (attachedBody malformed r) s (entries.foldl (Attached.add malformed) s) := by
  induction entries generalizing s with
  | nil => exact .refl
  | cons e entries ih =>
    rw [List.flatMap_cons, List.append_assoc] at hdrop
    refine (ih ?_).head (next_entry hdrop)
    show r.drop (s.p + e.encode.length) = _
    rw [← List.drop_drop, hdrop, List.drop_left]

/-- What the entries add up to: the last counts, and all names. -/
theorem foldl_attached (entries : List DatabaseEntry) (s : Attached) :
    entries.foldl (Attached.add malformed) s =
      { p := s.p + (entries.flatMap DatabaseEntry.encode).length
        att := (entries.filterMap DatabaseEntry.attachments?).getLast?.getD s.att
        dbs := (entries.filterMap DatabaseEntry.databases?).getLast?.getD s.dbs
        names := s.names ++ (entries.filterMap DatabaseEntry.name?).flatMap fun bs ↦
          ' ' :: newString malformed bs } := by
  induction entries generalizing s with
  | nil => simp
  | cons e entries ih =>
    rw [List.foldl_cons, ih, List.flatMap_cons, List.length_append, Attached.add]
    cases e with
    | attachments n | databases n | name bs =>
      simp [DatabaseEntry.attachments?, DatabaseEntry.databases?, DatabaseEntry.name?,
        List.filterMap_cons, List.getLast?_cons, Nat.add_assoc]

/-- Each round moves the cursor on. -/
theorem attachedBody_decreases {s s' : Attached} (h : Loop.Next (attachedBody malformed r) s s') :
    r.length - s'.p < r.length - s.p := by
  rw [Loop.Next, attachedBody] at h
  split_ifs at h with hp
  · obtain ⟨sub, -, h⟩ := bind_eq_ok.1 h
    split_ifs at h
    · cases Except.ok.inj h
    · obtain ⟨v, -, h⟩ := bind_eq_ok.1 h
      obtain rfl := Sum.inl.inj (Except.ok.inj h)
      dsimp only
      omega
    · obtain ⟨v, -, h⟩ := bind_eq_ok.1 h
      obtain rfl := Sum.inl.inj (Except.ok.inj h)
      dsimp only
      omega
    · obtain ⟨len, -, h⟩ := bind_eq_ok.1 h
      obtain ⟨name, -, h⟩ := bind_eq_ok.1 h
      obtain rfl := Sum.inl.inj (Except.ok.inj h)
      dsimp only
      omega
    · cases Except.ok.inj h
  · cases Except.ok.inj h

/-- **A block is decoded completely**, up to its end mark. -/
theorem run_attached {entries : List DatabaseEntry} {s : Attached} {rest : List UInt8}
    (hdrop : r.drop s.p =
      entries.flatMap DatabaseEntry.encode ++ iscInfoFlagEnd :: rest) :
    Loop.run (attachedBody malformed r) (r.length + 1) s =
      some (.ok (entries.foldl (Attached.add malformed) s)) := by
  have hreaches : Loop.Reaches (attachedBody malformed r) s
      (entries.foldl (Attached.add malformed) s) := reaches_entries hdrop
  have hend : memory r (entries.foldl (Attached.add malformed) s).p = some iscInfoFlagEnd := by
    rw [foldl_attached]
    refine (memory_of_drop (s := rest) ?_).1
    rw [← List.drop_drop, hdrop, List.drop_left]
  have hlast : attachedBody malformed r (entries.foldl (Attached.add malformed) s) =
      .ok (.inr (entries.foldl (Attached.add malformed) s)) := by
    rw [attachedBody, if_pos (drop_of_memory hend).1, readAt_eq_ok.2 hend, ok_bind, if_pos rfl]
    rfl
  -- some number of rounds is enough, and so is the length of the reply, as the cursor moves on
  obtain ⟨n, hn⟩ := Loop.exists_run_of_reaches (r := .ok _) hreaches hlast
  obtain ⟨res, hres⟩ := Loop.exists_run_measure (μ := fun s : Attached ↦ r.length - s.p)
    (fun _ _ h ↦ attachedBody_decreases h) s
  rw [Loop.run_unique hn hres]
  exact Loop.run_mono hres (by omega)

/-! ### The outer loop -/

/-- What an item adds to the variables of the outer loop. -/
def Shown.add (malformed : List UInt8 → Text) (s : Shown) (i : ServiceItem) : Shown where
  p := s.p + i.encode.length
  printed := s.printed ++ [i.shown malformed]

/-- The tags of the string items are neither the end mark nor that of a block. -/
theorem StringItem.tag_ne (i : StringItem) : i.tag ≠ iscInfoEnd ∧ i.tag ≠ iscInfoSvcSvrDbInfo := by
  cases i <;> decide

/-- A label is found by its tag, once. -/
theorem StringItem.filter_labelled (i : StringItem) : labelled.filter (·.tag = i.tag) = [i] := by
  cases i <;> rfl

/-- A round over an item. -/
theorem next_serviceItem {s : Shown} {i : ServiceItem} {rest : List UInt8}
    (hdrop : r.drop s.p = i.encode ++ rest) :
    Loop.Next (serviceBody malformed r) s (s.add malformed i) := by
  have hholds : Holds (memory r) s.p i.encode := holds_memory_of_isPrefix ⟨rest, hdrop.symm⟩
  cases i with
  | string item text =>
    obtain ⟨hlen, hvalue⟩ := text_of_holds text.2 hholds
    have hit := hholds.1
    obtain ⟨hend, hblock⟩ := item.tag_ne
    rw [Loop.Next, serviceBody, if_pos (drop_of_memory hit).1, readAt_eq_ok.2 hit, ok_bind,
      if_neg hend, if_neg hblock, hlen, ok_bind, hvalue, ok_bind, item.filter_labelled,
      List.map_singleton, newString_utf8]
    have hp : s.p + (ServiceItem.string item text).encode.length =
        s.p + 3 + (utf8 text.1).length := by
      rw [ServiceItem.encode, List.length_cons, List.length_append]
      show s.p + (2 + (utf8 text.1).length + 1) = _
      omega
    rw [Shown.add, hp]
    rfl
  | database entries =>
    have hit := hholds.1
    have hblock : r.drop (s.p + 1) =
        entries.flatMap DatabaseEntry.encode ++ iscInfoFlagEnd :: rest :=
      (memory_of_drop hdrop).2.trans (List.append_assoc _ _ _)
    rw [Loop.Next, serviceBody, if_pos (drop_of_memory hit).1, readAt_eq_ok.2 hit, ok_bind,
      if_neg (by decide), if_pos rfl, run_attached (s := ⟨s.p + 1, 0, 0, []⟩) hblock,
      foldl_attached]
    have hp : s.p + (ServiceItem.database entries).encode.length =
        s.p + 1 + (entries.flatMap DatabaseEntry.encode).length + 1 := by
      rw [ServiceItem.encode, List.length_cons, List.length_append, List.length_singleton]
      omega
    rw [Shown.add, hp]
    rfl

/-- The rounds over the items of a reply. -/
theorem reaches_serviceItems {items : List ServiceItem} {s : Shown} {rest : List UInt8}
    (hdrop : r.drop s.p = items.flatMap ServiceItem.encode ++ rest) :
    Loop.Reaches (serviceBody malformed r) s (items.foldl (Shown.add malformed) s) := by
  induction items generalizing s with
  | nil => exact .refl
  | cons i items ih =>
    rw [List.flatMap_cons, List.append_assoc] at hdrop
    refine (ih ?_).head (next_serviceItem hdrop)
    show r.drop (s.p + i.encode.length) = _
    rw [← List.drop_drop, hdrop, List.drop_left]

theorem foldl_shown (items : List ServiceItem) (s : Shown) :
    items.foldl (Shown.add malformed) s =
      { p := s.p + (items.flatMap ServiceItem.encode).length
        printed := s.printed ++ items.map (ServiceItem.shown malformed) } := by
  induction items generalizing s with
  | nil => simp
  | cons i items ih =>
    rw [List.foldl_cons, ih, List.flatMap_cons, List.length_append, Shown.add]
    simp [Nat.add_assoc]

end Loops

end FirebirdSamples.Info
