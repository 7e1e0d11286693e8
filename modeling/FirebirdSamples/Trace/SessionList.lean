import FirebirdSamples.Grammar.Rules
import FirebirdSamples.Library.Fallible
import FirebirdSamples.Library.TextLines

/-!
# The session that is stopped

The samples `Trace.java` and `Trace.cs` find out the id of the trace session they have started from
the server's list of all sessions. A session stands in the list as a line with its id, a line with
its name if it has one, and further lines. `idFromList` goes through the lines, keeps the last id it
has seen, and returns it at the first name that is the one of the sample.

Other sessions may have this name too, from earlier runs for instance. So the session that is
stopped is the one that was started exactly if none of those listed before it has the name
(`stopped_iff`); further, the ids up to there must fit into an `int`, or the list is not read to
this point.
-/

namespace FirebirdSamples.Trace

open Fallible Grammar TextLines

/-! ### The list -/

/-- What the further lines of a session begin with. -/
inductive Label where
  | user
  | date
  | flags

/-- The text of a label, without the colon. -/
def Label.text : Label → Text
  | user => ['u', 's', 'e', 'r']
  | date => ['d', 'a', 't', 'e']
  | flags => ['f', 'l', 'a', 'g', 's']

/-- A text within a line. -/
structure LineText where
  text : Text
  notMem_text : '\n' ∉ text

/-- A trace session, as the server knows it. -/
structure Session where
  id : ℕ
  name : Option LineText
  details : List (Label × LineText)

/-- `Session ID:`. -/
def sessionId : Text :=
  ['S', 'e', 's', 's', 'i', 'o', 'n', ' ', 'I', 'D', ':']

/-- `name:`. -/
def nameLabel : Text :=
  ['n', 'a', 'm', 'e', ':']

/-- The line of a name, with `width` blanks in front. -/
def nameLine (width : ℕ) (name : LineText) : Text :=
  List.replicate width ' ' ++ (nameLabel ++ ' ' :: name.text)

/-- A further line. -/
def detailLine (width : ℕ) (detail : Label × LineText) : Text :=
  List.replicate width ' ' ++ (detail.1.text ++ ':' :: ' ' :: detail.2.text)

/-- The lines of a session. -/
def Session.lines (width : ℕ) (s : Session) : List Text :=
  (sessionId ++ ' ' :: Nat.toDigits 10 s.id) ::
    (s.name.toList.map (nameLine width) ++ s.details.map (detailLine width))

/-- The lines of the list. -/
def listLines (width : ℕ) (table : List Session) : List Text :=
  table.flatMap (Session.lines width)

/-! ### `idFromList` -/

/-- What reading a number can throw. -/
inductive Exception where
  /-- The text is no number of 32 bits. -/
  | numberFormat
  deriving DecidableEq

/-- `Integer.valueOf` and `int.Parse`: decimal digits, with or without a sign. -/
def parseInt (t : Text) : Except Exception ℤ :=
  let digits := if t.head? = some '-' ∨ t.head? = some '+' then t.tail else t
  let n : ℤ := if t.head? = some '-' then -Nat.ofDigitChars 10 digits 0
    else Nat.ofDigitChars 10 digits 0
  if digits ≠ [] ∧ (∀ x ∈ digits, x.isDigit = true) ∧ -2147483648 ≤ n ∧ n < 2147483648 then .ok n
  else .error .numberFormat

/-- The loop over the lines, from an id on. -/
def idFromLines (blank : Char → Bool) (name : Text) :
    Option ℤ → List Text → Except Exception (Option ℤ)
  | _, [] => .ok none
  | current, l :: ls =>
    let t := strip blank l
    if sessionId.isPrefixOf t then do
      let id ← parseInt (strip blank (t.drop sessionId.length))
      idFromLines blank name (some id) ls
    else if nameLabel.isPrefixOf t ∧ strip blank (t.drop nameLabel.length) = name then
      .ok current
    else
      idFromLines blank name current ls

namespace Java

/-- `NAME`. -/
def NAME : Text :=
  "hands-on-java".toList

/-- `Character.isWhitespace`. -/
def isWhitespace (x : Char) : Bool :=
  let n := x.toNat
  (9 ≤ n && n ≤ 13) || (0x1c ≤ n && n ≤ 0x20) || n == 0x1680 ||
    (0x2000 ≤ n && n ≤ 0x2006) || (0x2008 ≤ n && n ≤ 0x200a) || n == 0x2028 || n == 0x2029 ||
    n == 0x205f || n == 0x3000

/-- What the logger of the list captures: each line without blanks at its end. -/
def captured (lines : List Text) : Text :=
  lines.flatMap fun l ↦ l.rdropWhile isWhitespace ++ ['\n']

/-- `list.split("\n")`: empty lines at the end are left out, unless there is but one line. -/
def split (list : Text) : List Text :=
  if '\n' ∈ list then (splitLines list).rdropWhile List.isEmpty else [list]

/-- `idFromList`. -/
def idFromList (list name : Text) : Except Exception (Option ℤ) :=
  idFromLines isWhitespace name none (split list)

/-- The id that `stopTraceSession` is called with, in the `finally` block of `main`. -/
def stopped (lines : List Text) : Option ℤ :=
  match idFromList (captured lines) NAME with
  | .ok id => id
  | .error _ => none

end Java

namespace CSharp

/-- `Name`. -/
def Name : Text :=
  "hands-on-cs".toList

/-- `char.IsWhiteSpace`. -/
def isWhiteSpace (x : Char) : Bool :=
  let n := x.toNat
  (9 ≤ n && n ≤ 13) || n == 0x20 || n == 0x85 || n == 0xa0 || n == 0x1680 ||
    (0x2000 ≤ n && n ≤ 0x200a) || n == 0x2028 || n == 0x2029 || n == 0x202f || n == 0x205f ||
    n == 0x3000

/-- `IdFromList`. -/
def idFromList (list : List Text) (name : Text) : Except Exception (Option ℤ) :=
  idFromLines isWhiteSpace name none list

/-- The id that `Stop` is called with, in the `finally` block of `Run`: the one from the stream, or
else the one from the list. -/
def stopped (seen : Option ℤ) (lines : List Text) : Option ℤ :=
  match seen with
  | some id => some id
  | none =>
    match idFromList lines Name with
    | .ok id => id
    | .error _ => none

end CSharp

/-! ### What a line does -/

/-- A space is a blank, and the printable characters of seven bits are none. -/
structure IsBlank (blank : Char → Bool) : Prop where
  space : blank ' ' = true
  graphic : ∀ x : Char, 33 ≤ x.toNat → x.toNat ≤ 126 → blank x = false

theorem Java.isBlank : IsBlank isWhitespace where
  space := by decide
  graphic x hlo hhi := by
    simp only [isWhitespace, Bool.or_eq_false_iff, Bool.and_eq_false_iff, decide_eq_false_iff_not,
      beq_eq_false_iff_ne]
    omega

theorem CSharp.isBlank : IsBlank isWhiteSpace where
  space := by decide
  graphic x hlo hhi := by
    simp only [isWhiteSpace, Bool.or_eq_false_iff, Bool.and_eq_false_iff, decide_eq_false_iff_not,
      beq_eq_false_iff_ne]
    omega

/-- The session has the name, if blanks around it are left out. -/
def Session.Named (blank : Char → Bool) (name : Text) (s : Session) : Prop :=
  s.name.map (fun n ↦ strip blank n.text) = some name

instance (blank : Char → Bool) (name : Text) (s : Session) : Decidable (s.Named blank name) :=
  inferInstanceAs (Decidable (_ = _))

/-- The id fits into an `int`. -/
def Session.Fits (s : Session) : Prop :=
  s.id < 2147483648

instance (s : Session) : Decidable s.Fits :=
  inferInstanceAs (Decidable (_ < _))

/-- Reading the decimal digits of a number. -/
theorem parseInt_toDigits (n : ℕ) :
    parseInt (Nat.toDigits 10 n) =
      if n < 2147483648 then .ok (n : ℤ) else .error .numberFormat := by
  have hdigit : ∀ x ∈ Nat.toDigits 10 n, x.isDigit = true := fun x hx ↦
    Nat.isDigit_of_mem_toDigits (by omega) (by omega) hx
  have hsign : ∀ x : Char, x.isDigit = false → (Nat.toDigits 10 n).head? ≠ some x := by
    intro x hx h
    have htrue := hdigit x (List.mem_of_head? h)
    rw [hx] at htrue
    cases htrue
  have hminus := hsign '-' (by decide)
  have hplus := hsign '+' (by decide)
  simp only [parseInt, hminus, hplus, or_self, if_false, Nat.ofDigitChars_ten_toDigits]
  refine if_congr ?_ rfl rfl
  refine ⟨fun h ↦ by omega, fun h ↦ ⟨Nat.toDigits_ne_nil, hdigit, by omega, by omega⟩⟩

section

variable {blank : Char → Bool} (hblank : IsBlank blank) (name : Text) (current : Option ℤ)
  (width : ℕ) (ls : List Text)

include hblank

theorem blank_of_mem_toDigits {n : ℕ} {x : Char} (hx : x ∈ Nat.toDigits 10 n) :
    blank x = false := by
  have hdigit := Nat.isDigit_of_mem_toDigits (by omega) (by omega) hx
  have hrange : 48 ≤ x.toNat ∧ x.toNat ≤ 57 := by
    simpa [Char.isDigit, Char.le_def, UInt32.le_iff_toNat_le] using hdigit
  exact hblank.graphic x (by omega) (by omega)

theorem blank_of_mem_replicate {x : Char} (hx : x ∈ List.replicate width ' ') : blank x = true := by
  rw [List.eq_of_mem_replicate hx]
  exact hblank.space

/-- A line with an id. -/
theorem idFromLines_id (n : ℕ) :
    idFromLines blank name current ((sessionId ++ ' ' :: Nat.toDigits 10 n) :: ls) =
      if n < 2147483648 then idFromLines blank name (some n) ls else .error .numberFormat := by
  have hdigits : ∀ x ∈ Nat.toDigits 10 n, blank x = false := fun x ↦ blank_of_mem_toDigits hblank
  have hend : (' ' :: Nat.toDigits 10 n).rdropWhile blank = ' ' :: Nat.toDigits 10 n := by
    refine List.rdropWhile_eq_self_iff.2 fun hne ↦ ?_
    rw [List.getLast_cons Nat.toDigits_ne_nil, hdigits _ (List.getLast_mem _)]
    exact Bool.false_ne_true
  have hline : strip blank (sessionId ++ ' ' :: Nat.toDigits 10 n) =
      sessionId ++ ' ' :: Nat.toDigits 10 n := by
    have h := strip_labelled (u := []) (fun _ h ↦ absurd h List.not_mem_nil)
      (hblank.graphic 'S' (by decide) (by decide)) (hblank.graphic ':' (by decide) (by decide))
      ['e', 's', 's', 'i', 'o', 'n', ' ', 'I', 'D'] (' ' :: Nat.toDigits 10 n)
    rw [hend] at h
    exact h
  have hprefix : sessionId.isPrefixOf (sessionId ++ ' ' :: Nat.toDigits 10 n) = true :=
    List.isPrefixOf_iff_prefix.2 (List.prefix_append _ _)
  have hnumber : strip blank (' ' :: Nat.toDigits 10 n) = Nat.toDigits 10 n := by
    have h := strip_append (u := [' ']) (List.forall_mem_singleton.2 hblank.space)
      (Nat.toDigits 10 n)
    rwa [strip_eq_self hdigits] at h
  rw [idFromLines, hline]
  rw [if_pos hprefix, List.drop_left, hnumber, parseInt_toDigits]
  split_ifs <;> rfl

/-- A line with a name. -/
theorem idFromLines_name (n : LineText) :
    idFromLines blank name current (nameLine width n :: ls) =
      if strip blank n.text = name then .ok current else idFromLines blank name current ls := by
  have hline : strip blank (nameLine width n) = nameLabel ++ (' ' :: n.text).rdropWhile blank :=
    strip_labelled (fun _ ↦ blank_of_mem_replicate hblank width)
      (hblank.graphic 'n' (by decide) (by decide)) (hblank.graphic ':' (by decide) (by decide))
      ['a', 'm', 'e'] (' ' :: n.text)
  have hprefix : nameLabel.isPrefixOf (nameLabel ++ (' ' :: n.text).rdropWhile blank) = true :=
    List.isPrefixOf_iff_prefix.2 (List.prefix_append _ _)
  have hname : strip blank (' ' :: n.text) = strip blank n.text :=
    strip_append (u := [' ']) (List.forall_mem_singleton.2 hblank.space) n.text
  rw [idFromLines, hline]
  rw [if_neg (by exact Bool.false_ne_true), hprefix, List.drop_left, strip_rdropWhile, hname]
  exact if_congr (and_iff_right rfl) rfl rfl

/-- A further line. -/
theorem idFromLines_detail (detail : Label × LineText) :
    idFromLines blank name current (detailLine width detail :: ls) =
      idFromLines blank name current ls := by
  obtain ⟨label, text⟩ := detail
  have hline : strip blank (detailLine width (label, text)) =
      label.text ++ ':' :: (' ' :: text.text).rdropWhile blank := by
    have hindent : ∀ z ∈ List.replicate width ' ', blank z = true := fun _ ↦
      blank_of_mem_replicate hblank width
    have hcolon := hblank.graphic ':' (by decide) (by decide)
    cases label with
    | user =>
      exact strip_labelled hindent (hblank.graphic 'u' (by decide) (by decide)) hcolon
        ['s', 'e', 'r'] (' ' :: text.text)
    | date =>
      exact strip_labelled hindent (hblank.graphic 'd' (by decide) (by decide)) hcolon
        ['a', 't', 'e'] (' ' :: text.text)
    | flags =>
      exact strip_labelled hindent (hblank.graphic 'f' (by decide) (by decide)) hcolon
        ['l', 'a', 'g', 's'] (' ' :: text.text)
  have hid : ∀ t, sessionId.isPrefixOf (label.text ++ t) = false := by
    intro t
    cases label <;> rfl
  have hname : ∀ t, nameLabel.isPrefixOf (label.text ++ t) = false := by
    intro t
    cases label <;> rfl
  rw [idFromLines, hline, hid, hname, if_neg Bool.false_ne_true,
    if_neg fun h ↦ Bool.false_ne_true h.1]

theorem idFromLines_details (details : List (Label × LineText)) :
    idFromLines blank name current (details.map (detailLine width) ++ ls) =
      idFromLines blank name current ls := by
  induction details with
  | nil => rfl
  | cons detail details ih =>
    rw [List.map_cons, List.cons_append, idFromLines_detail hblank, ih]

/-- **The lines of a session.** -/
theorem idFromLines_session (s : Session) :
    idFromLines blank name current (s.lines width ++ ls) =
      if s.Fits then
        if s.Named blank name then .ok (some s.id) else idFromLines blank name (some s.id) ls
      else .error .numberFormat := by
  rw [Session.lines, List.cons_append, List.append_assoc, idFromLines_id hblank]
  refine if_congr Iff.rfl ?_ rfl
  rcases hname : s.name with _ | n
  · rw [Option.toList_none, List.map_nil, List.nil_append, idFromLines_details hblank,
      if_neg fun h ↦ ?_]
    rw [Session.Named, hname] at h
    cases h
  · rw [Option.toList_some, List.map_singleton, List.singleton_append, idFromLines_name hblank,
      idFromLines_details hblank]
    refine if_congr ?_ rfl rfl
    rw [Session.Named, hname, Option.map_some, Option.some_inj]

/-- **Which session is found**: the one that was started, if no session before it has its name, and
the ids can be read so far. -/
theorem idFromLines_eq_iff {own : Session} (hown : own.Named blank name)
    (before behind : List Session) (hids : ∀ s ∈ before, s.id ≠ own.id) :
    idFromLines blank name current (listLines width (before ++ own :: behind)) =
        .ok (some (own.id : ℤ)) ↔
      (∀ s ∈ before, ¬ s.Named blank name ∧ s.Fits) ∧ own.Fits := by
  induction before generalizing current with
  | nil =>
    rw [List.nil_append, listLines, List.flatMap_cons, idFromLines_session hblank, if_pos hown]
    rw [and_iff_right fun _ h ↦ absurd h List.not_mem_nil]
    split_ifs with hfits
    · exact iff_of_true rfl hfits
    · exact iff_of_false (fun h ↦ nomatch h) hfits
  | cons s before ih =>
    obtain ⟨hs, hids⟩ := List.forall_mem_cons.1 hids
    rw [List.cons_append, listLines, List.flatMap_cons, idFromLines_session hblank,
      List.forall_mem_cons, and_assoc, ← ih _ hids, ← listLines]
    split_ifs with hfits hnamed
    -- an earlier session with the name is found, and its id is another one
    · refine iff_of_false (fun h ↦ hs ?_) fun h ↦ h.1.1 hnamed
      exact Int.ofNat_inj.1 (Option.some.inj (Except.ok.inj h))
    · exact (and_iff_right ⟨hnamed, hfits⟩).symm
    · exact iff_of_false (fun h ↦ nomatch h) fun h ↦ hfits h.1.2

end

/-! ### What the samples stop -/

/-- No line of the list has a line end. -/
theorem notMem_of_mem_listLines {width : ℕ} {table : List Session} {l : Text}
    (hl : l ∈ listLines width table) : '\n' ∉ l := by
  obtain ⟨s, -, hl⟩ := List.mem_flatMap.1 hl
  have hindent : '\n' ∉ List.replicate width ' ' := fun h ↦
    absurd (List.eq_of_mem_replicate h) (by decide)
  rcases List.mem_cons.1 hl with rfl | hl
  · have hdigits : '\n' ∉ Nat.toDigits 10 s.id := fun h ↦
      absurd (Nat.isDigit_of_mem_toDigits (by omega) (by omega) h) (by decide)
    simpa [sessionId] using hdigits
  rcases List.mem_append.1 hl with hl | hl
  · obtain ⟨n, -, rfl⟩ := List.mem_map.1 hl
    simpa [nameLine, nameLabel, hindent] using n.notMem_text
  · obtain ⟨⟨label, text⟩, -, rfl⟩ := List.mem_map.1 hl
    have hlabel : '\n' ∉ label.text := by cases label <;> decide
    simpa [detailLine, hindent, hlabel] using text.notMem_text

namespace Java

/-- Lines that are empty say nothing. -/
theorem idFromLines_append_nil {blank : Char → Bool} (name : Text) (current : Option ℤ)
    (ls : List Text) {es : List Text} (hes : ∀ e ∈ es, e = []) :
    idFromLines blank name current (ls ++ es) = idFromLines blank name current ls := by
  have hempty : ∀ current, idFromLines blank name current es = .ok none := by
    induction es with
    | nil => exact fun _ ↦ rfl
    | cons e es ih =>
      obtain ⟨rfl, hes'⟩ := List.forall_mem_cons.1 hes
      exact ih hes'
  induction ls generalizing current with
  | nil => exact hempty current
  | cons l ls ih => simp only [List.cons_append, idFromLines, ih]

/-- The blanks that the logger takes off make no difference. -/
theorem idFromLines_map {blank : Char → Bool} (name : Text) (current : Option ℤ) (ls : List Text) :
    idFromLines blank name current (ls.map (·.rdropWhile blank)) =
      idFromLines blank name current ls := by
  induction ls generalizing current with
  | nil => rfl
  | cons l ls ih => simp only [List.map_cons, idFromLines, strip_rdropWhile, ih]

/-- **The captured text is read line by line.** -/
theorem idFromList_captured {lines : List Text} (hlines : ∀ l ∈ lines, '\n' ∉ l) (name : Text) :
    idFromList (captured lines) name = idFromLines isWhitespace name none lines := by
  rcases lines with _ | ⟨l, ls⟩
  · rfl
  have hend : '\n' ∈ captured (l :: ls) :=
    List.mem_append_left _ (List.mem_append_right _ (List.mem_singleton_self _))
  have hstripped : ∀ t ∈ (l :: ls).map (·.rdropWhile isWhitespace), '\n' ∉ t := by
    intro t ht hmem
    obtain ⟨u, hu, rfl⟩ := List.mem_map.1 ht
    exact hlines u hu ((List.rdropWhile_prefix _ _).subset hmem)
  have hcaptured : captured (l :: ls) =
      ((l :: ls).map (·.rdropWhile isWhitespace)).flatMap (· ++ ['\n']) := by
    rw [List.flatMap_map]
    rfl
  rw [idFromList, split, if_pos hend, hcaptured, splitLines_flatMap hstripped,
    ← idFromLines_map name none (l :: ls)]
  -- `split` drops the empty texts at the end, which say nothing
  generalize (l :: ls).map (·.rdropWhile isWhitespace) = stripped
  have hempty : ∀ e ∈ (stripped ++ [[]]).rtakeWhile List.isEmpty, e = [] := fun e he ↦
    List.isEmpty_iff.1 (List.mem_rtakeWhile_imp he)
  calc idFromLines isWhitespace name none ((stripped ++ [[]]).rdropWhile List.isEmpty)
    _ = idFromLines isWhitespace name none (stripped ++ [[]]) := by
      rw [← idFromLines_append_nil name none _ hempty, List.rdropWhile_append_rtakeWhile]
    _ = idFromLines isWhitespace name none stripped :=
      idFromLines_append_nil name none stripped (List.forall_mem_singleton.2 rfl)

end Java

/-- What is left of an id if reading it throws. -/
theorem caught_eq_some_iff {id : Except Exception (Option ℤ)} {n : ℤ} :
    (match id with | .ok id => id | .error _ => none) = some n ↔ id = .ok (some n) := by
  rcases id with e | id
  · exact iff_of_false (fun h ↦ nomatch h) fun h ↦ nomatch h
  · exact (iff_of_eq (Except.ok.injEq _ _)).symm

/-- **The session that is stopped is the one that was started** exactly if no session listed before
it has its name, and the ids up to it fit into an `int`. -/
theorem stopped_iff (width : ℕ) (before behind : List Session) (own : Session)
    (hids : ((before ++ own :: behind).map (·.id)).Nodup) :
    (own.name.map (·.text) = some Java.NAME →
      (Java.stopped (listLines width (before ++ own :: behind)) = some (own.id : ℤ) ↔
        (∀ s ∈ before, ¬ s.Named Java.isWhitespace Java.NAME ∧ s.Fits) ∧ own.Fits)) ∧
    (own.name.map (·.text) = some CSharp.Name →
      (CSharp.stopped none (listLines width (before ++ own :: behind)) = some (own.id : ℤ) ↔
        (∀ s ∈ before, ¬ s.Named CSharp.isWhiteSpace CSharp.Name ∧ s.Fits) ∧ own.Fits)) := by
  have hown : ∀ s ∈ before, s.id ≠ own.id := by
    intro s hs h
    rw [List.map_append, List.map_cons, List.nodup_append] at hids
    exact hids.2.2 _ (List.mem_map_of_mem hs) _ List.mem_cons_self h
  have hnamed : ∀ {blank : Char → Bool} {name : Text}, strip blank name = name →
      own.name.map (·.text) = some name → own.Named blank name := by
    intro blank name hstrip hname
    obtain ⟨n, hn, rfl⟩ := Option.map_eq_some_iff.1 hname
    rw [Session.Named, hn, Option.map_some, hstrip]
  constructor
  · intro hname
    have hfound := idFromLines_eq_iff Java.isBlank Java.NAME none width
      (hnamed (by decide) hname) before behind hown
    rw [← hfound, Java.stopped, Java.idFromList_captured fun _ ↦ notMem_of_mem_listLines]
    exact caught_eq_some_iff
  · intro hname
    have hfound := idFromLines_eq_iff CSharp.isBlank CSharp.Name none width
      (hnamed (by decide) hname) before behind hown
    rw [← hfound]
    exact caught_eq_some_iff

/-- A session with the given id and name. -/
def named (id : ℕ) (name : Text) (h : '\n' ∉ name) : Session where
  id
  name := some ⟨name, h⟩
  details := [(.user, ⟨['S', 'Y', 'S', 'D', 'B', 'A'], by decide⟩)]

/-- A session of another name in front. -/
theorem stopped_behind_audit :
    Java.stopped (listLines 2 [named 3 ['a', 'u', 'd', 'i', 't'] (by decide),
        named 7 Java.NAME (by decide)]) = some 7 ∧
      CSharp.stopped none (listLines 2 [named 3 ['a', 'u', 'd', 'i', 't'] (by decide),
        named 7 CSharp.Name (by decide)]) = some 7 :=
  ⟨((stopped_iff 2 [named 3 ['a', 'u', 'd', 'i', 't'] (by decide)] []
      (named 7 Java.NAME (by decide)) (by decide)).1 rfl).2 (by decide),
    ((stopped_iff 2 [named 3 ['a', 'u', 'd', 'i', 't'] (by decide)] []
      (named 7 CSharp.Name (by decide)) (by decide)).2 rfl).2 (by decide)⟩

/-- A session left over from an earlier run. -/
theorem not_stopped_of_same_name :
    Java.stopped (listLines 2 [named 3 Java.NAME (by decide), named 7 Java.NAME (by decide)]) ≠
        some 7 ∧
      CSharp.stopped none (listLines 2 [named 3 CSharp.Name (by decide),
        named 7 CSharp.Name (by decide)]) ≠ some 7 := by
  decide

end FirebirdSamples.Trace
