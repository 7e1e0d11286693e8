import FirebirdSamples.Sql.Lexer

/-!
# The block of the pooling samples

The samples `pooling` build an `EXECUTE BLOCK` that runs a statement on an external data source. The
name of the data source comes from the command line, the user name and the password come from the
environment, and all three are pasted between apostrophes as they are.

The text around the values is fixed, and so are its tokens (`frame`). The values reach the block as
the constants they were meant to be exactly if none of them has an apostrophe
(`onlyValuesDiffer_iff`); with one, a literal ends early, and what follows it is program text.
-/

namespace FirebirdSamples.Sql

open Grammar (Text)

/-- What the user configures. -/
structure Values where
  external : Text
  user : Text
  password : Text

/-! ### The samples -/

/-- Lines of a text. -/
def textOf (lines : List String) : Text :=
  lines.flatMap String.toList

/-- The block as far as the data source. -/
def opening : Text :=
  textOf
    ["execute block returns (idle varchar(10), active varchar(10)) as\n",
      "  declare i int = 0;\n",
      "  declare v int;\n",
      "begin\n",
      "  while (i < 3) do\n",
      "  begin\n",
      "    execute statement 'select 1 from rdb$database'\n",
      "      on external "]

/-- Between the data source and the user name. -/
def asUser : Text :=
  textOf ["\n", "      as user "]

/-- Between the user name and the password. -/
def andPassword : Text :=
  textOf [" password "]

/-- The block behind the password. -/
def closing : Text :=
  textOf
    ["\n",
      "      into :v;\n",
      "    i = i + 1;\n",
      "  end\n",
      "  idle   = rdb$get_context('SYSTEM', 'EXT_CONN_POOL_IDLE_COUNT');\n",
      "  active = rdb$get_context('SYSTEM', 'EXT_CONN_POOL_ACTIVE_COUNT');\n",
      "  suspend;\n",
      "end"]

/-- The block, behind `lead`. -/
def blockBehind (lead : Text) (v : Values) : Text :=
  lead ++ opening ++ '\'' :: (v.external ++ '\'' :: (asUser ++ '\'' :: (v.user ++
    '\'' :: (andPassword ++ '\'' :: (v.password ++ '\'' :: closing)))))

/-- `block` of `pooling.cpp`. -/
def Cpp.block (v : Values) : Text :=
  blockBehind [] v

/-- `block` of `pooling/main.go`. -/
def Go.block (v : Values) : Text :=
  blockBehind [] v

/-- `block` of `pooling.py`, which begins with a line end. -/
def Python.block (v : Values) : Text :=
  blockBehind ['\n'] v

/-- `sql` in `block` of `Pooling.java`. -/
def Java.block (v : Values) : Text :=
  blockBehind [] v

/-- The samples. -/
inductive Sample where
  | cpp
  | go
  | python
  | java

/-- The block of a sample. -/
def Sample.block : Sample → Values → Text
  | cpp => Cpp.block
  | go => Go.block
  | python => Python.block
  | java => Java.block

/-! ### What the block should be -/

/-- The tokens around three literals. -/
structure Frame where
  before : List Token
  toUser : List Token
  toPassword : List Token
  behind : List Token

/-- The tokens with the values for the literals. -/
def Frame.fill (f : Frame) (v : Values) : List Token :=
  f.before ++ .literal v.external :: (f.toUser ++ .literal v.user ::
    (f.toPassword ++ .literal v.password :: f.behind))

/-- The tokens of the text around the values. -/
def frame : Frame where
  before := lexer.emitted .start opening
  toUser := lexer.emitted .start asUser
  toPassword := lexer.emitted .start andPassword
  behind := (lex closing).getD []

/-- The two choices make the same block, but for three literals, which denote the values. -/
def OnlyValuesDiffer (block : Values → Text) (v w : Values) : Prop :=
  lex (block v) = some (frame.fill v) ∧ lex (block w) = some (frame.fill w)

/-- None of the values has an apostrophe. -/
def Values.Plain (v : Values) : Prop :=
  '\'' ∉ v.external ∧ '\'' ∉ v.user ∧ '\'' ∉ v.password

instance (v : Values) : Decidable v.Plain :=
  inferInstanceAs (Decidable (_ ∧ _ ∧ _))

/-! ### What it is -/

/-- A value that is pasted behind fixed text. -/
theorem scan_piece_iff {piece s : Text} (hpiece : lexer.after .start piece = .start)
    (hs : s.head? ≠ some '\'') (t : Text) (ts : List Token) :
    lexer.scan .start (piece ++ '\'' :: (t ++ '\'' :: s)) =
        some (lexer.emitted .start piece ++ .literal t :: ts) ↔
      '\'' ∉ t ∧ lexer.scan .start s = some ts := by
  have hquote : lexer.scan .start ('\'' :: (t ++ '\'' :: s)) =
      lexer.scan (.literal []) (t ++ '\'' :: s) :=
    lexer.scan_cons_of_step rfl _
  rw [Scanner.scan_append, hpiece, hquote, ← scan_paste_iff hs, Option.map_eq_some_iff]
  constructor
  · rintro ⟨us, hus, heq⟩
    rw [hus, List.append_cancel_left heq]
  · intro h
    exact ⟨_, h, rfl⟩

/-- The fixed text behind a value does not begin with an apostrophe. -/
theorem head?_append_ne {piece : Text} {x : Char} (hpiece : piece.head? = some x) (hx : x ≠ '\'')
    (s : Text) : (piece ++ s).head? ≠ some '\'' := by
  rw [List.head?_append, hpiece]
  exact fun h ↦ hx (Option.some.inj h)

theorem after_opening : lexer.after .start opening = .start := by
  decide +kernel

theorem after_asUser : lexer.after .start asUser = .start := by
  decide +kernel

theorem after_andPassword : lexer.after .start andPassword = .start := by
  decide +kernel

theorem lex_closing : lex closing = some frame.behind := by
  have hclosed : lex closing ≠ none := by decide +kernel
  rw [frame, Option.getD_of_ne_none hclosed]

/-- A block is read as it was meant exactly if no value has an apostrophe. -/
theorem lex_blockBehind_iff {lead : Text} (hlead : lexer.after .start lead = .start)
    (hemitted : lexer.emitted .start lead = []) (v : Values) :
    lex (blockBehind lead v) = some (frame.fill v) ↔ v.Plain := by
  have hopening : lexer.after .start (lead ++ opening) = .start := by
    rw [Scanner.after_append, hlead, after_opening]
  have hbefore : frame.before = lexer.emitted .start (lead ++ opening) := by
    rw [Scanner.emitted_append, hlead, hemitted]
    exact (List.nil_append _).symm
  have huser : asUser.head? = some '\n' := by decide +kernel
  have hpassword : andPassword.head? = some ' ' := by decide +kernel
  have hclosing : closing.head? ≠ some '\'' := by decide +kernel
  -- one value after the other, each with the fixed text in front of it
  rw [lex, blockBehind, Frame.fill, hbefore, Values.Plain,
    scan_piece_iff hopening (head?_append_ne huser (by decide) _),
    show frame.toUser = lexer.emitted .start asUser from rfl,
    scan_piece_iff after_asUser (head?_append_ne hpassword (by decide) _),
    show frame.toPassword = lexer.emitted .start andPassword from rfl,
    scan_piece_iff after_andPassword hclosing]
  exact and_congr_right fun _ ↦ and_congr_right fun _ ↦ and_iff_left lex_closing

theorem Sample.lex_block_iff (sample : Sample) (v : Values) :
    lex (sample.block v) = some (frame.fill v) ↔ v.Plain := by
  cases sample with
  | python => exact lex_blockBehind_iff (by decide) rfl v
  | cpp | go | java => exact lex_blockBehind_iff rfl rfl v

/-- **The values cannot change the block** exactly if none of them has an apostrophe. -/
theorem onlyValuesDiffer_iff (sample : Sample) (v w : Values) :
    OnlyValuesDiffer sample.block v w ↔ v.Plain ∧ w.Plain :=
  and_congr (sample.lex_block_iff v) (sample.lex_block_iff w)

/-- The defaults. -/
def Values.defaults : Values where
  external := "inet://localhost/employee".toList
  user := "SYSDBA".toList
  password := "masterkey".toList

/-- A password with an apostrophe. -/
theorem not_onlyValuesDiffer_of_apostrophe :
    ¬ OnlyValuesDiffer Sample.cpp.block
      { Values.defaults with password := ['i', 't', '\'', 's'] } Values.defaults := by
  rintro ⟨h, -⟩
  obtain ⟨-, -, hpassword⟩ := (Sample.cpp.lex_block_iff _).1 h
  exact hpassword (by decide)

end FirebirdSamples.Sql
