import FirebirdSamples.Library.Ownership

/-!
# The class `Db`

`Db` of `samples/cpp/fb_sample.h` wraps an attachment. Its methods create interfaces (a builder for
the parameter block, the attachment, a statement, its metadata, a builder for them and a result
set), make calls that may throw, and end the interfaces at the end of the method. Only the
attachment is kept in a member, which the destructor looks at.

So an interface is lost if a call throws while a method owns one, and all are ended once exactly if
no such call throws (`leavesNothing_iff`). The calls that may throw are the one that creates the
first interface of a method, those within the `try` block of `attachOrCreate`, and `detach` in the
destructor. A query without an attachment dereferences a null pointer. The methods are followed
twice: what they own (`Accounts`), and how many calls they make (`Steady`, `Guarded`), from which
the condition is read off the numbers of the calls that throw (`Quiet`).
-/

namespace FirebirdSamples.Client

open Ownership

/-- The parameters that a parameter block is made of. -/
inductive Parameter where
  | userName
  | password
  | lcCtype
  | pageSize
  | setDbCharset

/-- The functions of the interfaces, with the column that they are called for. -/
inductive Function where
  | getXpbBuilder
  | insertString (parameter : Parameter)
  | insertInt (parameter : Parameter)
  | getBufferLength
  | getBuffer
  | attachDatabase
  | createDatabase
  | detach
  | prepare
  | getOutputMetadata
  | getBuilder
  | getCount
  | getField (column : ℕ)
  | setType (column : ℕ)
  | setLength (column : ℕ)
  | setCharSet (column : ℕ)
  | getMetadata
  | getMessageLength
  | openCursor
  | fetchNext
  | getOffset (column : ℕ)
  | getNullOffset (column : ℕ)
  | close
  | free

/-- A call of a function. -/
inductive Call where
  | plain (f : Function)
  /-- Within the `try` block of `attachOrCreate`. -/
  | tried (f : Function)

/-- The call is made while a method owns an interface, and its exception leaves the method. -/
def Call.Leaks : Call → Prop
  | .plain f => f ≠ .getXpbBuilder ∧ f ≠ .prepare ∧ f ≠ .detach
  | .tried _ => False

/-- What a query returns, as far as it matters. -/
structure Query where
  columns : ℕ
  rows : ℕ

namespace Db

/-! ### The methods -/

/-- What `makeDpb` writes. -/
def describe (charset : Option String) : Prog Call Unit := do
  call (.plain (.insertString .userName))
  call (.plain (.insertString .password))
  if charset.getD "" ≠ "" then
    call (.plain (.insertString .lcCtype))

/-- `makeDpb`. -/
def makeDpb (charset : Option String) : Prog Call ℕ := do
  let dpb ← create (.plain .getXpbBuilder)
  describe charset
  return dpb

/-- `attach`, with the attachment as the result. -/
def attach (charset : Option String) : Prog Call ℕ := do
  let dpb ← makeDpb charset
  call (.plain .getBufferLength)
  call (.plain .getBuffer)
  let att ← create (.plain .attachDatabase)
  finish dpb
  return att

/-- The `try` block of `attachOrCreate`. -/
def tryAttach : Prog Call ℕ := do
  call (.tried .getBufferLength)
  call (.tried .getBuffer)
  create (.tried .attachDatabase)

/-- The handler of `attachOrCreate`. -/
def createInstead : Prog Call ℕ := do
  call (.plain (.insertInt .pageSize))
  call (.plain (.insertString .setDbCharset))
  call (.plain .getBufferLength)
  call (.plain .getBuffer)
  create (.plain .createDatabase)

/-- `attachOrCreate`, with the attachment as the result. -/
def attachOrCreate : Prog Call ℕ := do
  let dpb ← makeDpb "UTF8"
  let att ← tryCatch tryAttach createInstead
  finish dpb
  return att

/-- The loop of `query` over the columns. -/
def coerce (column : ℕ) : Prog Call Unit := do
  call (.plain (.getField column))
  call (.plain (.setType column))
  call (.plain (.setLength column))
  call (.plain (.setCharSet column))

/-- The loop of `query` over the values of a row. -/
def value (column : ℕ) : Prog Call Unit := do
  call (.plain (.getOffset column))
  call (.plain (.getNullOffset column))

/-- The loop of `query` over the rows. -/
def row (columns : ℕ) : Prog Call Unit := do
  call (.plain .fetchNext)
  forEach (List.range columns) value

/-- `query`, behind `prepare`. -/
def fetchAll (q : Query) (stmt : ℕ) : Prog Call Unit := do
  let described ← create (.plain .getOutputMetadata)
  let builder ← create (.plain .getBuilder)
  call (.plain .getCount)
  forEach (List.range q.columns) coerce
  finish described
  let coerced ← create (.plain .getMetadata)
  finish builder
  call (.plain .getMessageLength)
  let curs ← create (.plain .openCursor)
  forEach (List.range q.rows) fun _ ↦ row q.columns
  call (.plain .fetchNext)
  finishBy (.plain .close) curs
  finish coerced
  finishBy (.plain .free) stmt

/-- `query`. -/
def query (att : Option ℕ) (q : Query) : Prog Call Unit :=
  match att with
  | none => undefined
  | some _ => do
    let stmt ← create (.plain .prepare)
    fetchAll q stmt

/-- The destructor. -/
def destroy (att : Option ℕ) : Prog Call Unit :=
  match att with
  | none => pure ()
  | some att => do
    if ← finishQuietly (.plain .detach) att then
      finish att

/-! ### The life of a `Db` -/

/-- How a `Db` is attached. -/
inductive Opening where
  | attach (charset : Option String)
  | attachOrCreate

/-- The method. -/
def Opening.run : Opening → Prog Call ℕ
  | attach charset => Db.attach charset
  | attachOrCreate => Db.attachOrCreate

/-- The member `att` behind the first method, whose exception the caller catches. -/
def attached (opening : Opening) : Prog Call (Option ℕ) :=
  tryCatch
    (do
      let att ← opening.run
      return some att)
    (pure none)

/-- The queries, with their exceptions caught, and the destructor. -/
def served (queries : List Query) (att : Option ℕ) : Prog Call Unit := do
  forEach queries fun q ↦ tryCatch (query att q) (pure ())
  destroy att

/-- All that is done with a `Db`. -/
def life (opening : Opening) (queries : List Query) : Prog Call Unit := do
  let att ← attached opening
  served queries att

/-- Each interface that is created is ended exactly once. -/
def LeavesNothing (opening : Opening) (queries : List Query) (throws : ℕ → Bool) : Prop :=
  ∃ w, life opening queries (.initial Call throws) = (.ok (), w) ∧ w.EndedOnce

/-! ### What the methods leave behind -/

section Methods

variable {held own lost : Multiset ℕ} {throws : ℕ → Bool}

/-- A call of a method that owns something. -/
theorem triple_plain {f : Function} (hf : (Call.plain f).Leaks) (hown : own ≠ 0) :
    Triple (Accounts Call.Leaks (held + own) lost) (call (.plain f))
      (fun _ ↦ Accounts Call.Leaks (held + own) lost) (Lossy Call.Leaks held) :=
  triple_call_leaks hf hown

theorem triple_describe (charset : Option String) (hown : own ≠ 0) :
    Triple (Accounts Call.Leaks (held + own) lost) (describe charset)
      (fun _ ↦ Accounts Call.Leaks (held + own) lost) (Lossy Call.Leaks held) := by
  refine .bind (triple_plain (by simp [Call.Leaks]) hown) fun _ ↦ ?_
  refine .bind (triple_plain (by simp [Call.Leaks]) hown) fun _ ↦ ?_
  exact .ite (triple_plain (by simp [Call.Leaks]) hown) (.pure fun _ hw ↦ hw)

/-- `makeDpb` as the first thing that is done. -/
theorem triple_makeDpb (hfirst : throws 0 = false) (charset : Option String) :
    Triple (· = .initial Call throws) (makeDpb charset)
      (fun dpb ↦ Accounts Call.Leaks (0 + {dpb}) 0) (Lossy Call.Leaks 0) := by
  have hcreate : Triple (· = .initial Call throws) (create (.plain .getXpbBuilder))
      (fun dpb ↦ Accounts Call.Leaks (0 + {dpb}) 0) (Lossy Call.Leaks 0) :=
    .bind (triple_first_call hfirst) fun _ ↦ triple_fresh
  refine .bind hcreate fun dpb ↦ ?_
  refine .bind (triple_describe charset (Multiset.singleton_ne_zero dpb)) fun _ ↦ ?_
  exact .pure fun _ hw ↦ hw

/-- Without a builder, nothing is created. -/
theorem triple_makeDpb_throws (hfirst : throws 0 = true) (charset : Option String) :
    Triple (· = .initial Call throws) (makeDpb charset) (fun _ _ ↦ False)
      (Accounts Call.Leaks 0 0) := by
  refine .bind (.bind (triple_first_call_throws hfirst ?_) fun _ ↦ .of_false) fun _ ↦ .of_false
  exact fun h ↦ h.1 rfl

theorem triple_attach (hfirst : throws 0 = false) (charset : Option String) :
    Triple (· = .initial Call throws) (attach charset)
      (fun att ↦ Accounts Call.Leaks {att} 0) (Lossy Call.Leaks 0) := by
  refine .bind (triple_makeDpb hfirst charset) fun dpb ↦ ?_
  have hdpb : ({dpb} : Multiset ℕ) ≠ 0 := Multiset.singleton_ne_zero dpb
  refine .bind (triple_plain (by simp [Call.Leaks]) hdpb) fun _ ↦ ?_
  refine .bind (triple_plain (by simp [Call.Leaks]) hdpb) fun _ ↦ ?_
  refine .bind (triple_create_leaks (by simp [Call.Leaks]) hdpb) fun att ↦ ?_
  refine .bind (triple_finish ?_) fun _ ↦ .pure fun _ hw ↦ hw
  abel

/-- The `try` block of `attachOrCreate` loses nothing. -/
theorem triple_attachOrCreate (hfirst : throws 0 = false) :
    Triple (· = .initial Call throws) attachOrCreate
      (fun att ↦ Accounts Call.Leaks {att} 0) (Lossy Call.Leaks 0) := by
  refine .bind (triple_makeDpb hfirst _) fun dpb ↦ ?_
  have hdpb : ({dpb} : Multiset ℕ) ≠ 0 := Multiset.singleton_ne_zero dpb
  refine .bind (.tryCatch (Q := fun att ↦ Accounts Call.Leaks (0 + ({dpb} + {att})) 0)
    (T := Accounts Call.Leaks (0 + {dpb}) 0) ?_ ?_) fun att ↦ ?_
  · refine .bind (triple_call id) fun _ ↦ .bind (triple_call id) fun _ ↦ ?_
    refine .bind (triple_call id) fun _ ↦ ?_
    simp only [← add_assoc]
    exact triple_fresh
  · refine .bind (triple_plain (by simp [Call.Leaks]) hdpb) fun _ ↦ ?_
    refine .bind (triple_plain (by simp [Call.Leaks]) hdpb) fun _ ↦ ?_
    refine .bind (triple_plain (by simp [Call.Leaks]) hdpb) fun _ ↦ ?_
    refine .bind (triple_plain (by simp [Call.Leaks]) hdpb) fun _ ↦ ?_
    exact triple_create_leaks (by simp [Call.Leaks]) hdpb
  · refine .bind (triple_finish ?_) fun _ ↦ .pure fun _ hw ↦ hw
    abel

/-- The loops of `query`. -/
theorem triple_coerce (column : ℕ) (hown : own ≠ 0) :
    Triple (Accounts Call.Leaks (held + own) lost) (coerce column)
      (fun _ ↦ Accounts Call.Leaks (held + own) lost) (Lossy Call.Leaks held) := by
  refine .bind (triple_plain (by simp [Call.Leaks]) hown) fun _ ↦ ?_
  refine .bind (triple_plain (by simp [Call.Leaks]) hown) fun _ ↦ ?_
  refine .bind (triple_plain (by simp [Call.Leaks]) hown) fun _ ↦ ?_
  exact triple_plain (by simp [Call.Leaks]) hown

theorem triple_row (columns : ℕ) (hown : own ≠ 0) :
    Triple (Accounts Call.Leaks (held + own) lost) (row columns)
      (fun _ ↦ Accounts Call.Leaks (held + own) lost) (Lossy Call.Leaks held) := by
  refine .bind (triple_plain (by simp [Call.Leaks]) hown) fun _ ↦ ?_
  refine .forEach fun column ↦ .bind (triple_plain (by simp [Call.Leaks]) hown) fun _ ↦ ?_
  exact triple_plain (by simp [Call.Leaks]) hown

/-- Behind `prepare`, each call is made while something is owned. -/
theorem triple_fetchAll (q : Query) (stmt : ℕ) :
    Triple (Accounts Call.Leaks (held + {stmt}) lost) (fetchAll q stmt)
      (fun _ ↦ Accounts Call.Leaks held lost) (Lossy Call.Leaks held) := by
  have hstmt : ({stmt} : Multiset ℕ) ≠ 0 := Multiset.singleton_ne_zero stmt
  refine .bind (triple_create_leaks (by simp [Call.Leaks]) hstmt) fun described ↦ ?_
  have hdescribed := add_singleton_ne_zero {stmt} described
  refine .bind (triple_create_leaks (by simp [Call.Leaks]) hdescribed) fun builder ↦ ?_
  have hbuilder := add_singleton_ne_zero ({stmt} + {described}) builder
  refine .bind (triple_plain (by simp [Call.Leaks]) hbuilder) fun _ ↦ ?_
  refine .bind (.forEach fun column ↦ triple_coerce column hbuilder) fun _ ↦ ?_
  refine .bind (Q := fun _ ↦ Accounts Call.Leaks (held + ({stmt} + {builder})) lost)
    (triple_finish (by abel)) fun _ ↦ ?_
  refine .bind (triple_create_leaks (by simp [Call.Leaks])
    (add_singleton_ne_zero {stmt} builder)) fun coerced ↦ ?_
  refine .bind (Q := fun _ ↦ Accounts Call.Leaks (held + ({stmt} + {coerced})) lost)
    (triple_finish (by abel)) fun _ ↦ ?_
  have hcoerced := add_singleton_ne_zero {stmt} coerced
  refine .bind (triple_plain (by simp [Call.Leaks]) hcoerced) fun _ ↦ ?_
  refine .bind (triple_create_leaks (by simp [Call.Leaks]) hcoerced) fun curs ↦ ?_
  have hcurs := add_singleton_ne_zero ({stmt} + {coerced}) curs
  refine .bind (.forEach fun _ ↦ triple_row q.columns hcurs) fun _ ↦ ?_
  refine .bind (triple_plain (by simp [Call.Leaks]) hcurs) fun _ ↦ ?_
  refine .bind (triple_finishBy_leaks (by simp [Call.Leaks]) rfl) fun _ ↦ ?_
  refine .bind (Q := fun _ ↦ Accounts Call.Leaks (held + {stmt}) lost)
    (triple_finish (add_assoc _ _ _).symm) fun _ ↦ ?_
  have hfree : Triple (Accounts Call.Leaks (held + {stmt}) lost) (finishBy (.plain .free) stmt)
      (fun _ ↦ Accounts Call.Leaks (held + 0) lost) (Lossy Call.Leaks held) :=
    triple_finishBy_leaks (by simp [Call.Leaks]) (zero_add _).symm
  rw [add_zero] at hfree
  exact hfree

/-- A query leaves the attachment, whether it throws or not. -/
theorem triple_query (att : ℕ) (q : Query) :
    Triple (Accounts Call.Leaks {att} lost) (query (some att) q)
      (fun _ ↦ Accounts Call.Leaks {att} lost)
      fun w ↦ ∃ lost, Accounts Call.Leaks {att} lost w := by
  have hcreate : Triple (Accounts Call.Leaks {att} lost) (create (.plain .prepare))
      (fun stmt ↦ Accounts Call.Leaks ({att} + {stmt}) lost) (Accounts Call.Leaks {att} lost) :=
    .bind (triple_call fun h ↦ h.2.1 rfl) fun _ ↦ triple_fresh
  refine .bind (hcreate.throws fun _ hw ↦ ⟨lost, hw⟩) fun stmt ↦ ?_
  exact (triple_fetchAll q stmt).throws fun _ ⟨lost, _, hw⟩ ↦ ⟨lost, hw⟩

/-- The destructor ends the attachment. -/
theorem triple_destroy (att : ℕ) {T : World Call → Prop} :
    Triple (Accounts Call.Leaks {att} lost) (destroy (some att))
      (fun _ ↦ Accounts Call.Leaks 0 lost) T := by
  refine .bind (triple_finishQuietly (fun h ↦ h.2.2 rfl) (zero_add _).symm) fun error ↦ ?_
  rcases error with _ | _
  · exact .pure fun _ hw ↦ hw
  · exact triple_finish (zero_add _).symm

/-- With an attachment, nothing is owned in the end. -/
theorem triple_served (queries : List Query) (att : ℕ) :
    Triple (Accounts Call.Leaks {att} lost) (served queries (some att))
      (fun _ w ↦ ∃ lost, Accounts Call.Leaks 0 lost w) fun _ ↦ False := by
  refine .bind (Q := fun _ w ↦ ∃ lost, Accounts Call.Leaks {att} lost w) ?_ fun _ ↦ ?_
  · have hloop : Triple (fun w ↦ ∃ lost, Accounts Call.Leaks {att} lost w)
        (forEach queries fun q ↦ tryCatch (query (some att) q) (pure ()))
        (fun _ w ↦ ∃ lost, Accounts Call.Leaks {att} lost w) fun _ ↦ False := by
      refine .forEach fun q ↦ .exists fun lost ↦ ?_
      refine .tryCatch (Q := fun _ w ↦ ∃ lost, Accounts Call.Leaks {att} lost w) ?_
        (.pure fun _ hw ↦ hw)
      exact (triple_query att q).mono fun _ _ hw ↦ ⟨lost, hw⟩
    exact fun w hw ↦ hloop w ⟨lost, hw⟩
  · refine .exists fun lost ↦ ?_
    exact (triple_destroy att).mono fun _ _ hw ↦ ⟨lost, hw⟩

/-- With an attachment, the methods lose something exactly if a call that leaks throws. -/
theorem triple_attached (hfirst : throws 0 = false) (opening : Opening) :
    Triple (· = .initial Call throws) (attached opening)
      (fun
        | some att => Accounts Call.Leaks {att} 0
        | none => Lossy Call.Leaks 0) fun _ ↦ False := by
  have hrun : Triple (· = .initial Call throws) opening.run
      (fun att ↦ Accounts Call.Leaks {att} 0) (Lossy Call.Leaks 0) := by
    cases opening with
    | attach charset => exact triple_attach hfirst charset
    | attachOrCreate => exact triple_attachOrCreate hfirst
  exact .tryCatch (.bind hrun fun _ ↦ .pure fun _ hw ↦ hw) (.pure fun _ hw ↦ hw)

theorem triple_attached_throws (hfirst : throws 0 = true) (opening : Opening) :
    Triple (· = .initial Call throws) (attached opening)
      (fun att w ↦ att = none ∧ Accounts Call.Leaks 0 0 w) fun _ ↦ False := by
  have hrun : Triple (· = .initial Call throws) opening.run (fun _ _ ↦ False)
      (Accounts Call.Leaks 0 0) := by
    cases opening with
    | attach charset => exact .bind (triple_makeDpb_throws hfirst charset) fun _ ↦ .of_false
    | attachOrCreate => exact .bind (triple_makeDpb_throws hfirst _) fun _ ↦ .of_false
  exact .tryCatch (.bind hrun fun _ ↦ .of_false) (.pure fun _ hw ↦ ⟨rfl, hw⟩)

end Methods

/-! ### The calls of the methods -/

section Calls

variable {throws : ℕ → Bool}

/-- How many calls `describe` makes. -/
def describeCalls (charset : Option String) : ℕ :=
  2 + if charset.getD "" ≠ "" then 1 else 0

/-- How many calls `fetchAll` makes. -/
def fetchCalls (q : Query) : ℕ :=
  9 + q.columns * 4 + q.rows * (1 + q.columns * 2)

/-- With a builder, no call of the first method that leaks throws. The handler of `attachOrCreate`
begins behind the call of the `try` block that throws. -/
def Opening.Quiet (throws : ℕ → Bool) : Opening → Prop
  | attach charset => QuietFrom throws 1 (describeCalls charset + 3)
  | attachOrCreate =>
    QuietFrom throws 1 3 ∧
      match firstThrow throws 4 3 with
      | none => True
      | some n => QuietFrom throws (n + 1) 5

/-- The number of the first call behind the first method. -/
def Opening.next (throws : ℕ → Bool) : Opening → ℕ
  | attach charset => 1 + (describeCalls charset + 3)
  | attachOrCreate =>
    match firstThrow throws 4 3 with
    | none => 7
    | some n => n + 1 + 5

/-- No call of the queries that leaks throws, from the call number `n` on. -/
def QueriesQuiet (throws : ℕ → Bool) : ℕ → List Query → Prop
  | _, [] => True
  | n, q :: queries =>
    if throws n then
      QueriesQuiet throws (n + 1) queries
    else
      QuietFrom throws (n + 1) (fetchCalls q) ∧ QueriesQuiet throws (n + 1 + fetchCalls q) queries

/-- No call that leaks throws, and no query is asked without an attachment. -/
def Quiet (opening : Opening) (queries : List Query) (throws : ℕ → Bool) : Prop :=
  if throws 0 then
    queries = []
  else
    opening.Quiet throws ∧ QueriesQuiet throws (opening.next throws) queries

theorem steady_describe (charset : Option String) :
    Steady Call.Leaks (fun _ ↦ True) (describeCalls charset) (describe charset) := by
  refine .of_eq (.bind (.call ?_) fun _ ↦ .bind (.call ?_) fun _ ↦ .ite (.call ?_) (.pure ())) ?_
  · simp [Call.Leaks]
  · simp [Call.Leaks]
  · simp [Call.Leaks]
  · rw [describeCalls, ← Nat.add_assoc]

/-- `makeDpb` as the first thing that is done. -/
theorem steady_makeDpb (hfirst : throws 0 = false) (charset : Option String) :
    Steady Call.Leaks (· = .initial Call throws) (1 + describeCalls charset)
      (makeDpb charset) := by
  have hcreate : Steady Call.Leaks (· = .initial Call throws) 1 (create (.plain .getXpbBuilder)) :=
    .bind (.first_call hfirst) fun _ ↦ .fresh
  exact hcreate.bind fun dpb ↦ (steady_describe charset).bind fun _ ↦ .pure dpb

theorem steady_attach (hfirst : throws 0 = false) (charset : Option String) :
    Steady Call.Leaks (· = .initial Call throws) (1 + (describeCalls charset + 3))
      (attach charset) := by
  refine .of_eq (.bind (steady_makeDpb hfirst charset) fun dpb ↦ .bind (.call ?_) fun _ ↦
    .bind (.call ?_) fun _ ↦ .bind (.create ?_) fun att ↦ .bind (.finish dpb) fun _ ↦ .pure att)
    (Nat.add_assoc _ _ _)
  · simp [Call.Leaks]
  · simp [Call.Leaks]
  · simp [Call.Leaks]

theorem guarded_tryAttach : Guarded Call.Leaks 3 tryAttach :=
  .bind (.call id) fun _ ↦ .bind (.call id) fun _ ↦ .create id

theorem steady_createInstead : Steady Call.Leaks (fun _ ↦ True) 5 createInstead := by
  refine .bind (.call ?_) fun _ ↦ .bind (.call ?_) fun _ ↦ .bind (.call ?_) fun _ ↦
    .bind (.call ?_) fun _ ↦ .create ?_
  all_goals simp [Call.Leaks]

theorem steady_coerce (column : ℕ) : Steady Call.Leaks (fun _ ↦ True) 4 (coerce column) := by
  refine .bind (.call ?_) fun _ ↦ .bind (.call ?_) fun _ ↦ .bind (.call ?_) fun _ ↦ .call ?_
  all_goals simp [Call.Leaks]

theorem steady_row (columns : ℕ) :
    Steady Call.Leaks (fun _ ↦ True) (1 + columns * 2) (row columns) := by
  have hvalue : ∀ column, Steady Call.Leaks (fun _ ↦ True) 2 (value column) := by
    intro column
    refine .bind (.call ?_) fun _ ↦ .call ?_
    all_goals simp [Call.Leaks]
  have hvalues := Steady.forEach (List.range columns) hvalue
  rw [List.length_range] at hvalues
  exact .bind (.call (by simp [Call.Leaks])) fun _ ↦ hvalues

theorem steady_fetchAll (q : Query) (stmt : ℕ) :
    Steady Call.Leaks (fun _ ↦ True) (fetchCalls q) (fetchAll q stmt) := by
  have hcolumns := Steady.forEach (List.range q.columns) steady_coerce
  have hrows := Steady.forEach (List.range q.rows) fun _ ↦ steady_row q.columns
  rw [List.length_range] at hcolumns hrows
  refine .of_eq (.bind (.create ?_) fun described ↦ .bind (.create ?_) fun builder ↦
    .bind (.call ?_) fun _ ↦ .bind hcolumns fun _ ↦ .bind (.finish described) fun _ ↦
    .bind (.create ?_) fun coerced ↦ .bind (.finish builder) fun _ ↦ .bind (.call ?_) fun _ ↦
    .bind (.create ?_) fun curs ↦ .bind hrows fun _ ↦ .bind (.call ?_) fun _ ↦
    .bind (.finishBy ?_ curs) fun _ ↦ .bind (.finish coerced) fun _ ↦ .finishBy ?_ stmt) ?_
  rotate_right
  · rw [fetchCalls]
    omega
  all_goals simp [Call.Leaks]

/-! ### How the methods end -/

theorem quietFrom_makeDpb_iff (hfirst : throws 0 = false) :
    QuietFrom throws 0 (1 + describeCalls "UTF8") ↔ QuietFrom throws 1 3 := by
  have hcalls : describeCalls "UTF8" = 3 := by decide
  rw [hcalls, quietFrom_add, quietFrom_one, and_iff_right hfirst]

theorem returns_opening (hfirst : throws 0 = false) {opening : Opening}
    (hquiet : opening.Quiet throws) :
    Returns Call.Leaks opening.run (.initial Call throws) (opening.next throws) := by
  cases opening with
  | attach charset =>
    have hreturns := (steady_attach hfirst charset).returns _ rfl
      (quietFrom_add.2 ⟨quietFrom_one.2 hfirst, hquiet⟩)
    rwa [← Nat.zero_add (Opening.next throws _)]
  | attachOrCreate =>
    have hdpb := (steady_makeDpb hfirst "UTF8").returns _ rfl
      ((quietFrom_makeDpb_iff hfirst).2 hquiet.1)
    refine hdpb.bind fun dpb w hlater ↦ ?_
    have htry : Returns Call.Leaks (tryCatch tryAttach createInstead) w
        (Opening.attachOrCreate.next throws) := by
      have hreturns := guarded_tryAttach.returns w
      have hpasses := guarded_tryAttach.passes w
      rw [hlater.throws, hlater.length] at hreturns hpasses
      have hquiet' := hquiet.2
      rw [Opening.next]
      rcases hthrow : firstThrow throws 4 3 with _ | n
      · exact (hreturns hthrow).tryCatch
      · rw [hthrow] at hquiet'
        refine (hpasses n hthrow).tryCatch fun w' hlater' ↦ ?_
        have hhandler := steady_createInstead.returns w' trivial
        rw [hlater'.throws, hlater'.length, hlater.throws] at hhandler
        exact hhandler hquiet'
    refine htry.bind fun att w' hlater' ↦ ?_
    exact ⟨att, _, rfl, rfl, hlater'.length, Iff.rfl⟩

theorem spoils_opening (hfirst : throws 0 = false) {opening : Opening}
    (hnot : ¬ opening.Quiet throws) :
    Spoils Call.Leaks opening.run (.initial Call throws) := by
  cases opening with
  | attach charset =>
    exact (steady_attach hfirst charset).spoils _ rfl fun h ↦ hnot (quietFrom_add.1 h).2
  | attachOrCreate =>
    by_cases hquiet : QuietFrom throws 1 3
    · have hdpb := (steady_makeDpb hfirst "UTF8").returns _ rfl
        ((quietFrom_makeDpb_iff hfirst).2 hquiet)
      refine hdpb.bind_spoils fun dpb w hlater ↦ .bind ?_
      rcases hthrow : firstThrow throws 4 3 with _ | n
      · rw [Opening.Quiet, hthrow] at hnot
        exact absurd ⟨hquiet, trivial⟩ hnot
      · rw [Opening.Quiet, hthrow] at hnot
        have hpasses := guarded_tryAttach.passes w
        rw [hlater.throws, hlater.length] at hpasses
        refine (hpasses n hthrow).tryCatch_spoils fun w' hlater' ↦ ?_
        refine steady_createInstead.spoils w' trivial fun h ↦ hnot ⟨hquiet, ?_⟩
        rwa [hlater'.throws, hlater'.length, hlater.throws] at h
    · refine ((steady_makeDpb hfirst "UTF8").spoils _ rfl fun h ↦ hquiet ?_).bind
      exact (quietFrom_makeDpb_iff hfirst).1 h

/-- If the first method is quiet, there is an attachment. -/
theorem attached_of_quiet (hfirst : throws 0 = false) {opening : Opening}
    (hquiet : opening.Quiet throws) :
    ∃ att w, attached opening (.initial Call throws) = (.ok (some att), w) ∧
      (World.initial Call throws).Later Call.Leaks (opening.next throws) w := by
  obtain ⟨att, w, hrun, hlater⟩ := returns_opening hfirst hquiet
  exact ⟨att, w, tryCatch_ok (bind_ok hrun _) _, hlater⟩

theorem attached_of_not_quiet (hfirst : throws 0 = false) {opening : Opening}
    (hnot : ¬ opening.Quiet throws) :
    ∃ w, attached opening (.initial Call throws) = (.ok none, w) ∧ w.Spoilt Call.Leaks := by
  obtain ⟨w, hrun, hspoilt⟩ := spoils_opening hfirst hnot
  exact ⟨w, tryCatch_thrown (bind_thrown hrun _) _, hspoilt⟩

/-- A query ends with the exception of `prepare`, or as its other calls do. -/
theorem passes_query (att : ℕ) (q : Query) {w : World Call}
    (hthrows : w.throws w.calls.length = true) :
    Passes Call.Leaks (query (some att) q) w (w.calls.length + 1) := by
  have hcreate : Guarded Call.Leaks 1 (create (.plain .prepare)) := .create fun h ↦ h.2.1 rfl
  refine (hcreate.passes w w.calls.length ?_).bind
  rw [firstThrow_one, if_pos hthrows]

theorem returns_prepare {w : World Call} (hthrows : w.throws w.calls.length = false) :
    Returns Call.Leaks (create (.plain .prepare)) w (w.calls.length + 1) := by
  have hcreate : Guarded Call.Leaks 1 (create (.plain .prepare)) := .create fun h ↦ h.2.1 rfl
  refine hcreate.returns w ?_
  rw [firstThrow_one, hthrows]
  rfl

theorem returns_query (att : ℕ) (q : Query) {w : World Call}
    (hthrows : w.throws w.calls.length = false)
    (hquiet : QuietFrom w.throws (w.calls.length + 1) (fetchCalls q)) :
    Returns Call.Leaks (query (some att) q) w (w.calls.length + 1 + fetchCalls q) := by
  refine (returns_prepare hthrows).bind fun stmt w' hlater ↦ ?_
  have hreturns := (steady_fetchAll q stmt).returns w' trivial
  rw [hlater.throws, hlater.length] at hreturns
  exact hreturns hquiet

theorem spoils_query (att : ℕ) (q : Query) {w : World Call}
    (hthrows : w.throws w.calls.length = false)
    (hnot : ¬ QuietFrom w.throws (w.calls.length + 1) (fetchCalls q)) :
    Spoils Call.Leaks (query (some att) q) w := by
  refine (returns_prepare hthrows).bind_spoils fun stmt w' hlater ↦ ?_
  refine (steady_fetchAll q stmt).spoils w' trivial fun h ↦ hnot ?_
  rwa [hlater.throws, hlater.length] at h

/-- With an attachment, the queries come to their end. -/
theorem spoilt_queries_iff (att : ℕ) (queries : List Query) (w : World Call) :
    ∃ w', forEach queries (fun q ↦ tryCatch (query (some att) q) (pure ())) w = (.ok (), w') ∧
      (w'.Spoilt Call.Leaks ↔
        w.Spoilt Call.Leaks ∨ ¬ QueriesQuiet w.throws w.calls.length queries) := by
  induction queries generalizing w with
  | nil => exact ⟨w, rfl, (or_iff_left fun h ↦ h trivial).symm⟩
  | cons q queries ih =>
    rcases hthrows : w.throws w.calls.length with _ | _
    · by_cases hquiet : QuietFrom w.throws (w.calls.length + 1) (fetchCalls q)
      · obtain ⟨_, w', hrun, hlater⟩ := returns_query att q hthrows hquiet
        obtain ⟨w'', hrest, hspoilt⟩ := ih w'
        refine ⟨w'', (bind_ok (tryCatch_ok hrun _) _).trans hrest, ?_⟩
        rw [hspoilt, hlater.spoilt, hlater.throws, hlater.length, QueriesQuiet, hthrows,
          if_neg Bool.false_ne_true, and_iff_right hquiet]
      · obtain ⟨w', hrun, hspoilt'⟩ := spoils_query att q hthrows hquiet
        obtain ⟨w'', hrest, hspoilt⟩ := ih w'
        refine ⟨w'', (bind_ok (tryCatch_thrown hrun _) _).trans hrest, ?_⟩
        rw [QueriesQuiet, hthrows, if_neg Bool.false_ne_true]
        exact iff_of_true (hspoilt.2 (Or.inl hspoilt')) (Or.inr fun h ↦ hquiet h.1)
    · obtain ⟨w', hrun, hlater⟩ := passes_query att q hthrows
      obtain ⟨w'', hrest, hspoilt⟩ := ih w'
      refine ⟨w'', (bind_ok (tryCatch_thrown hrun _) _).trans hrest, ?_⟩
      rw [hspoilt, hlater.spoilt, hlater.throws, hlater.length, QueriesQuiet, if_pos hthrows]

/-- `detach` does not leak. -/
theorem spoilt_destroy_iff (att : Option ℕ) (w : World Call) :
    ∃ w', destroy att w = (.ok (), w') ∧ (w'.Spoilt Call.Leaks ↔ w.Spoilt Call.Leaks) := by
  rcases att with _ | att
  · exact ⟨w, rfl, Iff.rfl⟩
  · refine ⟨{ w with
      calls := w.calls ++ [(.plain .detach, w.throws w.calls.length)]
      ended := w.ended ++ [att] }, ?_, spoilt_append_iff fun _ h ↦ h.2.2 rfl⟩
    have hattempt : attempt (.plain .detach) w = (.ok (w.throws w.calls.length),
        { w with calls := w.calls ++ [(.plain .detach, w.throws w.calls.length)] }) := rfl
    generalize w.throws w.calls.length = error at hattempt
    -- without an error `detach` ends the attachment, and with one `release` does
    rcases error with _ | _
    · have hquietly : finishQuietly (.plain .detach) att w = (.ok false, _) := bind_ok hattempt _
      exact bind_ok hquietly _
    · have hquietly : finishQuietly (.plain .detach) att w = (.ok true, _) := bind_ok hattempt _
      exact bind_ok hquietly _

end Calls

/-! ### The life of a `Db`, from its calls -/

section Life

variable {opening : Opening} {queries : List Query} {throws : ℕ → Bool} {lost : Multiset ℕ}
  {w : World Call}

/-- If the end is reached with nothing owned, then it depends on the calls that leak. -/
theorem leavesNothing_iff_of_accounts
    (hlife : life opening queries (.initial Call throws) = (.ok (), w))
    (hw : Accounts Call.Leaks 0 lost w) :
    LeavesNothing opening queries throws ↔ ¬ w.Spoilt Call.Leaks := by
  rw [LeavesNothing, hlife, ← hw.endedOnce_iff]
  constructor
  · rintro ⟨w', hw', honce⟩
    obtain rfl := (Prod.mk.inj hw').2
    exact honce
  · exact fun honce ↦ ⟨w, rfl, honce⟩

/-- A query without an attachment is not defined. -/
theorem not_leavesNothing_of_undefined
    (hlife : life opening queries (.initial Call throws) = (.error .undefined, w)) :
    ¬ LeavesNothing opening queries throws := by
  rintro ⟨w', hw', -⟩
  rw [hlife] at hw'
  cases (Prod.mk.inj hw').1

/-- Without an attachment, there must be no query. -/
theorem leavesNothing_iff_of_none
    (hrun : attached opening (.initial Call throws) = (.ok none, w))
    (hw : Accounts Call.Leaks 0 lost w) :
    LeavesNothing opening queries throws ↔ queries = [] ∧ ¬ w.Spoilt Call.Leaks := by
  have hlife : life opening queries (.initial Call throws) = served queries none w :=
    bind_ok hrun _
  rcases queries with _ | ⟨q, queries⟩
  · rw [and_iff_right rfl]
    exact leavesNothing_iff_of_accounts hlife hw
  · exact iff_of_false (not_leavesNothing_of_undefined hlife) fun h ↦ by cases h.1

/-- With an attachment, no call of the queries that leaks may throw. -/
theorem leavesNothing_iff_of_some {att : ℕ}
    (hrun : attached opening (.initial Call throws) = (.ok (some att), w))
    (hw : Accounts Call.Leaks {att} 0 w) :
    LeavesNothing opening queries throws ↔
      QueriesQuiet w.throws w.calls.length queries := by
  obtain ⟨w', hqueries, hspoilt⟩ := spoilt_queries_iff att queries w
  obtain ⟨w'', hdestroy, hspoilt'⟩ := spoilt_destroy_iff (some att) w'
  have hserved : served queries (some att) w = (.ok (), w'') :=
    (bind_ok hqueries _).trans hdestroy
  have haccounts := triple_served queries att w hw
  rw [hserved] at haccounts
  obtain ⟨lost, hlost⟩ := haccounts
  rw [leavesNothing_iff_of_accounts ((bind_ok hrun _).trans hserved) hlost, hspoilt', hspoilt,
    ← hw.lost_iff, ne_self_iff_false, false_or, not_not]

/-- **`Db` leaves nothing behind** exactly if no call throws that is made while a method owns an
interface (those in the `try` block and the one of the destructor apart), and there is no query
without an attachment. -/
theorem leavesNothing_iff (opening : Opening) (queries : List Query) (throws : ℕ → Bool) :
    LeavesNothing opening queries throws ↔ Quiet opening queries throws := by
  rcases hfirst : throws 0 with _ | _
  · have hattached := triple_attached hfirst opening _ rfl
    rw [Quiet, hfirst, if_neg Bool.false_ne_true]
    by_cases hquiet : opening.Quiet throws
    · obtain ⟨att, w, hrun, hlater⟩ := attached_of_quiet hfirst hquiet
      rw [hrun] at hattached
      rw [leavesNothing_iff_of_some hrun hattached, hlater.throws, hlater.length,
        and_iff_right hquiet]
      rfl
    · obtain ⟨w, hrun, hspoilt⟩ := attached_of_not_quiet hfirst hquiet
      rw [hrun] at hattached
      obtain ⟨lost, hlost, hw⟩ := hattached
      rw [leavesNothing_iff_of_none hrun hw]
      exact iff_of_false (fun h ↦ h.2 hspoilt) fun h ↦ hquiet h.1
  · have hattached := triple_attached_throws hfirst opening _ rfl
    rw [Quiet, hfirst, if_pos rfl]
    rcases hrun : attached opening (.initial Call throws) with ⟨(_ | _) | att, w⟩
    · rw [hrun] at hattached
      exact hattached.elim
    · rw [hrun] at hattached
      exact hattached.elim
    · rw [hrun] at hattached
      obtain ⟨rfl, hw⟩ := hattached
      rw [leavesNothing_iff_of_none hrun hw, ← hw.lost_iff, not_not]
      exact and_iff_left rfl

/-- The engine refuses the attachment, and the builder of the parameter block is lost. -/
theorem not_leavesNothing_of_refused :
    ¬ LeavesNothing (.attach (some "UTF8")) [] (· == 6) := by
  rintro ⟨w, hw, honce⟩
  have hworld := congrArg Prod.snd hw
  have hcreated : (life (.attach (some "UTF8")) [] (.initial Call (· == 6))).2.created = 1 := by
    decide +kernel
  have hended : (life (.attach (some "UTF8")) [] (.initial Call (· == 6))).2.ended = [] := by
    decide +kernel
  rw [hworld] at hcreated hended
  have hzero := honce.1 0 (by rw [hcreated]; exact Nat.one_pos)
  rw [hended] at hzero
  cases hzero

end Life

end Db

end FirebirdSamples.Client
