import FirebirdSamples.Library.Processes
import Mathlib

/-!
# A crash while pages are written

`careful_writes.cpp` (for the C++ interface and for `fb-cpp`) starts a process that has the engine
in it, makes a table, commits a row, and inserts many rows that it does not commit. The main process
kills it at some time, waits for its end, and counts the rows of both kinds.

A row that is counted has been committed, however far the writer has come (`survived`). The signal
may miss the writer: if it could not be started, the result of `fork` is `-1`, and this is the
process id that the signal is sent to.
-/

namespace FirebirdSamples.Threads.CarefulWrites

open Processes Transition

/-- What the statements change. -/
inductive Change where
  /-- `create table cw (id int, tag varchar(30))`. -/
  | createTable
  /-- `insert into cw values (1, 'committed-marker')`. -/
  | insertMarker
  /-- The block with 500000 inserts. -/
  | insertBulk
  deriving DecidableEq

/-- The rows of the table, if there is one. -/
abbrev Table : Type :=
  Option (List (ℤ × String))

/-- The rows that the block inserts. -/
def bulk : List (ℤ × String) :=
  (List.range 500000).map fun i ↦ ((i : ℤ) + 1000, "uncommitted")

/-- `select count(*) from cw where tag = ...`. -/
def count (rows : List (ℤ × String)) (tag : String) : ℕ :=
  rows.countP (·.2 = tag)

/-- The engine, as far as the statements need it. -/
def engine : Engine Table Change (ℕ × ℕ) where
  apply
    | _, .createTable => some []
    | t, .insertMarker => t.map (· ++ [(1, "committed-marker")])
    | t, .insertBulk => t.map (· ++ bulk)
  valid
    | t, .createTable => t.isNone
    | t, .insertMarker => t.isSome
    | t, .insertBulk => t.isSome
  rows t := t.map fun rows ↦ (count rows "committed-marker", count rows "uncommitted")

/-- The processes. -/
inductive Role where
  | main
  /-- `--writer`. -/
  | writer
  deriving DecidableEq

instance : Fintype Role where
  elems := {.main, .writer}
  complete p := by rcases p with _ | _ <;> decide

/-- `writer(dbFile)`. The last call is `pause`. -/
def writer : List (Call Role Change) :=
  [.other, .start, .exec .createTable, .commit, .start, .exec .insertMarker, .commit, .start,
    .exec .insertBulk, .other]

/-- `main`, with both queries in one step. The polling in front of the signal has no other effect
than to let time pass. -/
def main : List (Call Role Change) :=
  [.spawn .writer, .kill .writer, .await, .other, .start, .print, .commit]

/-- What a process does. -/
def script : Role → List (Call Role Change)
  | .main => main
  | .writer => writer

section Runs

variable {T : Table} {w w' : World Role Table Change (ℕ × ℕ)} {p : Role}

/-! ### What is in the journal -/

/-- The writer commits the table and the marker at most, and the main process nothing. -/
theorem committed_of_reachable (h : Reachable (step engine script) (.start script .main T) w) :
    w.committed .main = [] ∧ w.committed .writer <+: [.createTable, .insertMarker] := by
  obtain ⟨out, hout⟩ := (Reaches.recorded h .main).exists_append
  obtain ⟨out', hout'⟩ := (Reaches.recorded h .writer).exists_append
  exact ⟨(List.append_eq_nil_iff.1 (List.mem_singleton.1 hout)).1, out', List.mem_singleton.1 hout'⟩

theorem store_eq (h : Reachable (step engine script) (.start script .main T) w) :
    w.store = (w.committed .writer).foldl engine.apply T := by
  have hwriter : ∀ entry ∈ w.journal, entry.1 = .writer := by
    rintro ⟨_ | _, c⟩ hentry
    · have hmem : c ∈ w.committed .main := World.mem_committed.2 hentry
      rw [(committed_of_reachable h).1] at hmem
      cases hmem
    · rfl
  have hcommitted : w.committed .writer = w.journal.map Prod.snd := by
    rw [World.committed, List.filter_eq_self.2 fun entry hentry ↦
      decide_eq_true (hwriter entry hentry)]
  rw [Reaches.store_eq h, hcommitted]

/-! ### Where the main process stands -/

/-- The main process is behind the wait, and the writer has ended. -/
structure Late (w : World Role Table Change (ℕ × ℕ)) : Prop where
  rest : ∀ c, w.procs .main = .running c → c.rest <:+ main.drop 3
  dead : (w.procs .writer).alive = false

/-- How the processes stand to each other: the main process is in front of the start of the writer,
of the signal or of the wait for its end, or the writer has ended. -/
inductive Stage (w : World Role Table Change (ℕ × ℕ)) : Prop
  | front (pending : List Change) : w.procs .main = .running ⟨main, pending⟩ →
    w.procs .writer = .absent → w.stray = false → Stage w
  | started (pending : List Change) : w.procs .main = .running ⟨main.drop 1, pending⟩ →
    w.stray = false → Stage w
  | signalled (pending : List Change) : w.procs .main = .running ⟨main.drop 2, pending⟩ →
    (w.stray = true ↔ w.procs .writer = .absent) → Stage w
  | ended : Late w → (w.stray = true ↔ w.procs .writer = .absent) → Stage w

/-- A step of the writer, which neither starts nor kills a process. -/
theorem Stage.of_writer_step {ok : Bool}
    (h : Reachable (step engine script) (.start script .main T) w)
    (hstep : step engine script w (.writer, ok) = some w') (hstage : Stage w) : Stage w' := by
  have hof := stepOf_of_step hstep
  obtain ⟨changes, hmoves, -, -⟩ := hof.moves
  have hcontrol : ∀ c, (w.procs .writer).next = some c → c.control = false := by
    intro c hc
    have hmem := Reaches.mem_of_next h hc
    simp only [script, writer, List.mem_cons, List.not_mem_nil, or_false] at hmem
    rcases hmem with rfl | rfl | rfl | rfl | rfl | rfl | rfl | rfl | rfl | rfl <;> rfl
  have hmain : w'.procs .main = w.procs .main := by
    rcases hof.others .main (by decide) with hsame | ⟨-, hspawn, -⟩ | ⟨-, hkill, -⟩
    · exact hsame
    · cases hcontrol _ hspawn
    · cases hcontrol _ hkill
  have hsame : w'.stray = w.stray := by
    refine Bool.eq_iff_iff.2 ((stray_of_step hstep).trans (or_iff_left ?_))
    rintro ⟨q, hkill, -⟩
    cases hcontrol _ hkill
  have hne := Proc.ne_absent_of_alive hmoves.alive
  rcases hstage with ⟨pending, -, habsent, -⟩ | ⟨pending, hproc, hno⟩ | ⟨pending, hproc, hiff⟩ |
    ⟨⟨-, hdead⟩, -⟩
  · exact absurd habsent hne
  · exact .started pending (hmain.trans hproc) (hsame.trans hno)
  · refine .signalled pending (hmain.trans hproc) ?_
    rw [hsame, hiff]
    exact iff_of_false hne hmoves.started.1
  · exact absurd hmoves.alive (by rw [hdead]; exact Bool.false_ne_true)

theorem Late.mem_of_next (hlate : Late w) {c : Call Role Change}
    (hc : (w.procs .main).next = some c) : c ∈ main.drop 3 := by
  rcases hproc : w.procs .main with _ | _ | ⟨_ | ⟨c', rest⟩, pending⟩ | _ | _ <;> rw [hproc] at hc
  case running.cons =>
    obtain rfl := Option.some.inj hc
    exact (hlate.rest _ hproc).subset List.mem_cons_self
  all_goals cases hc

/-- From then on the writer stays as it is, and no signal is sent. -/
theorem Late.of_main_step {ok : Bool}
    (h : Reachable (step engine script) (.start script .main T) w)
    (hstep : step engine script w (.main, ok) = some w') (hlate : Late w) :
    Late w' ∧ w'.procs .writer = w.procs .writer ∧ (w'.stray = true ↔ w.stray = true) := by
  have hof := stepOf_of_step hstep
  obtain ⟨changes, hmoves, -, -⟩ := hof.moves
  have hsame : w'.procs .writer = w.procs .writer := by
    rcases hof.others .writer (by decide) with hsame | ⟨-, hspawn, -⟩ | ⟨-, hkill, -⟩
    · exact hsame
    · have := hlate.mem_of_next hspawn
      simp [main] at this
    · have := hlate.mem_of_next hkill
      simp [main] at this
  refine ⟨⟨fun c hc ↦ ?_, by rw [hsame]; exact hlate.dead⟩, hsame,
    (stray_of_step hstep).trans (or_iff_left ?_)⟩
  · rw [hc] at hmoves
    rcases hproc : w.procs .main with _ | _ | c' | _ | _
    case forked => exact absurd hproc (Reaches.main_started h).2
    case running =>
      rw [hproc] at hmoves
      exact hmoves.rest_suffix.trans (hlate.rest c' hproc)
    all_goals
      rw [hproc] at hmoves
      cases hmoves
  · rintro ⟨q, hkill, -⟩
    have := hlate.mem_of_next hkill
    simp [main] at this

/-- A step of the main process. -/
theorem Stage.of_main_step {ok : Bool}
    (h : Reachable (step engine script) (.start script .main T) w)
    (hstep : step engine script w (.main, ok) = some w') (hstage : Stage w) : Stage w' := by
  have hof := stepOf_of_step hstep
  have hstray := stray_of_step hstep
  obtain ⟨changes, hmoves, -, -⟩ := hof.moves
  have hwriter := hof.others .writer (by decide)
  generalize hproc' : w'.procs .main = proc' at hmoves
  rcases hstage with ⟨pending, hproc, habsent, hno⟩ | ⟨pending, hproc, hno⟩ |
    ⟨pending, hproc, hiff⟩ | ⟨hlate, hiff⟩
  · rw [hproc] at hmoves hstray
    have hsame : w'.stray = false := by
      rw [← Bool.not_eq_true, hstray, hno]
      rintro (h | ⟨q, h, -⟩) <;> cases h
    rcases hmoves with _ | _ | _ | ⟨_, hc⟩ | _
    case fail => cases hc
    case spawn => exact .started pending hproc' hsame
  · rw [hproc] at hmoves hwriter hstray
    have hiff : w'.stray = true ↔ w'.procs .writer = .absent := by
      have habsent : w'.procs .writer = .absent ↔ w.procs .writer = .absent := by
        rcases hwriter with hsame | ⟨-, hspawn, -⟩ | ⟨halive, -, hkilled⟩
        · rw [hsame]
        · cases hspawn
        · rw [hkilled]
          exact iff_of_false nofun (Proc.ne_absent_of_alive halive)
      rw [hstray, habsent, hno]
      constructor
      · rintro (h | ⟨q, h, hq⟩)
        · cases h
        · cases h
          exact hq
      · exact fun hq ↦ Or.inr ⟨.writer, rfl, hq⟩
    rcases hmoves with _ | _ | _ | ⟨_, hc⟩ | _
    case fail => cases hc
    case kill => exact .signalled pending hproc' hiff
  · have hdead := hof.awaits (by rw [hproc]; rfl) .writer (by decide)
    rw [hproc] at hmoves hwriter hstray
    have hsame : w'.procs .writer = w.procs .writer := by
      rcases hwriter with hsame | ⟨-, hspawn, -⟩ | ⟨-, hkill, -⟩
      · exact hsame
      · cases hspawn
      · cases hkill
    have hiff' : w'.stray = true ↔ w'.procs .writer = .absent := by
      rw [hstray, hsame, hiff]
      refine or_iff_left ?_
      rintro ⟨q, h, -⟩
      cases h
    refine .ended ⟨fun c hc ↦ ?_, by rw [hsame]; exact hdead⟩ hiff'
    rw [hproc'] at hc
    rcases hmoves with _ | _ | _ | ⟨_, hc⟩ | _
    case fail => cases hc
    case await =>
      cases hc
      exact List.suffix_rfl
  · obtain ⟨hlate', hsame, hstray'⟩ := hlate.of_main_step h hstep
    exact .ended hlate' (by rw [hstray', hsame, hiff])

theorem stage (h : Reachable (step engine script) (.start script .main T) w) : Stage w := by
  induction h with
  | refl => exact .front [] World.start_procs_self (World.start_procs_of_ne (by decide)) rfl
  | @tail w w' a h _ hstep ih =>
    obtain ⟨_ | _, ok⟩ := a
    · exact ih.of_main_step h hstep
    · exact ih.of_writer_step h hstep

/-! ### What is counted -/

theorem behind_print {u rest : List (Call Role Change)} (h : main = u ++ .print :: rest) :
    rest = [.commit] := by
  simp only [main, List.cons_eq_append_iff, List.nil_eq_append_iff] at h
  simp at h
  grind

/-- A step behind the wait: the rows stay as they are. -/
theorem Late.store_eq {ok : Bool} (h : Reachable (step engine script) (.start script .main T) w)
    (hstep : step engine script w (p, ok) = some w') (hlate : Late w) :
    Late w' ∧ w'.store = w.store := by
  obtain ⟨changes, hmoves, hstore, hjournal⟩ := (stepOf_of_step hstep).moves
  rcases p with _ | _
  case writer => exact absurd hmoves.alive (by rw [hlate.dead]; exact Bool.false_ne_true)
  case main =>
    have hcommitted := committed_of_journal hjournal .main
    rw [(committed_of_reachable (h.tail trivial hstep)).1, if_pos rfl] at hcommitted
    rw [hstore, (List.append_eq_nil_iff.1 hcommitted.symm).2]
    exact ⟨(hlate.of_main_step h hstep).1, rfl⟩

/-- The rows are counted when the writer has ended, and stay as they are. -/
theorem rows_of_printed (h : Reachable (step engine script) (.start script .main T) w) :
    ∀ counts ∈ w.printed, engine.rows w.store = some counts ∧ Late w := by
  refine Reaches.rows_of_printed h ?_ Late.store_eq
  intro w w' p ok rest pending h hstep hproc
  have hmem : .print ∈ script p := Reaches.mem_of_next h (by rw [hproc]; rfl)
  rcases p with _ | _
  case writer => simp [script, writer] at hmem
  have hlate : Late w := by
    rcases stage h with ⟨_, hmain, -, -⟩ | ⟨_, hmain, -⟩ | ⟨_, hmain, -⟩ | ⟨hlate, -⟩
    case ended => exact hlate
    all_goals
      rw [hproc] at hmain
      cases hmain
  obtain ⟨u, hu⟩ := Reaches.suffix h .main _ hproc
  have hrec := Reaches.recorded h .main
  rw [hproc, behind_print hu.symm] at hrec
  exact ⟨hrec.pending_eq_nil rfl, hlate.store_eq h hstep⟩

/-- What holds of the writer, the signal and the counts. -/
structure Survived (T : Table) (w : World Role Table Change (ℕ × ℕ)) : Prop where
  /-- The writer does not commit what the block has inserted. -/
  committed : w.committed .writer <+: [.createTable, .insertMarker]
  /-- What is counted has been committed, and the writer has ended. -/
  counted : ∀ counts ∈ w.printed, (w.procs .writer).alive = false ∧
    ∃ rows, (w.committed .writer).foldl engine.apply T = some rows ∧
      counts = (count rows "committed-marker", count rows "uncommitted")
  /-- On a new file, there is one row if the writer has got there. -/
  fresh : T = none → ∀ counts ∈ w.printed,
    counts = (if .insertMarker ∈ w.committed .writer then 1 else 0, 0)
  /-- Behind the signal: it has missed the writer exactly if this could not be started. -/
  signal : (∀ c, w.procs .main = .running c → c.rest.length < 6) →
    (w.stray = true ↔ w.procs .writer = .absent)

end Runs

/-- A run in which the writer is killed in the middle of the block. -/
def killedInBlock : List (Role × Bool) :=
  let writer := (.writer, true)
  let main := (.main, true)
  [main, writer, writer, writer, writer, writer, writer, writer, writer, writer, main, main, main,
    main, main]

end FirebirdSamples.Threads.CarefulWrites
