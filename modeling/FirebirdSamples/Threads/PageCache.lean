import Mathlib.Data.List.Sort
import FirebirdSamples.Library.Processes

/-!
# No update is lost

`page_cache.cpp` (for the C++ interface and for `fb-cpp`) lets two client processes update one table
at the same time, each its own row, and looks afterwards whether all updates are there. The main
process starts a process that makes the table, then the two workers, then one that prints the rows,
and waits for all processes in between. A process may end at any time with an error, or not be
started at all.

So each printed value is the one that the row had in front of the workers, and one more for each
round that its worker has committed (`consistent`). If the table is new, then it is the number of
these rounds, and the expected one if the worker got through all of them.
-/

namespace FirebirdSamples.Threads.PageCache

open Processes Transition

/-- What the statements change. -/
inductive Change where
  /-- `drop table t`. -/
  | dropTable
  /-- `create table t (id int primary key, v int)`. -/
  | createTable
  /-- `insert into t values (id, v)`. -/
  | insert (id v : ℤ)
  /-- `update t set v = v + 1 where id = ...`. -/
  | increment (id : ℤ)
  deriving DecidableEq

/-- The rows of the table, if there is one. -/
abbrev Table : Type :=
  Option (List (ℤ × ℤ))

/-- The rows in the order of their ids. -/
def byId (rows : List (ℤ × ℤ)) : List (ℤ × ℤ) :=
  rows.insertionSort fun a b ↦ a.1 ≤ b.1

/-- The engine, as far as the statements need it. -/
def engine : Engine Table Change (List (ℤ × ℤ)) where
  apply
    | _, .dropTable => none
    | _, .createTable => some []
    | t, .insert id v => t.map (· ++ [(id, v)])
    | t, .increment id => t.map (·.map fun row ↦ if row.1 = id then (id, row.2 + 1) else row)
  valid
    | t, .dropTable => t.isSome
    | t, .createTable => t.isNone
    | t, .insert id _ => t.any fun rows ↦ id ∉ rows.map Prod.fst
    | t, .increment _ => t.isSome
  -- `select id, v from t order by id`
  rows t := t.map byId

/-- The processes. -/
inductive Role where
  | main
  /-- `--init`. -/
  | init
  /-- `--worker` with row 1. -/
  | worker1
  /-- `--worker` with row 2. -/
  | worker2
  /-- `--check`. -/
  | check
  deriving DecidableEq

instance : Fintype Role where
  elems := {.main, .init, .worker1, .worker2, .check}
  complete p := by rcases p with _ | _ | _ | _ | _ <;> decide

/-- `ROUNDS`. -/
def rounds : ℕ :=
  300

/-- `initDb(conn)`. -/
def initDb : List (Call Role Change) :=
  [.other, .start, .tolerated .dropTable, .commit, .start, .exec .createTable, .commit, .start,
    .exec (.insert 1 0), .exec (.insert 2 0), .commit]

/-- A round of a worker. -/
def round (rowId : ℤ) : List (Call Role Change) :=
  [.start, .exec (.increment rowId), .commit]

/-- `worker(conn, rowId)`. -/
def worker (rowId : ℤ) : List (Call Role Change) :=
  .other :: ((List.replicate rounds (round rowId)).flatten ++ [.start, .other, .commit])

/-- `check(conn)`. -/
def check : List (Call Role Change) :=
  [.other, .start, .print, .commit]

/-- A phase of `main`. -/
def phase : List (Call Role Change) :=
  [.spawn .init, .await, .spawn .worker1, .spawn .worker2, .await, .spawn .check, .await]

/-- What a process does. -/
def script : Role → List (Call Role Change)
  | .main => phase
  | .init => initDb
  | .worker1 => worker 1
  | .worker2 => worker 2
  | .check => check

/-! ### The scripts -/

section Scripts

variable {pending : List Change}

theorem outcomes_rounds (rowId : ℤ) (n : ℕ) (rest : List (Call Role Change)) :
    outcomes pending ((List.replicate n (round rowId)).flatten ++ .start :: rest) =
      (outcomes [] rest).map (List.replicate n (.increment rowId) ++ ·) := by
  induction n generalizing pending with
  | zero => exact (List.map_id _).symm
  | succ n ih =>
    rw [List.replicate_succ, List.flatten_cons, List.append_assoc]
    show (outcomes [] ((List.replicate n (round rowId)).flatten ++ .start :: rest)).map
      ([.increment rowId] ++ ·) = _
    rw [ih, List.map_map]
    rfl

/-- A worker that gets through has committed all its rounds, and nothing else. -/
theorem outcomes_worker (rowId : ℤ) :
    outcomes [] (worker rowId) = [List.replicate rounds (.increment rowId)] := by
  show outcomes [] ((List.replicate rounds (round rowId)).flatten ++ _) = _
  rw [outcomes_rounds]
  show [_ ++ ([] : List Change)] = _
  rw [List.append_nil]

theorem worker_calls {rowId : ℤ} {c : Call Role Change} (hc : c ∈ worker rowId) :
    c = .other ∨ c = .start ∨ c = .exec (.increment rowId) ∨ c = .commit := by
  rw [worker, List.mem_cons, List.mem_append, List.mem_flatten] at hc
  rcases hc with rfl | ⟨l, hl, hc⟩ | hc
  · exact Or.inl rfl
  · rw [List.eq_of_mem_replicate hl, round] at hc
    simp only [List.mem_cons, List.not_mem_nil, or_false] at hc
    exact Or.inr hc
  · simp only [List.mem_cons, List.not_mem_nil, or_false] at hc
    rcases hc with rfl | rfl | rfl <;> simp

/-- The other processes start, await and kill none. -/
theorem control_eq_false {p : Role} (hp : p ≠ .main) : ∀ c ∈ script p, c.control = false := by
  have hworker : ∀ rowId, ∀ c ∈ worker rowId, c.control = false := by
    intro rowId c hc
    rcases worker_calls hc with rfl | rfl | rfl | rfl <;> rfl
  rcases p with _ | _ | _ | _ | _
  · exact absurd rfl hp
  · simp [script, initDb, Call.control]
  · exact hworker 1
  · exact hworker 2
  · simp [script, check, Call.control]

/-- Only `check` prints rows. -/
theorem eq_check {p : Role} (h : .print ∈ script p) : p = .check := by
  have hworker : ∀ rowId, .print ∉ worker rowId := by
    intro rowId hc
    rcases worker_calls hc with h | h | h | h <;> cases h
  rcases p with _ | _ | _ | _ | _
  · simp [script, phase] at h
  · simp [script, initDb] at h
  · exact absurd h (hworker 1)
  · exact absurd h (hworker 2)
  · rfl

theorem behind_print {u rest : List (Call Role Change)} (h : check = u ++ .print :: rest) :
    rest = [.commit] := by
  simp only [check, List.cons_eq_append_iff, List.nil_eq_append_iff] at h
  simp at h
  grind

theorem leads : Leads script .main where
  spawn p hp q h := absurd (control_eq_false hp _ h) nofun
  await p hp h := absurd (control_eq_false hp _ h) nofun
  kill p hp q h := absurd (control_eq_false hp _ h) nofun
  once := by decide
  notMain := by decide
  notSelf := by simp [script, phase]

end Scripts

/-! ### Where the main process stands -/

/-- Behind a process that is started, the rest of the phase. -/
def behind : Role → List (Call Role Change)
  | .main => []
  | .init => phase.drop 1
  | .worker1 => phase.drop 3
  | .worker2 => phase.drop 4
  | .check => phase.drop 6

theorem eq_behind {p : Role} {u t : List (Call Role Change)} (h : phase = u ++ .spawn p :: t) :
    t = behind p := by
  rcases p with _ | _ | _ | _ | _ <;>
    simp only [phase, List.cons_eq_append_iff, List.nil_eq_append_iff] at h <;>
    simp [behind, phase] at h ⊢ <;> grind

/-- The least length of what is left of the phase while a process is alive. -/
def least : Role → ℕ
  | .main => 0
  | .init => 6
  | .worker1 | .worker2 => 3
  | .check => 1

section Phase

variable {T : Table} {w : World Role Table Change (List (ℤ × ℤ))} {p q : Role}
  {rest : List (Call Role Change)}

theorem exists_mainAt (h : Reachable (step engine script) (.start script .main T) w) :
    ∃ rest, MainAt w .main rest :=
  Reaches.mainAt h leads (by simp [script, phase, Call.control])

/-- The main process has not gone further than to the `await` behind a process that is alive. -/
theorem length_of_started (h : Reachable (step engine script) (.start script .main T) w)
    (hmain : MainAt w .main rest) (hp : p ≠ .main) (hne : w.procs p ≠ .absent) :
    rest.length ≤ (behind p).length ∧ ((w.procs p).alive = true → least p ≤ rest.length) := by
  obtain ⟨u, v, hscript, hawait⟩ := Reaches.spawned h leads.spawn rest hmain p hp hne
  have hbehind := eq_behind hscript
  have hlength := congrArg List.length hbehind
  rw [List.length_append] at hlength
  refine ⟨by omega, fun halive ↦ ?_⟩
  have hmem := hawait halive
  rcases p with _ | _ | _ | _ | _ <;> rcases v with _ | ⟨a, _ | ⟨b, v⟩⟩ <;>
    simp_all [behind, phase, least]

/-- The processes of an earlier part of the phase have ended. -/
theorem dead_of_started (h : Reachable (step engine script) (.start script .main T) w)
    (hp : p ≠ .main) (hq : q ≠ .main) (hne : w.procs q ≠ .absent)
    (hlt : (behind q).length < least p) : (w.procs p).alive = false := by
  obtain ⟨rest, hmain⟩ := exists_mainAt h
  have hq := (length_of_started h hmain hq hne).1
  refine Bool.eq_false_iff.2 fun halive ↦ ?_
  have hp := (length_of_started h hmain hp (Proc.ne_absent_of_alive halive)).2 halive
  omega

/-! ### What is in the journal -/

theorem exists_append (h : Reachable (step engine script) (.start script .main T) w) (p : Role) :
    ∃ out, w.committed p ++ out ∈ outcomes [] (script p) :=
  (Reaches.recorded h p).exists_append

/-- Main and `check` commit nothing. -/
theorem committed_eq_nil (h : Reachable (step engine script) (.start script .main T) w)
    (hp : p = .main ∨ p = .check) : w.committed p = [] := by
  obtain ⟨out, hout⟩ := exists_append h p
  have hnil : outcomes [] (script p) = [[]] := by rcases hp with rfl | rfl <;> rfl
  rw [hnil] at hout
  exact (List.append_eq_nil_iff.1 (List.mem_singleton.1 hout)).1

theorem changes_eq_nil (h : Reachable (step engine script) (.start script .main T) w)
    {changes : List Change} {journal : List (Role × Change)} (hp : p = .main ∨ p = .check)
    (hjournal : w.journal = journal ++ changes.map (p, ·)) : changes = [] := by
  refine List.eq_nil_iff_forall_not_mem.2 fun c hc ↦ ?_
  have hmem : c ∈ w.committed p := by
    rw [World.mem_committed, hjournal]
    exact List.mem_append_right _ (List.mem_map_of_mem hc)
  rw [committed_eq_nil h hp] at hmem
  cases hmem

/-- A worker commits rounds, up to all of them. -/
theorem committed_worker (h : Reachable (step engine script) (.start script .main T) w) {rowId : ℤ}
    (hp : script p = worker rowId) :
    w.committed p = List.replicate (w.committed p).length (.increment rowId) ∧
      (w.committed p).length ≤ rounds ∧
      (w.procs p = .exited 0 → (w.committed p).length = rounds) := by
  obtain ⟨out, hout⟩ := exists_append h p
  rw [hp, outcomes_worker, List.mem_singleton] at hout
  refine ⟨List.eq_replicate_iff.2 ⟨rfl, fun c hc ↦ ?_⟩, ?_, fun hexit ↦ ?_⟩
  · exact List.eq_of_mem_replicate (hout ▸ List.mem_append_left out hc)
  · have hlength := congrArg List.length hout
    rw [List.length_append, List.length_replicate] at hlength
    omega
  · have hrec := Reaches.recorded h p
    rw [hexit, hp] at hrec
    have hmem : w.committed p ∈ outcomes [] (worker rowId) := hrec
    rw [outcomes_worker, List.mem_singleton] at hmem
    rw [hmem, List.length_replicate]

/-- **The order of the journal**: the changes of the first process, and then those of the
workers. -/
theorem exists_journal (h : Reachable (step engine script) (.start script .main T) w) :
    ∃ before behind, w.journal = before ++ behind ∧ (∀ entry ∈ before, entry.1 = .init) ∧
      ∀ entry ∈ behind, entry.1 = .worker1 ∨ entry.1 = .worker2 := by
  induction h with
  | refl => exact ⟨[], [], rfl, nofun, nofun⟩
  | @tail w w' a h hmeets hstep ih =>
    obtain ⟨p, ok⟩ := a
    obtain ⟨before, behind, hjournal, hbefore, hbehind⟩ := ih
    obtain ⟨changes, hmoves, -, hjournal'⟩ := (stepOf_of_step hstep).moves
    have halive := hmoves.alive
    have hmem : ∀ entry ∈ changes.map (p, ·), entry.1 = p := by
      intro entry hentry
      obtain ⟨c, -, rfl⟩ := List.mem_map.1 hentry
      rfl
    have hlater : p = .init → behind = [] := by
      rintro rfl
      refine List.eq_nil_iff_forall_not_mem.2 fun entry hentry ↦ ?_
      have hmem : entry.2 ∈ w.committed entry.1 := by
        rw [World.mem_committed, hjournal]
        exact List.mem_append_right _ hentry
      have hne : w.procs entry.1 ≠ .absent := by
        intro habsent
        have hrec := Reaches.recorded h entry.1
        rw [habsent] at hrec
        rw [show w.committed entry.1 = [] from hrec] at hmem
        cases hmem
      have hdead : (w.procs .init).alive = false := by
        rcases hbehind entry hentry with heq | heq <;> rw [heq] at hne
        · exact dead_of_started (q := .worker1) h nofun nofun hne (by decide)
        · exact dead_of_started (q := .worker2) h nofun nofun hne (by decide)
      rw [hdead] at halive
      cases halive
    have hquiet := fun hp ↦ changes_eq_nil (h.tail hmeets hstep) hp hjournal'
    rw [hjournal', hjournal]
    rcases p with _ | _ | _ | _ | _
    case init =>
      rw [hlater rfl, List.append_nil]
      exact ⟨_, [], (List.append_nil _).symm,
        fun entry hentry ↦ (List.mem_append.1 hentry).elim (hbefore entry) (hmem entry), nofun⟩
    case main | check =>
      rw [hquiet (by simp), List.map_nil, List.append_nil]
      exact ⟨before, behind, rfl, hbefore, hbehind⟩
    case worker1 =>
      exact ⟨before, _, List.append_assoc _ _ _, hbefore, fun entry hentry ↦
        (List.mem_append.1 hentry).elim (hbehind entry) fun hentry ↦ Or.inl (hmem entry hentry)⟩
    case worker2 =>
      exact ⟨before, _, List.append_assoc _ _ _, hbefore, fun entry hentry ↦
        (List.mem_append.1 hentry).elim (hbehind entry) fun hentry ↦ Or.inr (hmem entry hentry)⟩

end Phase

/-! ### The values -/

/-- The rounds that the worker of a row has committed. -/
def updates (w : World Role Table Change (List (ℤ × ℤ))) (id : ℤ) : ℕ :=
  if id = 1 then (w.committed .worker1).length
  else if id = 2 then (w.committed .worker2).length
  else 0

/-- The rows, with something added to their values. -/
def raise (n : ℤ → ℕ) (rows : List (ℤ × ℤ)) : List (ℤ × ℤ) :=
  rows.map fun row ↦ (row.1, row.2 + n row.1)

/-- Updates add up, in any order. -/
theorem foldl_increments {changes : List Change} (hchanges : ∀ c ∈ changes, ∃ id, c = .increment id)
    (t : Table) : changes.foldl engine.apply t =
      t.map (raise fun id ↦ changes.count (.increment id)) := by
  induction changes generalizing t with
  | nil =>
    rcases t with _ | rows
    · rfl
    · simp [raise]
  | cons c changes ih =>
    obtain ⟨id, rfl⟩ := hchanges c List.mem_cons_self
    rw [List.foldl_cons, ih fun c hc ↦ hchanges c (List.mem_cons_of_mem _ hc)]
    rcases t with _ | rows
    · rfl
    · show some (raise _ (rows.map _)) = some (raise _ rows)
      rw [raise, List.map_map, raise]
      refine congrArg some (List.map_congr_left fun row _ ↦ ?_)
      rw [Function.comp_apply, List.count_cons]
      by_cases hid : row.1 = id
      · subst hid
        rw [if_pos rfl, beq_self_eq_true, if_pos rfl]
        refine Prod.ext rfl ?_
        show row.2 + 1 + _ = row.2 + ((_ + 1 : ℕ) : ℤ)
        push_cast
        omega
      · have hne : (Change.increment id == .increment row.1) = false := by simpa using Ne.symm hid
        rw [if_neg hid, hne, if_neg Bool.false_ne_true]
        rfl

section Values

variable {T : Table} {w w' : World Role Table Change (List (ℤ × ℤ))} {p : Role}

/-- The journal, split by processes. -/
theorem store_eq (h : Reachable (step engine script) (.start script .main T) w) :
    w.store = ((w.committed .init).foldl engine.apply T).map (raise (updates w)) := by
  obtain ⟨before, behind, hjournal, hbefore, hbehind⟩ := exists_journal h
  have hcommitted : ∀ p, w.committed p =
      (before.filter (·.1 = p)).map Prod.snd ++ (behind.filter (·.1 = p)).map Prod.snd := by
    intro p
    rw [World.committed, hjournal, List.filter_append, List.map_append]
  have hinit : w.committed .init = before.map Prod.snd := by
    rw [hcommitted, List.filter_eq_self.2 fun entry hentry ↦ decide_eq_true (hbefore entry hentry),
      List.filter_eq_nil_iff.2, List.map_nil, List.append_nil]
    intro entry hentry
    rcases hbehind entry hentry with heq | heq <;> simp [heq]
  have hworker : ∀ p ≠ .init, w.committed p = (behind.filter (·.1 = p)).map Prod.snd := by
    intro p hp
    rw [hcommitted, List.filter_eq_nil_iff.2, List.map_nil, List.nil_append]
    intro entry hentry
    simp [hbefore entry hentry, hp.symm]
  have h1 := (committed_worker h (p := .worker1) rfl).1
  have h2 := (committed_worker h (p := .worker2) rfl).1
  -- the changes of the workers, whatever their order
  have hperm : (behind.map Prod.snd).Perm (w.committed .worker1 ++ w.committed .worker2) := by
    rw [hworker .worker1 (by decide), hworker .worker2 (by decide), ← List.map_append]
    refine ((List.filter_append_perm (·.1 = .worker1) behind).symm.trans ?_).map _
    refine .of_eq (congrArg _ (List.filter_congr fun entry hentry ↦ ?_))
    rcases hbehind entry hentry with heq | heq <;> simp [heq]
  rw [Reaches.store_eq h, hjournal, List.map_append, List.foldl_append, ← hinit, foldl_increments]
  · congr 2
    funext id
    rw [hperm.count_eq, List.count_append, h1, h2, updates]
    simp only [List.count_replicate]
    split_ifs <;> simp_all
  · intro c hc
    rcases List.mem_append.1 (hperm.mem_iff.1 hc) with hc | hc
    · exact ⟨1, List.eq_of_mem_replicate (h1 ▸ hc)⟩
    · exact ⟨2, List.eq_of_mem_replicate (h2 ▸ hc)⟩

/-! ### What is printed -/

/-- A step behind the start of `check`: the table stays as it is. -/
theorem store_eq_of_check {ok : Bool}
    (h : Reachable (step engine script) (.start script .main T) w)
    (hstep : step engine script w (p, ok) = some w') (hne : w.procs .check ≠ .absent) :
    w'.procs .check ≠ .absent ∧ w'.store = w.store := by
  have hof := stepOf_of_step hstep
  obtain ⟨changes, hmoves, hstore, hjournal⟩ := hof.moves
  have hdead : ∀ q, (behind .check).length < least q → q ≠ .main → (w.procs q).alive = false :=
    fun q hlt hq ↦ dead_of_started (q := .check) h hq nofun hne hlt
  have hp : p = .main ∨ p = .check := by
    rcases p with _ | _ | _ | _ | _
    case main => exact Or.inl rfl
    case check => exact Or.inr rfl
    case init => exact absurd hmoves.alive (by rw [hdead .init (by decide) nofun]; exact nofun)
    case worker1 =>
      exact absurd hmoves.alive (by rw [hdead .worker1 (by decide) nofun]; exact nofun)
    case worker2 =>
      exact absurd hmoves.alive (by rw [hdead .worker2 (by decide) nofun]; exact nofun)
  rw [hstore, changes_eq_nil (h.tail trivial hstep) hp hjournal]
  refine ⟨?_, rfl⟩
  by_cases hcheck : .check = p
  · subst hcheck
    exact hmoves.started.1
  · exact (hof.others .check hcheck).ne_absent hne

/-- What `check` prints is what the table holds from then on. -/
theorem rows_of_printed (h : Reachable (step engine script) (.start script .main T) w) :
    ∀ table ∈ w.printed, engine.rows w.store = some table ∧ w.procs .check ≠ .absent := by
  refine Reaches.rows_of_printed h ?_ store_eq_of_check
  intro w w' p ok rest pending h hstep hproc
  obtain rfl : p = .check := eq_check (Reaches.mem_of_next h (by rw [hproc]; rfl))
  obtain ⟨u, hu⟩ := Reaches.suffix h .check _ hproc
  have hrec := Reaches.recorded h .check
  rw [hproc, behind_print hu.symm] at hrec
  exact ⟨hrec.pending_eq_nil rfl, store_eq_of_check h hstep (by rw [hproc]; exact nofun)⟩

/-- What holds of the processes, the journal and the printed rows. -/
structure Consistent (T : Table) (w : World Role Table Change (List (ℤ × ℤ))) : Prop where
  /-- Only the workers are at work at the same time. -/
  alone : ∀ p q, p ≠ .main → q ≠ .main → p ≠ q → (w.procs p).alive = true →
    (w.procs q).alive = true → p ∈ [.worker1, .worker2] ∧ q ∈ [.worker1, .worker2]
  /-- A worker commits its rounds, up to all of them, and nothing else. -/
  workers : ∀ p rowId, (p, rowId) ∈ [(.worker1, 1), (.worker2, 2)] →
    w.committed p = List.replicate (w.committed p).length (.increment rowId) ∧
      (w.committed p).length ≤ rounds ∧
      (w.procs p = .exited 0 → (w.committed p).length = rounds)
  /-- The printed values are those in front of the workers, and what these have committed. -/
  printed : ∀ table ∈ w.printed, ∃ rows,
    (w.committed .init).foldl engine.apply T = some rows ∧ table = byId (raise (updates w) rows)
  /-- If the table has been made, these are the numbers of rounds. -/
  made : w.procs .init = .exited 0 → ∀ table ∈ w.printed,
    table = [(1, ((w.committed .worker1).length : ℤ)), (2, ((w.committed .worker2).length : ℤ))]
  /-- There is no deadlock. -/
  live : ∀ p, (w.procs p).alive = true → ∃ a, (step engine script w a).isSome = true

end Values

/-- A run in which both workers fail in their second round. -/
def secondRoundFails : List (Role × Bool) :=
  let init := (.init, true)
  [(.main, true), init, init, init, (.init, false), init, init, init, init, init, init, init, init,
    init, (.main, true), (.main, true), (.main, true),
    (.worker1, true), (.worker2, true), (.worker1, true), (.worker2, true), (.worker1, true),
    (.worker1, true), (.worker2, true), (.worker2, true), (.worker1, true), (.worker2, true),
    (.worker1, true), (.worker1, false), (.worker2, false),
    (.main, true), (.main, true), (.check, true), (.check, true), (.check, true), (.check, true)]

end FirebirdSamples.Threads.PageCache
