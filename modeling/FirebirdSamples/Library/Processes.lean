import Mathlib.Data.Fintype.Basic
import Mathlib.Logic.Function.Basic
import FirebirdSamples.Library.Transition

/-!
# Processes that share a store

Processes make calls to a transactional store, one after the other, and may start other processes,
wait for them and kill them. A call may fail at any time, which throws the process out unless the
failure is tolerated, and the processes take turns in any order. What a process changes is seen by
the others when it commits.

The journal says who has committed what, in order, and the store is what the journal makes of it
(`Reaches.store_eq`). If a script is run to its end, then one of the outcomes that can be read off
the script is in the journal (`outcomes`); if it is cut short, by a failure or by a signal, then a
first part of one is (`Reaches.recorded`). This holds for any number of processes and any order of
their calls.
-/

namespace Processes

open Transition

variable {ι σ χ ρ : Type}

/-- A call of a process. -/
inductive Call (ι χ : Type) where
  /-- A call that changes nothing. -/
  | other
  /-- A transaction is started. -/
  | start
  /-- A statement that makes a change. -/
  | exec (c : χ)
  /-- Such a statement in a `try` block of its own, with an empty handler. -/
  | tolerated (c : χ)
  | commit
  /-- A query whose rows are printed. -/
  | print
  /-- Another process is started. If this fails, the caller goes on. -/
  | spawn (p : ι)
  /-- Wait until no other process is alive. -/
  | await
  /-- Send another process the signal that it cannot handle. -/
  | kill (p : ι)

/-- A call that concerns another process. It does not fail. -/
def Call.control : Call ι χ → Bool
  | .spawn _ | .await | .kill _ => true
  | _ => false

/-- A process that is running: the calls that are left, and the changes of its transaction. -/
structure Client (ι χ : Type) where
  rest : List (Call ι χ)
  pending : List χ

/-- How a process stands. -/
inductive Proc (ι χ : Type) where
  | absent
  /-- Started, but not in its program yet. -/
  | forked
  | running (c : Client ι χ)
  | exited (code : ℕ)
  | killed

/-- It has started and not ended. -/
def Proc.alive : Proc ι χ → Bool
  | .forked => true
  | .running _ => true
  | _ => false

theorem Proc.ne_absent_of_alive {proc : Proc ι χ} (h : proc.alive = true) : proc ≠ .absent := by
  rintro rfl
  cases h

/-- What a store is to its clients. -/
structure Engine (σ χ ρ : Type) where
  /-- What a change makes of the store when it is committed. -/
  apply : σ → χ → σ
  /-- The statement can be executed. -/
  valid : σ → χ → Bool
  /-- The rows of the query, if it can be executed. -/
  rows : σ → Option ρ

/-- The processes and the store. -/
structure World (ι σ χ ρ : Type) where
  procs : ι → Proc ι χ
  store : σ
  /-- What has been committed, by whom. -/
  journal : List (ι × χ)
  printed : List ρ
  /-- A signal has been sent to a process that was not started. -/
  stray : Bool

/-! ### Steps -/

section Steps

variable [DecidableEq ι]

/-- A process moves on. -/
def World.set (w : World ι σ χ ρ) (p : ι) (proc : Proc ι χ) : World ι σ χ ρ :=
  { w with procs := Function.update w.procs p proc }

section Set

variable (w : World ι σ χ ρ) (p : ι) (proc : Proc ι χ)

@[simp] theorem World.set_procs_self : (w.set p proc).procs p = proc :=
  Function.update_self _ _ _

@[simp] theorem World.set_procs_of_ne {q : ι} (hq : q ≠ p) : (w.set p proc).procs q = w.procs q :=
  Function.update_of_ne hq _ _

end Set

/-- What a process has committed. -/
def World.committed (w : World ι σ χ ρ) (p : ι) : List χ :=
  (w.journal.filter (·.1 = p)).map Prod.snd

/-- Some changes are committed. -/
def World.commit (E : Engine σ χ ρ) (w : World ι σ χ ρ) (p : ι) (changes : List χ) :
    World ι σ χ ρ :=
  { w with
    store := changes.foldl E.apply w.store
    journal := w.journal ++ changes.map (p, ·) }

/-- One call of a process, which succeeds or not. -/
def call [Fintype ι] (E : Engine σ χ ρ) (w : World ι σ χ ρ) (p : ι) (pending : List χ)
    (rest : List (Call ι χ)) : Call ι χ → Bool → Option (World ι σ χ ρ)
  | .spawn q, ok =>
    match w.procs q with
    | .absent =>
      let w := w.set p (.running ⟨rest, pending⟩)
      some (if ok then w.set q .forked else w)
    | _ => none
  | .await, _ =>
    if ∀ q, q ≠ p → (w.procs q).alive = false then some (w.set p (.running ⟨rest, pending⟩))
    else none
  | .kill q, _ =>
    if q = p then none
    else
      let w := w.set p (.running ⟨rest, pending⟩)
      match w.procs q with
      | .absent => some { w with stray := true }
      | proc => some (if proc.alive then w.set q .killed else w)
  | .tolerated _, false => some (w.set p (.running ⟨rest, pending⟩))
  | _, false => some (w.set p (.exited 1))
  | .other, true => some (w.set p (.running ⟨rest, pending⟩))
  | .start, true => some (w.set p (.running ⟨rest, []⟩))
  | .exec c, true | .tolerated c, true =>
    if E.valid (pending.foldl E.apply w.store) c then
      some (w.set p (.running ⟨rest, pending ++ [c]⟩))
    else none
  | .commit, true => some ((w.commit E p pending).set p (.running ⟨rest, []⟩))
  | .print, true =>
    (E.rows (pending.foldl E.apply w.store)).map fun rows ↦
      { w.set p (.running ⟨rest, pending⟩) with printed := w.printed ++ [rows] }

/-- The next step of a process, if it has one. -/
def step [Fintype ι] (E : Engine σ χ ρ) (script : ι → List (Call ι χ)) (w : World ι σ χ ρ) :
    ι × Bool → Option (World ι σ χ ρ)
  | (p, ok) =>
    match w.procs p with
    | .forked => some (w.set p (if ok then .running ⟨script p, []⟩ else .exited 127))
    | .running ⟨[], _⟩ => some (w.set p (.exited 0))
    | .running ⟨c :: rest, pending⟩ => call E w p pending rest c ok
    | _ => none

/-- One process is running, and none of the others has been started. -/
def World.start (script : ι → List (Call ι χ)) (main : ι) (store : σ) : World ι σ χ ρ where
  procs := Function.update (fun _ ↦ .absent) main (.running ⟨script main, []⟩)
  store
  journal := []
  printed := []
  stray := false

end Steps

/-! ### What a step does -/

/-- What a process may do itself, and what it commits. -/
inductive Moves (script : List (Call ι χ)) : Proc ι χ → List χ → Proc ι χ → Prop
  | enter : Moves script .forked [] (.running ⟨script, []⟩)
  | missing : Moves script .forked [] (.exited 127)
  | finish (pending : List χ) : Moves script (.running ⟨[], pending⟩) [] (.exited 0)
  | fail (c : Call ι χ) (hc : c.control = false) (rest : List (Call ι χ)) (pending : List χ) :
    Moves script (.running ⟨c :: rest, pending⟩) [] (.exited 1)
  | other (rest : List (Call ι χ)) (pending : List χ) :
    Moves script (.running ⟨.other :: rest, pending⟩) [] (.running ⟨rest, pending⟩)
  | start (rest : List (Call ι χ)) (pending : List χ) :
    Moves script (.running ⟨.start :: rest, pending⟩) [] (.running ⟨rest, []⟩)
  | exec (c : χ) (rest : List (Call ι χ)) (pending : List χ) :
    Moves script (.running ⟨.exec c :: rest, pending⟩) [] (.running ⟨rest, pending ++ [c]⟩)
  | tolerated (c : χ) (rest : List (Call ι χ)) (pending : List χ) :
    Moves script (.running ⟨.tolerated c :: rest, pending⟩) [] (.running ⟨rest, pending ++ [c]⟩)
  | skipped (c : χ) (rest : List (Call ι χ)) (pending : List χ) :
    Moves script (.running ⟨.tolerated c :: rest, pending⟩) [] (.running ⟨rest, pending⟩)
  | commit (rest : List (Call ι χ)) (pending : List χ) :
    Moves script (.running ⟨.commit :: rest, pending⟩) pending (.running ⟨rest, []⟩)
  | print (rest : List (Call ι χ)) (pending : List χ) :
    Moves script (.running ⟨.print :: rest, pending⟩) [] (.running ⟨rest, pending⟩)
  | spawn (q : ι) (rest : List (Call ι χ)) (pending : List χ) :
    Moves script (.running ⟨.spawn q :: rest, pending⟩) [] (.running ⟨rest, pending⟩)
  | await (rest : List (Call ι χ)) (pending : List χ) :
    Moves script (.running ⟨.await :: rest, pending⟩) [] (.running ⟨rest, pending⟩)
  | kill (q : ι) (rest : List (Call ι χ)) (pending : List χ) :
    Moves script (.running ⟨.kill q :: rest, pending⟩) [] (.running ⟨rest, pending⟩)

/-- What happens to a process while another one makes a call. -/
inductive Bystander (proc : Proc ι χ) (c : Option (Call ι χ)) (p : ι) (proc' : Proc ι χ) : Prop
  | same : proc' = proc → Bystander proc c p proc'
  | spawned : proc = .absent → c = some (.spawn p) → proc' = .forked → Bystander proc c p proc'
  | killed : proc.alive = true → c = some (.kill p) → proc' = .killed → Bystander proc c p proc'

/-- The call that a process is about to make. -/
def Proc.next : Proc ι χ → Option (Call ι χ)
  | .running ⟨c :: _, _⟩ => some c
  | _ => none

/-- The step of a process: what it does itself, what it commits and prints, and what happens to the
other processes. -/
structure StepOf (E : Engine σ χ ρ) (script : ι → List (Call ι χ)) (p : ι)
    (w w' : World ι σ χ ρ) : Prop where
  moves : ∃ changes, Moves (script p) (w.procs p) changes (w'.procs p) ∧
    w'.store = changes.foldl E.apply w.store ∧ w'.journal = w.journal ++ changes.map (p, ·)
  others : ∀ q ≠ p, Bystander (w.procs q) (w.procs p).next q (w'.procs q)
  printed : w'.printed = w.printed ∨ ∃ pending rest rows,
    w.procs p = .running ⟨.print :: rest, pending⟩ ∧
      E.rows (pending.foldl E.apply w.store) = some rows ∧ w'.printed = w.printed ++ [rows]
  /-- An `await` is passed when no other process is alive. -/
  awaits : (w.procs p).next = some .await → ∀ q ≠ p, (w.procs q).alive = false

/-- A running process is behind a first part of its script. -/
theorem Moves.suffix {script : List (Call ι χ)} {proc proc' : Proc ι χ} {changes : List χ}
    (h : Moves script proc changes proc')
    (hrest : ∀ c, proc = .running c → c.rest <:+ script) :
    ∀ c, proc' = .running c → c.rest <:+ script := by
  intro c hc
  rcases h with _ | _ | _ | _ | _ | _ | _ | _ | _ | _ | _ | _ | _ | _
  case enter =>
    cases hc
    exact List.suffix_rfl
  all_goals first
    | cases hc
      exact (List.suffix_cons _ _).trans (hrest _ rfl)
    | cases hc

/-- A process that runs on has made one call, and is behind it. -/
theorem Moves.rest_suffix {script : List (Call ι χ)} {c c' : Client ι χ} {changes : List χ}
    (h : Moves script (.running c) changes (.running c')) : c'.rest <:+ c.rest := by
  rcases h with _ | _ | _ | _ | _ | _ | _ | _ | _ | _ | _ | _ | _ | _ <;> exact List.suffix_cons _ _

/-- A process that is running has been so while another one made a call. -/
theorem Bystander.eq_of_running {proc proc' : Proc ι χ} {c : Option (Call ι χ)} {p : ι}
    (h : Bystander proc c p proc') {c' : Client ι χ} (hproc' : proc' = .running c') :
    proc = .running c' := by
  rcases h with rfl | ⟨-, -, rfl⟩ | ⟨-, -, rfl⟩
  · exact hproc'
  · cases hproc'
  · cases hproc'

theorem Bystander.ne_absent {proc proc' : Proc ι χ} {c : Option (Call ι χ)} {p : ι}
    (h : Bystander proc c p proc') (hne : proc ≠ .absent) : proc' ≠ .absent := by
  rcases h with rfl | ⟨-, -, rfl⟩ | ⟨-, -, rfl⟩
  · exact hne
  · exact nofun
  · exact nofun

theorem Moves.alive {script : List (Call ι χ)} {proc proc' : Proc ι χ} {changes : List χ}
    (h : Moves script proc changes proc') : proc.alive = true := by
  rcases h with _ | _ | _ | _ | _ | _ | _ | _ | _ | _ | _ | _ | _ | _ <;> rfl

theorem Moves.started {script : List (Call ι χ)} {proc proc' : Proc ι χ} {changes : List χ}
    (h : Moves script proc changes proc') : proc' ≠ .absent ∧ proc' ≠ .forked := by
  rcases h with _ | _ | _ | _ | _ | _ | _ | _ | _ | _ | _ | _ | _ | _ <;> exact ⟨nofun, nofun⟩

section StepOf

variable [DecidableEq ι] {E : Engine σ χ ρ} {script : ι → List (Call ι χ)} {w w' : World ι σ χ ρ}
  {p : ι}

/-- A process that does something on its own, and commits and prints nothing. -/
theorem StepOf.of_moves {proc : Proc ι χ} {stray : Bool}
    (hmoves : Moves (script p) (w.procs p) [] proc) (hawait : (w.procs p).next ≠ some .await) :
    StepOf E script p w { w.set p proc with stray } where
  moves := ⟨[], by
    show Moves _ _ _ ((w.set p proc).procs p)
    rwa [World.set_procs_self], rfl, (List.append_nil _).symm⟩
  others q hq := by
    show Bystander _ _ _ ((w.set p proc).procs q)
    rw [World.set_procs_of_ne _ _ _ hq]
    exact .same rfl
  printed := Or.inl rfl
  awaits h := absurd h hawait

section Call

variable {pending : List χ} {rest : List (Call ι χ)}

/-- A call that another process is the object of. -/
theorem StepOf.of_object {c : Call ι χ} {q : ι} {proc : Proc ι χ} (hq : q ≠ p)
    (hp : w.procs p = .running ⟨c :: rest, pending⟩) (hc : c ≠ .await)
    (hmoves : Moves (script p) (.running ⟨c :: rest, pending⟩) [] (.running ⟨rest, pending⟩))
    (hobject : Bystander (w.procs q) (some c) q proc) :
    StepOf E script p w ((w.set p (.running ⟨rest, pending⟩)).set q proc) where
  moves := by
    refine ⟨[], ?_, rfl, (List.append_nil _).symm⟩
    rwa [World.set_procs_of_ne _ _ _ hq.symm, World.set_procs_self, hp]
  others r hr := by
    rw [hp]
    by_cases hrq : r = q
    · subst hrq
      rw [World.set_procs_self]
      exact hobject
    · rw [World.set_procs_of_ne _ _ _ hrq, World.set_procs_of_ne _ _ _ hr]
      exact .same rfl
  printed := Or.inl rfl
  awaits h := by
    rw [hp] at h
    exact absurd (Option.some.inj h) hc

theorem stepOf_commit (hp : w.procs p = .running ⟨.commit :: rest, pending⟩) :
    StepOf E script p w ((w.commit E p pending).set p (.running ⟨rest, []⟩)) where
  moves := by
    refine ⟨pending, ?_, rfl, rfl⟩
    rw [World.set_procs_self, hp]
    exact .commit rest pending
  others q hq := by
    rw [World.set_procs_of_ne _ _ _ hq]
    exact .same rfl
  printed := Or.inl rfl
  awaits h := by
    rw [hp] at h
    cases h

theorem stepOf_print {rows : ρ} (hp : w.procs p = .running ⟨.print :: rest, pending⟩)
    (hrows : E.rows (pending.foldl E.apply w.store) = some rows) :
    StepOf E script p w
      { w.set p (.running ⟨rest, pending⟩) with printed := w.printed ++ [rows] } where
  moves := by
    refine ⟨[], ?_, rfl, (List.append_nil _).symm⟩
    show Moves _ _ _ ((w.set p _).procs p)
    rw [World.set_procs_self, hp]
    exact .print rest pending
  others q hq := by
    show Bystander _ _ _ ((w.set p _).procs q)
    rw [World.set_procs_of_ne _ _ _ hq]
    exact .same rfl
  printed := Or.inr ⟨pending, rest, rows, hp, hrows, rfl⟩
  awaits h := by
    rw [hp] at h
    cases h

variable [Fintype ι]

theorem stepOf_spawn {q : ι} {ok : Bool} (hp : w.procs p = .running ⟨.spawn q :: rest, pending⟩)
    (h : call E w p pending rest (.spawn q) ok = some w') : StepOf E script p w w' := by
  have hmoves : Moves (script p) _ _ _ := .spawn q rest pending
  rw [call] at h
  split at h
  next habsent =>
    have hq : q ≠ p := by
      rintro rfl
      rw [hp] at habsent
      cases habsent
    obtain rfl := Option.some.inj h
    rcases ok with _ | _
    · exact .of_moves (hp ▸ hmoves) (by rw [hp]; exact nofun)
    · exact .of_object hq hp nofun hmoves (.spawned habsent rfl rfl)
  next => cases h

theorem stepOf_kill {q : ι} {ok : Bool} (hp : w.procs p = .running ⟨.kill q :: rest, pending⟩)
    (h : call E w p pending rest (.kill q) ok = some w') : StepOf E script p w w' := by
  have hmoves : Moves (script p) _ _ _ := .kill q rest pending
  have hnext : (w.procs p).next ≠ some .await := by
    rw [hp]
    exact nofun
  rw [call] at h
  split_ifs at h with hq
  simp only [World.set_procs_of_ne _ _ _ hq] at h
  split at h
  next =>
    obtain rfl := Option.some.inj h
    exact .of_moves (hp ▸ hmoves) hnext
  next =>
    obtain rfl := Option.some.inj h
    split_ifs with halive
    · exact .of_object hq hp nofun hmoves (.killed halive rfl rfl)
    · exact .of_moves (hp ▸ hmoves) hnext

theorem stepOf_await {ok : Bool} (hp : w.procs p = .running ⟨.await :: rest, pending⟩)
    (h : call E w p pending rest .await ok = some w') : StepOf E script p w w' := by
  rw [call] at h
  split_ifs at h with hall
  obtain rfl := Option.some.inj h
  refine ⟨⟨[], ?_, rfl, (List.append_nil _).symm⟩, fun q hq ↦ ?_, Or.inl rfl, fun _ ↦ hall⟩
  · rw [World.set_procs_self, hp]
    exact .await rest pending
  · rw [World.set_procs_of_ne _ _ _ hq]
    exact .same rfl

theorem stepOf_call {c : Call ι χ} {ok : Bool} (hp : w.procs p = .running ⟨c :: rest, pending⟩)
    (h : call E w p pending rest c ok = some w') : StepOf E script p w w' := by
  have hself : ∀ {proc}, Moves (script p) (.running ⟨c :: rest, pending⟩) [] proc →
      c ≠ .await → StepOf E script p w (w.set p proc) := by
    intro proc hmoves hc
    refine .of_moves (hp ▸ hmoves) ?_
    rw [hp]
    exact fun h ↦ hc (Option.some.inj h)
  have hfail : c.control = false → Moves (script p) _ _ _ := (.fail c · rest pending)
  rcases c with _ | _ | x | x | _ | _ | q | _ | q
  case spawn => exact stepOf_spawn hp h
  case await => exact stepOf_await hp h
  case kill => exact stepOf_kill hp h
  all_goals rcases ok with _ | _
  case tolerated.false =>
    obtain rfl := Option.some.inj h
    exact hself (.skipped x rest pending) nofun
  case other.true =>
    obtain rfl := Option.some.inj h
    exact hself (.other rest pending) nofun
  case start.true =>
    obtain rfl := Option.some.inj h
    exact hself (.start rest pending) nofun
  case exec.true =>
    rw [call] at h
    split_ifs at h
    obtain rfl := Option.some.inj h
    exact hself (.exec x rest pending) nofun
  case tolerated.true =>
    rw [call] at h
    split_ifs at h
    obtain rfl := Option.some.inj h
    exact hself (.tolerated x rest pending) nofun
  case commit.true =>
    obtain rfl := Option.some.inj h
    exact stepOf_commit hp
  case print.true =>
    obtain ⟨rows, hrows, rfl⟩ := Option.map_eq_some_iff.1 h
    exact stepOf_print hp hrows
  all_goals
    obtain rfl := Option.some.inj h
    exact hself (hfail rfl) nofun

/-- **Every step** is one of a process. -/
theorem stepOf_of_step {ok : Bool} (h : step E script w (p, ok) = some w') :
    StepOf E script p w w' := by
  rw [step] at h
  split at h
  next hp =>
    obtain rfl := Option.some.inj h
    have hnext : (w.procs p).next ≠ some .await := by
      rw [hp]
      exact nofun
    rcases ok with _ | _
    · exact .of_moves (hp ▸ .missing) hnext
    · exact .of_moves (hp ▸ .enter) hnext
  next pending hp =>
    obtain rfl := Option.some.inj h
    exact .of_moves (hp ▸ .finish pending) (by rw [hp]; exact nofun)
  next c rest pending hp => exact stepOf_call hp h
  next => cases h

theorem stray_of_kill {q : ι} {ok : Bool}
    (h : call E w p pending rest (.kill q) ok = some w') :
    w'.stray = true ↔ w.stray = true ∨ w.procs q = .absent := by
  rw [call] at h
  split_ifs at h with hq
  simp only [World.set_procs_of_ne _ _ _ hq] at h
  split at h
  next habsent =>
    obtain rfl := Option.some.inj h
    exact iff_of_true rfl (Or.inr habsent)
  next hne =>
    obtain rfl := Option.some.inj h
    rw [or_iff_left hne]
    split_ifs <;> rfl

theorem stray_of_call {c : Call ι χ} {ok : Bool} (hc : ∀ q, c ≠ .kill q)
    (h : call E w p pending rest c ok = some w') : w'.stray = w.stray := by
  rcases c with _ | _ | x | x | _ | _ | q | _ | q
  case spawn =>
    rw [call] at h
    split at h
    next =>
      obtain rfl := Option.some.inj h
      split_ifs <;> rfl
    next => cases h
  case await =>
    rw [call] at h
    split_ifs at h
    obtain rfl := Option.some.inj h
    rfl
  case kill => exact absurd rfl (hc q)
  all_goals rcases ok with _ | _
  case exec.true | tolerated.true =>
    rw [call] at h
    split_ifs at h
    obtain rfl := Option.some.inj h
    rfl
  case print.true =>
    obtain ⟨rows, -, rfl⟩ := Option.map_eq_some_iff.1 h
    rfl
  all_goals
    obtain rfl := Option.some.inj h
    rfl

/-- A signal goes astray exactly if it is sent to a process that is not there. -/
theorem stray_of_step {ok : Bool} (h : step E script w (p, ok) = some w') :
    w'.stray = true ↔
      w.stray = true ∨ ∃ q, (w.procs p).next = some (.kill q) ∧ w.procs q = .absent := by
  have hnone : (∀ q, (w.procs p).next ≠ some (.kill q)) →
      (w.stray = true ↔
        w.stray = true ∨ ∃ q, (w.procs p).next = some (.kill q) ∧ w.procs q = .absent) :=
    fun hnext ↦ ⟨Or.inl, fun h ↦ h.elim id fun ⟨q, hq, _⟩ ↦ absurd hq (hnext q)⟩
  rw [step] at h
  split at h
  next hp =>
    obtain rfl := Option.some.inj h
    exact hnone fun q ↦ by rw [hp]; exact nofun
  next pending hp =>
    obtain rfl := Option.some.inj h
    exact hnone fun q ↦ by rw [hp]; exact nofun
  next c rest pending hp =>
    by_cases hkill : ∃ q, c = .kill q
    · obtain ⟨q, rfl⟩ := hkill
      have hnext : ∀ q', (w.procs p).next = some (.kill q') ↔ q = q' := by
        intro q'
        rw [hp]
        exact ⟨fun h ↦ Call.kill.inj (Option.some.inj h), fun h ↦ h ▸ rfl⟩
      simp only [stray_of_kill h, hnext, exists_eq_left']
    · rw [stray_of_call (fun q hq ↦ hkill ⟨q, hq⟩) h]
      exact hnone fun q hq ↦ hkill ⟨q, by rw [hp] at hq; exact Option.some.inj hq⟩
  next => cases h

end Call

end StepOf

/-! ### What is recorded -/

/-- What a process may have committed at the end of its calls: a tolerated statement is executed or
not, and a change that is not followed by a commit is lost. -/
def outcomes : List χ → List (Call ι χ) → List (List χ)
  | _, [] => [[]]
  | _, .start :: rest => outcomes [] rest
  | pending, .exec c :: rest => outcomes (pending ++ [c]) rest
  | pending, .tolerated c :: rest => outcomes (pending ++ [c]) rest ++ outcomes pending rest
  | pending, .commit :: rest => (outcomes [] rest).map (pending ++ ·)
  | pending, _ :: rest => outcomes pending rest

theorem outcomes_ne_nil (rest : List (Call ι χ)) (pending : List χ) :
    outcomes pending rest ≠ [] := by
  induction rest generalizing pending with
  | nil => exact List.cons_ne_nil _ _
  | cons c rest ih =>
    rcases c with _ | _ | x | x | _ | _ | q | _ | q
    case tolerated => exact fun h ↦ ih _ (List.append_eq_nil_iff.1 h).1
    case commit => exact fun h ↦ ih _ (List.map_eq_nil_iff.1 h)
    all_goals exact ih _

/-- What the journal holds of a process, as it stands. -/
def Recorded (script : List (Call ι χ)) : Proc ι χ → List χ → Prop
  | .absent, changes | .forked, changes => changes = []
  | .running c, changes =>
    ∀ out ∈ outcomes c.pending c.rest, changes ++ out ∈ outcomes [] script
  | .exited 0, changes => changes ∈ outcomes [] script
  | .exited _, changes | .killed, changes => ∃ out, changes ++ out ∈ outcomes [] script

section Recorded

variable {script : List (Call ι χ)} {proc proc' : Proc ι χ} {changes committed : List χ}

/-- A running process is on its way to an outcome. -/
theorem Recorded.exists_outcome {c : Client ι χ} (h : Recorded script (.running c) committed) :
    ∃ out, committed ++ out ∈ outcomes [] script := by
  obtain ⟨out, hout⟩ := List.exists_mem_of_ne_nil _ (outcomes_ne_nil c.rest c.pending)
  exact ⟨out, h out hout⟩

/-- **One step** of the process itself. -/
theorem Moves.recorded (h : Moves script proc changes proc')
    (hrec : Recorded script proc committed) : Recorded script proc' (committed ++ changes) := by
  rcases h with _ | _ | ⟨pending⟩ | ⟨c, hc, rest, pending⟩ | _ | _ | _ | _ | _ | ⟨rest, pending⟩ | _
  case enter =>
    obtain rfl : committed = [] := hrec
    exact fun out hout ↦ hout
  case missing =>
    obtain rfl : committed = [] := hrec
    obtain ⟨out, hout⟩ := List.exists_mem_of_ne_nil _ (outcomes_ne_nil script [])
    exact ⟨out, hout⟩
  case finish =>
    have := hrec [] (List.mem_singleton_self [])
    rwa [List.append_nil] at this ⊢
  case fail =>
    rw [List.append_nil]
    exact hrec.exists_outcome
  case commit =>
    intro out hout
    rw [List.append_assoc]
    exact hrec _ (List.mem_map_of_mem hout)
  all_goals
    rw [List.append_nil]
    first
      | exact fun out hout ↦ hrec out hout
      | exact fun out hout ↦ hrec out (List.mem_append_left _ hout)
      | exact fun out hout ↦ hrec out (List.mem_append_right _ hout)

/-- Nothing is recorded of a process while another one makes a call. -/
theorem Bystander.recorded {c : Option (Call ι χ)} {p : ι} (h : Bystander proc c p proc')
    (hrec : Recorded script proc committed) : Recorded script proc' committed := by
  rcases h with rfl | ⟨rfl, -, rfl⟩ | ⟨halive, -, rfl⟩
  · exact hrec
  · exact hrec
  · rcases proc with _ | _ | c | code | _
    case forked =>
      obtain rfl : committed = [] := hrec
      obtain ⟨out, hout⟩ := List.exists_mem_of_ne_nil _ (outcomes_ne_nil script [])
      exact ⟨out, hout⟩
    case running => exact hrec.exists_outcome
    all_goals cases halive

/-- In any case, a first part of an outcome is recorded. -/
theorem Recorded.exists_append (h : Recorded script proc committed) :
    ∃ out, committed ++ out ∈ outcomes [] script := by
  rcases proc with _ | _ | c | _ | _
  case running => exact h.exists_outcome
  case exited code =>
    rcases code with _ | code
    · exact ⟨[], by rwa [List.append_nil]⟩
    · exact h
  case killed => exact h
  all_goals
    obtain rfl : committed = [] := h
    obtain ⟨out, hout⟩ := List.exists_mem_of_ne_nil _ (outcomes_ne_nil script [])
    exact ⟨out, hout⟩

/-- Nothing is pending in front of the last commit of a process that commits nothing. -/
theorem Recorded.pending_eq_nil {pending : List χ}
    (h : Recorded script (.running ⟨[.print, .commit], pending⟩) committed)
    (hscript : outcomes [] script = [[]]) : pending = [] := by
  have hmem := h (pending ++ []) (List.mem_singleton_self _)
  rw [hscript, List.mem_singleton, List.append_nil] at hmem
  exact (List.append_eq_nil_iff.1 hmem).2

end Recorded

/-! ### Runs -/

section Runs

variable {E : Engine σ χ ρ} {script : ι → List (Call ι χ)} {main p : ι} {s : σ}
  {w w' : World ι σ χ ρ}

/-- Where the first process stands in its script, unless it has been cut short. -/
def MainAt (w : World ι σ χ ρ) (main : ι) (rest : List (Call ι χ)) : Prop :=
  (∃ pending, w.procs main = .running ⟨rest, pending⟩) ∨ rest = [] ∧ w.procs main = .exited 0

/-- A process has been started by the first one, and if it is alive, there has been no `await`
since. -/
def Spawned (script : ι → List (Call ι χ)) (main : ι) (w : World ι σ χ ρ) (p : ι)
    (rest : List (Call ι χ)) : Prop :=
  ∃ u v, script main = u ++ .spawn p :: (v ++ rest) ∧ ((w.procs p).alive = true → .await ∉ v)

/-- Where the first process stood before its own step. -/
theorem mainAt_of_moves {script : List (Call ι χ)} {changes : List χ}
    (h : Moves script (w.procs main) changes (w'.procs main)) (hforked : w.procs main ≠ .forked)
    {rest : List (Call ι χ)} (hmain : MainAt w' main rest) :
    (∃ c pending, w.procs main = .running ⟨c :: rest, pending⟩) ∨
      rest = [] ∧ ∃ pending, w.procs main = .running ⟨[], pending⟩ := by
  rcases hproc : w.procs main with _ | _ | ⟨_ | ⟨c, rest'⟩, pending⟩ | _ | _
  case forked => exact absurd hproc hforked
  case running.nil =>
    rw [hproc] at h
    rcases hmain with ⟨pending', hmain⟩ | ⟨hrest, -⟩
    · rw [hmain] at h
      cases h
    · exact Or.inr ⟨hrest, pending, rfl⟩
  case running.cons =>
    refine Or.inl ⟨c, pending, ?_⟩
    rw [hproc] at h
    rcases hmain with ⟨pending', hmain⟩ | ⟨-, hmain⟩
    · rw [hmain] at h
      rcases h with _ | _ | _ | _ | _ | _ | _ | _ | _ | _ | _ | _ | _ | _ <;> rfl
    · rw [hmain] at h
      cases h
  all_goals
    rw [hproc] at h
    cases h

/-- A step of the first process: what it has started stays so, and it may start another one. -/
theorem Spawned.of_main_step (hof : StepOf E script main w w') {c : Call ι χ}
    {rest : List (Call ι χ)} {pending : List χ} (hc : w.procs main = .running ⟨c :: rest, pending⟩)
    (hsuffix : c :: rest <:+ script main) (hp : p ≠ main) (hne : w'.procs p ≠ .absent)
    (h : w.procs p ≠ .absent → Spawned script main w p (c :: rest)) :
    Spawned script main w' p rest := by
  have hnext : (w.procs main).next = some c := by
    rw [hc]
    rfl
  have hmore : ∀ {u v}, script main = u ++ .spawn p :: (v ++ c :: rest) →
      script main = u ++ .spawn p :: (v ++ [c] ++ rest) := by
    intro u v hscript
    rw [hscript, List.append_assoc]
    rfl
  rcases hof.others p hp with hsame | ⟨-, hspawned, -⟩ | ⟨halive, -, hkilled⟩
  · rw [hsame] at hne
    obtain ⟨u, v, hscript, hawait⟩ := h hne
    refine ⟨u, v ++ [c], hmore hscript, fun halive ↦ ?_⟩
    rw [hsame] at halive
    refine List.not_mem_append (hawait halive) fun hmem ↦ ?_
    -- an `await` is not passed while it is alive
    have hdead := hof.awaits (by rw [hnext, List.mem_singleton.1 hmem]) p hp
    rw [hdead] at halive
    cases halive
  · rw [hnext] at hspawned
    obtain ⟨u, hu⟩ := hsuffix
    exact ⟨u, [], by rw [← hu, Option.some.inj hspawned]; rfl, fun _ ↦ List.not_mem_nil⟩
  · obtain ⟨u, v, hscript, -⟩ := h (Proc.ne_absent_of_alive halive)
    exact ⟨u, v ++ [c], hmore hscript, by rw [hkilled]; exact nofun⟩

/-- The processes that are started. -/
def spawns (calls : List (Call ι χ)) : List ι :=
  calls.filterMap fun
    | .spawn p => some p
    | _ => none

/-- A script of the first process, and those of the others: only the first one starts, awaits and
kills processes, and it starts each of them once. -/
structure Leads (script : ι → List (Call ι χ)) (main : ι) : Prop where
  spawn : ∀ p ≠ main, ∀ q, .spawn q ∉ script p
  await : ∀ p ≠ main, .await ∉ script p
  kill : ∀ p ≠ main, ∀ q, .kill q ∉ script p
  once : (spawns (script main)).Nodup
  notMain : main ∉ spawns (script main)
  notSelf : .kill main ∉ script main

theorem Leads.not_again (h : Leads script main) {q : ι} {u v rest : List (Call ι χ)}
    (hscript : script main = u ++ .spawn q :: (v ++ .spawn q :: rest)) : False := by
  have hnodup := h.once
  rw [hscript, spawns, List.filterMap_append, List.nodup_append] at hnodup
  simp [List.filterMap_append] at hnodup

variable [DecidableEq ι]

theorem World.start_procs_self :
    (World.start script main s : World ι σ χ ρ).procs main = .running ⟨script main, []⟩ := by
  simp [World.start]

theorem World.start_procs_of_ne (hp : p ≠ main) :
    (World.start script main s : World ι σ χ ρ).procs p = .absent := by
  simp [World.start, hp]

@[simp] theorem World.mem_committed {c : χ} : c ∈ w.committed p ↔ (p, c) ∈ w.journal := by
  simp [World.committed]

theorem committed_of_journal {changes : List χ}
    (h : w'.journal = w.journal ++ changes.map (p, ·)) (q : ι) :
    w'.committed q = w.committed q ++ if q = p then changes else [] := by
  have hfilter : ((changes.map (p, ·)).filter (·.1 = q)).map Prod.snd =
      if q = p then changes else [] := by
    rw [List.filter_map, List.map_map]
    split_ifs with hq
    · subst hq
      simp [Function.comp_def]
    · simp [Function.comp_def, Ne.symm hq]
  rw [World.committed, h, List.filter_append, List.map_append, hfilter]
  rfl

/-- A step of another process, which starts none. -/
theorem Spawned.of_other_step {r : ι} (hof : StepOf E script r w w') {rest : List (Call ι χ)}
    (hspawn : (w.procs r).next ≠ some (.spawn p)) (hne : w'.procs p ≠ .absent)
    (h : w.procs p ≠ .absent → Spawned script main w p rest) : Spawned script main w' p rest := by
  have halive : w.procs p ≠ .absent ∧ ((w'.procs p).alive = true → (w.procs p).alive = true) := by
    by_cases hp : p = r
    · subst hp
      obtain ⟨changes, hmoves, -, -⟩ := hof.moves
      exact ⟨Proc.ne_absent_of_alive hmoves.alive, fun _ ↦ hmoves.alive⟩
    · rcases hof.others p hp with hsame | ⟨-, hspawned, -⟩ | ⟨halive, -, -⟩
      · rw [hsame] at hne ⊢
        exact ⟨hne, id⟩
      · exact absurd hspawned hspawn
      · exact ⟨Proc.ne_absent_of_alive halive, fun _ ↦ halive⟩
  obtain ⟨u, v, hscript, hawait⟩ := h halive.1
  exact ⟨u, v, hscript, fun h' ↦ hawait (halive.2 h')⟩

variable [Fintype ι]

/-- **The journal**: of every process it holds what the script says. -/
theorem Reaches.recorded (h : Reachable (step E script) (.start script main s) w) (p : ι) :
    Recorded (script p) (w.procs p) (w.committed p) := by
  refine h.invariant (I := fun w ↦ ∀ p, Recorded (script p) (w.procs p) (w.committed p)) ?_ ?_ p
  · intro p
    by_cases hp : p = main
    · subst hp
      rw [World.start_procs_self]
      exact fun out hout ↦ hout
    · rw [World.start_procs_of_ne hp]
      rfl
  · rintro w ⟨p, ok⟩ w' hrec - hstep q
    have hof := stepOf_of_step hstep
    obtain ⟨changes, hmoves, -, hjournal⟩ := hof.moves
    rw [committed_of_journal hjournal]
    by_cases hq : q = p
    · subst hq
      rw [if_pos rfl]
      exact hmoves.recorded (hrec q)
    · rw [if_neg hq, List.append_nil]
      exact (hof.others q hq).recorded (hrec q)

/-- **The store** is what the journal makes of it. -/
theorem Reaches.store_eq (h : Reachable (step E script) (.start script main s) w) :
    w.store = (w.journal.map Prod.snd).foldl E.apply s := by
  refine h.invariant (I := fun w ↦ w.store = (w.journal.map Prod.snd).foldl E.apply s) rfl ?_
  rintro w ⟨p, ok⟩ w' hstore - hstep
  obtain ⟨changes, -, hstore', hjournal⟩ := (stepOf_of_step hstep).moves
  rw [hstore', hjournal, hstore, List.map_append, List.foldl_append, List.map_map]
  congr 1
  exact (List.map_id' _).symm

/-- **What is printed** is what the store holds from then on, if there is a condition `Q` that holds
behind each query, and from which on the store stays as it is. -/
theorem Reaches.rows_of_printed {Q : World ι σ χ ρ → Prop}
    (h : Reachable (step E script) (.start script main s) w)
    (hprint : ∀ {w w' p ok rest pending}, Reachable (step E script) (.start script main s) w →
      step E script w (p, ok) = some w' → w.procs p = .running ⟨.print :: rest, pending⟩ →
      pending = [] ∧ Q w' ∧ w'.store = w.store)
    (hkeep : ∀ {w w' p ok}, Reachable (step E script) (.start script main s) w →
      step E script w (p, ok) = some w' → Q w → Q w' ∧ w'.store = w.store) :
    ∀ rows ∈ w.printed, E.rows w.store = some rows ∧ Q w := by
  induction h with
  | refl => exact fun _ hrows ↦ absurd hrows List.not_mem_nil
  | @tail w w' a h _ hstep ih =>
    obtain ⟨p, ok⟩ := a
    have hold : ∀ rows ∈ w.printed, E.rows w'.store = some rows ∧ Q w' := by
      intro rows hrows
      obtain ⟨hrows, hQ⟩ := ih rows hrows
      obtain ⟨hQ', hstore⟩ := hkeep h hstep hQ
      exact ⟨by rw [hstore]; exact hrows, hQ'⟩
    rcases (stepOf_of_step hstep).printed with
      hprinted | ⟨pending, rest, rows, hproc, hrows, hprinted⟩
    · rw [hprinted]
      exact hold
    · obtain ⟨rfl, hQ', hstore⟩ := hprint h hstep hproc
      rw [hprinted]
      refine fun rows' hrows' ↦ (List.mem_append.1 hrows').elim (hold rows') fun hrows' ↦ ?_
      rw [List.mem_singleton.1 hrows', hstore]
      exact ⟨hrows, hQ'⟩

theorem Reaches.suffix (h : Reachable (step E script) (.start script main s) w) (p : ι) :
    ∀ c, w.procs p = .running c → c.rest <:+ script p := by
  refine h.invariant (I := fun w ↦ ∀ p c, w.procs p = .running c → c.rest <:+ script p) ?_ ?_ p
  · intro p c hc
    by_cases hp : p = main
    · subst hp
      rw [World.start_procs_self] at hc
      cases hc
      exact List.suffix_rfl
    · rw [World.start_procs_of_ne hp] at hc
      cases hc
  · rintro w ⟨p, ok⟩ w' hrest - hstep q c hc
    have hof := stepOf_of_step hstep
    obtain ⟨changes, hmoves, -, -⟩ := hof.moves
    by_cases hq : q = p
    · subst hq
      exact hmoves.suffix (hrest q) c hc
    · exact hrest q c ((hof.others q hq).eq_of_running hc)

/-- The next call of a process is in its script. -/
theorem Reaches.mem_of_next (h : Reachable (step E script) (.start script main s) w)
    {c : Call ι χ} (hnext : (w.procs p).next = some c) : c ∈ script p := by
  rcases hproc : w.procs p with _ | _ | ⟨_ | ⟨c', rest⟩, pending⟩ | _ | _ <;> rw [hproc] at hnext
  case running.cons =>
    obtain rfl := Option.some.inj hnext
    exact (Reaches.suffix h p _ hproc).subset List.mem_cons_self
  all_goals cases hnext

/-- The first process is not started again. -/
theorem Reaches.main_started (h : Reachable (step E script) (.start script main s) w) :
    w.procs main ≠ .absent ∧ w.procs main ≠ .forked := by
  refine h.invariant (I := fun w ↦ w.procs main ≠ .absent ∧ w.procs main ≠ .forked) ?_ ?_
  · rw [World.start_procs_self]
    exact ⟨nofun, nofun⟩
  · rintro w ⟨p, ok⟩ w' ⟨habsent, hforked⟩ - hstep
    have hof := stepOf_of_step hstep
    by_cases hp : main = p
    · subst hp
      obtain ⟨changes, hmoves, -, -⟩ := hof.moves
      exact hmoves.started
    · rcases hof.others main hp with hsame | ⟨hab, -, -⟩ | ⟨-, -, hkilled⟩
      · rw [hsame]
        exact ⟨habsent, hforked⟩
      · exact absurd hab habsent
      · rw [hkilled]
        exact ⟨nofun, nofun⟩

/-- **Who has been started, and when**, if only the first process starts others. -/
theorem Reaches.spawned (h : Reachable (step E script) (.start script main s) w)
    (hspawn : ∀ p ≠ main, ∀ q, .spawn q ∉ script p) :
    ∀ rest, MainAt w main rest → ∀ p ≠ main, w.procs p ≠ .absent →
      Spawned script main w p rest := by
  induction h with
  | refl => exact fun _ _ p hp hne ↦ absurd (World.start_procs_of_ne hp) hne
  | @tail w w' a h _ hstep ih =>
    obtain ⟨r, ok⟩ := a
    intro rest hmain p hp hne
    have hof := stepOf_of_step hstep
    obtain ⟨changes, hmoves, -, -⟩ := hof.moves
    by_cases hr : main = r
    · subst hr
      rcases mainAt_of_moves hmoves (Reaches.main_started h).2 hmain with
        ⟨c, pending, hc⟩ | ⟨rfl, pending, hc⟩
      · exact .of_main_step hof hc (Reaches.suffix h main _ hc) hp hne
          (ih (c :: rest) (Or.inl ⟨pending, hc⟩) p hp)
      · exact .of_other_step hof (by rw [hc]; exact nofun) hne (ih [] (Or.inl ⟨pending, hc⟩) p hp)
    · have hmain' : MainAt w main rest := by
        rcases hof.others main hr with hsame | ⟨-, -, hforked⟩ | ⟨-, -, hkilled⟩
        · rwa [MainAt, hsame] at hmain
        · rw [MainAt, hforked] at hmain
          rcases hmain with ⟨_, hmain⟩ | ⟨-, hmain⟩ <;> cases hmain
        · rw [MainAt, hkilled] at hmain
          rcases hmain with ⟨_, hmain⟩ | ⟨-, hmain⟩ <;> cases hmain
      exact .of_other_step hof
        (fun hnext ↦ hspawn r (Ne.symm hr) p (Reaches.mem_of_next h hnext)) hne
        (ih rest hmain' p hp)

/-- A first process that does nothing else is not cut short. -/
theorem Reaches.mainAt (h : Reachable (step E script) (.start script main s) w)
    (hleads : Leads script main) (hcontrol : ∀ c ∈ script main, c.control = true) :
    ∃ rest, MainAt w main rest := by
  induction h with
  | refl => exact ⟨_, Or.inl ⟨[], World.start_procs_self⟩⟩
  | @tail w w' a h _ hstep ih =>
    obtain ⟨r, ok⟩ := a
    obtain ⟨rest, hmain⟩ := ih
    have hof := stepOf_of_step hstep
    by_cases hr : main = r
    · subst hr
      obtain ⟨changes, hmoves, -, -⟩ := hof.moves
      generalize hproc' : w'.procs main = proc' at hmoves
      rcases hmain with ⟨pending, hproc⟩ | ⟨-, hproc⟩
      · have hrest := Reaches.suffix h main _ hproc
        rw [hproc] at hmoves
        rcases hmoves with _ | _ | _ | ⟨c, hc, rest, _⟩ | _ | _ | _ | _ | _ | _ | _ | _ | _ | _
        case finish => exact ⟨[], Or.inr ⟨rfl, hproc'⟩⟩
        case fail =>
          have hctl := hcontrol c (hrest.subset List.mem_cons_self)
          rw [hc] at hctl
          cases hctl
        all_goals exact ⟨_, Or.inl ⟨_, hproc'⟩⟩
      · rw [hproc] at hmoves
        cases hmoves
    · rcases hof.others main hr with hsame | ⟨habsent, -, -⟩ | ⟨-, hkill, -⟩
      · exact ⟨rest, by rwa [MainAt, hsame]⟩
      · exact absurd habsent (Reaches.main_started h).1
      · exact absurd (Reaches.mem_of_next h hkill) (hleads.kill r (Ne.symm hr) main)

/-- Only a call that concerns another process may have to wait. -/
theorem isSome_step_of_control (halive : (w.procs p).alive = true)
    (h : ∀ c rest pending, w.procs p = .running ⟨c :: rest, pending⟩ → c.control = true →
      (call E w p pending rest c false).isSome = true) :
    (step E script w (p, false)).isSome = true := by
  rw [step]
  rcases hproc : w.procs p with _ | _ | ⟨_ | ⟨c, rest⟩, pending⟩ | _ | _
  case forked => rfl
  case running.nil => rfl
  case running.cons =>
    show (call E w p pending rest c false).isSome = true
    rcases hcontrol : c.control
    · rcases c with _ | _ | x | x | _ | _ | q | _ | q
      case spawn | await | kill => cases hcontrol
      all_goals rfl
    · exact h c rest pending hproc hcontrol
  all_goals
    rw [hproc] at halive
    cases halive

/-- **There is no deadlock**: while a process is alive, one can move. -/
theorem Reaches.exists_step (h : Reachable (step E script) (.start script main s) w)
    (hleads : Leads script main) (halive : (w.procs p).alive = true) :
    ∃ a, (step E script w a).isSome = true := by
  by_cases hother : ∃ p ≠ main, (w.procs p).alive = true
  · obtain ⟨p, hp, halive⟩ := hother
    refine ⟨(p, false), isSome_step_of_control halive fun c rest pending hproc hcontrol ↦ ?_⟩
    have hmem : c ∈ script p := (Reaches.suffix h p _ hproc).subset List.mem_cons_self
    rcases c with _ | _ | x | x | _ | _ | q | _ | q
    case spawn => exact absurd hmem (hleads.spawn p hp q)
    case await => exact absurd hmem (hleads.await p hp)
    case kill => exact absurd hmem (hleads.kill p hp q)
    all_goals cases hcontrol
  · -- the first process is the only one, so it has nothing to wait for
    have hdead : ∀ q, q ≠ main → (w.procs q).alive = false := fun q hq ↦
      Bool.eq_false_iff.2 fun h ↦ hother ⟨q, hq, h⟩
    obtain rfl : p = main := by
      by_contra hp
      exact hother ⟨p, hp, halive⟩
    refine ⟨(p, false), isSome_step_of_control halive fun c rest pending hproc hcontrol ↦ ?_⟩
    have hmem : c ∈ script p := (Reaches.suffix h p _ hproc).subset List.mem_cons_self
    rcases c with _ | _ | x | x | _ | _ | q | _ | q
    case spawn =>
      have habsent : w.procs q = .absent := by
        by_contra hne
        have hmain : MainAt w p (.spawn q :: rest) := Or.inl ⟨pending, hproc⟩
        have hq : q ≠ p := by
          rintro rfl
          exact hleads.notMain (List.mem_filterMap.2 ⟨_, hmem, rfl⟩)
        obtain ⟨u, v, hscript, -⟩ := Reaches.spawned h hleads.spawn _ hmain q hq hne
        exact hleads.not_again hscript
      rw [call, habsent]
      rfl
    case await =>
      rw [call, if_pos hdead]
      rfl
    case kill =>
      have hq : q ≠ p := by
        rintro rfl
        exact hleads.notSelf hmem
      rw [call, if_neg hq]
      simp only
      split <;> rfl
    all_goals cases hcontrol

end Runs

end Processes
