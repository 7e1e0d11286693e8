import Mathlib.Algebra.Order.Group.Multiset
import Mathlib.Data.Multiset.Range
import Mathlib.Tactic.Abel
import Mathlib.Tactic.SplitIfs

/-!
# Ownership across exceptions

A program calls functions of an interface, each of which may throw (`Prog`). Some calls create
something that has to be ended once. The world counts what has been created, and keeps what has been
ended and which calls have been made (`World`).

At every point, what has been created has either been ended, or is owned by the program, or is lost:
it was owned where an exception left the program (`Accounts`). The rules of `Triple` follow a
program under this invariant. A call that leaks is one that is made while something is owned that
only the program knows of; so something is lost exactly if a call that leaks has thrown, and in the
end, all is ended once exactly if no such call has thrown (`Accounts.endedOnce_iff`).

Which calls are made at all depends on those that throw. A program whose calls all leak (`Steady`),
or of which none does (`Guarded`), is followed by counting its calls.
-/

namespace Ownership

/-- What is known of the calls of a program. -/
structure World (κ : Type) where
  /-- Which calls throw, by their numbers. -/
  throws : ℕ → Bool
  /-- The calls that have been made, and whether they have thrown. -/
  calls : List (κ × Bool)
  /-- How much has been created. It is numbered from 0 on. -/
  created : ℕ
  /-- What has been ended. -/
  ended : List ℕ

/-- The world before the first call. -/
def World.initial (κ : Type) (throws : ℕ → Bool) : World κ where
  throws
  calls := []
  created := 0
  ended := []

/-- What has been created has been ended once, and nothing else has been ended. -/
def World.EndedOnce {κ : Type} (w : World κ) : Prop :=
  (∀ h < w.created, w.ended.count h = 1) ∧ ∀ h ∈ w.ended, h < w.created

/-- Why a program does not go on. -/
inductive Abort where
  /-- An exception has been thrown. -/
  | thrown
  /-- What the program does is not defined. -/
  | undefined

/-- A program that makes calls. -/
def Prog (κ α : Type) : Type :=
  World κ → Except Abort α × World κ

section Programs

variable {κ α β ι : Type}

instance : Monad (Prog κ) where
  pure a := fun w ↦ (.ok a, w)
  bind p f := fun w ↦
    match p w with
    | (.ok a, w) => f a w
    | (.error e, w) => (.error e, w)

theorem bind_ok {p : Prog κ α} {a : α} {w w' : World κ} (h : p w = (.ok a, w'))
    (f : α → Prog κ β) : (p >>= f) w = f a w' := by
  show (match p w with | (.ok a, w) => f a w | (.error e, w) => (.error e, w)) = f a w'
  rw [h]

theorem bind_thrown {p : Prog κ α} {w w' : World κ} (h : p w = (.error .thrown, w'))
    (f : α → Prog κ β) : (p >>= f) w = (.error .thrown, w') := by
  show (match p w with | (.ok a, w) => f a w | (.error e, w) => (.error e, w)) = _
  rw [h]

/-- What the program does is not defined. -/
def undefined : Prog κ α := fun w ↦
  (.error .undefined, w)

/-- A call that reports an error with its result: whether there was one. -/
def attempt (c : κ) : Prog κ Bool := fun w ↦
  (.ok (w.throws w.calls.length),
    { w with calls := w.calls ++ [(c, w.throws w.calls.length)] })

/-- A call that throws if there is an error. -/
def call (c : κ) : Prog κ Unit := fun w ↦
  (if w.throws w.calls.length then .error .thrown else .ok (),
    { w with calls := w.calls ++ [(c, w.throws w.calls.length)] })

/-- Something is created. -/
def fresh : Prog κ ℕ := fun w ↦
  (.ok w.created, { w with created := w.created + 1 })

/-- Something is ended. -/
def finish (h : ℕ) : Prog κ Unit := fun w ↦
  (.ok (), { w with ended := w.ended ++ [h] })

/-- A call that creates something. -/
def create (c : κ) : Prog κ ℕ := do
  call c
  fresh

/-- A call that ends something, unless it throws. -/
def finishBy (c : κ) (h : ℕ) : Prog κ Unit := do
  call c
  finish h

/-- A call that ends something, unless it reports an error with its result. -/
def finishQuietly (c : κ) (h : ℕ) : Prog κ Bool := do
  let error ← attempt c
  if error then
    return true
  finish h
  return false

/-- `try` and `catch`. -/
def tryCatch (p handler : Prog κ α) : Prog κ α := fun w ↦
  match p w with
  | (.error .thrown, w) => handler w
  | r => r

theorem tryCatch_ok {p : Prog κ α} {a : α} {w w' : World κ} (h : p w = (.ok a, w'))
    (handler : Prog κ α) : tryCatch p handler w = (.ok a, w') := by
  rw [tryCatch, h]

theorem tryCatch_thrown {p : Prog κ α} {w w' : World κ} (h : p w = (.error .thrown, w'))
    (handler : Prog κ α) : tryCatch p handler w = handler w' := by
  rw [tryCatch, h]

/-- A loop over a list. -/
def forEach : List ι → (ι → Prog κ Unit) → Prog κ Unit
  | [], _ => pure ()
  | i :: is, p => do
    p i
    forEach is p

end Programs

/-! ### The rules -/

section Rules

variable {κ α β ι : Type} {P T U : World κ → Prop} {Q : α → World κ → Prop}
  {R : β → World κ → Prop} {p handler : Prog κ α} {w : World κ}

/-- From a world with `P`, the program leads to `Q`, and to `T` with an exception. -/
def Triple (P : World κ → Prop) (p : Prog κ α) (Q : α → World κ → Prop)
    (T : World κ → Prop) : Prop :=
  ∀ w, P w →
    match p w with
    | (.ok a, w) => Q a w
    | (.error .thrown, w) => T w
    | (.error .undefined, _) => False

theorem Triple.pure {a : α} (h : ∀ w, P w → Q a w) : Triple P (pure a) Q T :=
  h

theorem Triple.of_false : Triple (fun _ ↦ False) p Q T := fun _ h ↦
  h.elim

theorem Triple.bind {f : α → Prog κ β} (hp : Triple P p Q T) (hf : ∀ a, Triple (Q a) (f a) R T) :
    Triple P (p >>= f) R T := by
  intro w hw
  have hpw := hp w hw
  show match (match p w with | (.ok a, w) => f a w | (.error e, w) => (.error e, w)) with
    | (.ok b, w) => R b w
    | (.error .thrown, w) => T w
    | (.error .undefined, _) => False
  generalize p w = r at *
  rcases r with ⟨(_ | _) | a, w'⟩
  · exact hpw
  · exact hpw
  · exact hf a w' hpw

theorem Triple.throws (hp : Triple P p Q T) (h : ∀ w, T w → U w) : Triple P p Q U := by
  intro w hw
  have hpw := hp w hw
  generalize p w = r at *
  rcases r with ⟨(_ | _) | a, w'⟩
  · exact h w' hpw
  · exact hpw
  · exact hpw

theorem Triple.mono {Q' : α → World κ → Prop} (hp : Triple P p Q T) (h : ∀ a w, Q a w → Q' a w) :
    Triple P p Q' T := by
  intro w hw
  have hpw := hp w hw
  generalize p w = r at *
  rcases r with ⟨(_ | _) | a, w'⟩
  · exact hpw
  · exact hpw
  · exact h a w' hpw

theorem Triple.exists {P : ι → World κ → Prop} (hp : ∀ i, Triple (P i) p Q T) :
    Triple (fun w ↦ ∃ i, P i w) p Q T := fun w ⟨i, hi⟩ ↦
  hp i w hi

theorem Triple.tryCatch (hp : Triple P p Q T) (hhandler : Triple T handler Q U) :
    Triple P (tryCatch p handler) Q U := by
  intro w hw
  have hpw := hp w hw
  rw [Ownership.tryCatch]
  generalize p w = r at *
  rcases r with ⟨(_ | _) | a, w'⟩
  · exact hhandler w' hpw
  · exact hpw.elim
  · exact hpw

theorem Triple.ite {c : Prop} [Decidable c] {p q : Prog κ α} (hp : Triple P p Q T)
    (hq : Triple P q Q T) : Triple P (if c then p else q) Q T := by
  split_ifs
  · exact hp
  · exact hq

/-- The rule for a loop, whose invariant is `P`. -/
theorem Triple.forEach {is : List ι} {p : ι → Prog κ Unit}
    (hp : ∀ i, Triple P (p i) (fun _ ↦ P) T) : Triple P (forEach is p) (fun _ ↦ P) T := by
  induction is with
  | nil => exact .pure fun _ h ↦ h
  | cons i is ih => exact .bind (hp i) fun _ ↦ ih

end Rules

/-! ### Accounts -/

section Accounts

variable {κ : Type} {Leaks : κ → Prop} {own own' held lost : Multiset ℕ} {w : World κ} {c : κ}
  {h : ℕ}

/-- A call that leaks has thrown. -/
def World.Spoilt (Leaks : κ → Prop) (w : World κ) : Prop :=
  ∃ c, (c, true) ∈ w.calls ∧ Leaks c

theorem not_spoilt_initial (Leaks : κ → Prop) (throws : ℕ → Bool) :
    ¬ (World.initial κ throws).Spoilt Leaks := fun ⟨_, hmem, _⟩ ↦
  absurd hmem List.not_mem_nil

/-- One more call, which does not throw or does not leak. -/
theorem spoilt_append_iff {t : Bool} (h : t = true → ¬ Leaks c) :
    World.Spoilt Leaks { w with calls := w.calls ++ [(c, t)] } ↔ w.Spoilt Leaks := by
  constructor
  · rintro ⟨d, hmem, hleaks⟩
    rcases List.mem_append.1 hmem with hmem | hmem
    · exact ⟨d, hmem, hleaks⟩
    · obtain ⟨rfl, rfl⟩ := Prod.mk.inj (List.mem_singleton.1 hmem)
      exact absurd hleaks (h rfl)
  · rintro ⟨d, hmem, hleaks⟩
    exact ⟨d, List.mem_append_left _ hmem, hleaks⟩

/-- What has been created has been ended, or is owned, or is lost; and something is lost exactly if
a call that leaks has thrown. -/
structure Accounts (Leaks : κ → Prop) (own lost : Multiset ℕ) (w : World κ) : Prop where
  total : (w.ended : Multiset ℕ) + own + lost = Multiset.range w.created
  lost_iff : lost ≠ 0 ↔ w.Spoilt Leaks

/-- Something is lost, and `held` is still owned. -/
def Lossy (Leaks : κ → Prop) (held : Multiset ℕ) (w : World κ) : Prop :=
  ∃ lost, lost ≠ 0 ∧ Accounts Leaks held lost w

theorem accounts_initial (Leaks : κ → Prop) (throws : ℕ → Bool) :
    Accounts Leaks 0 0 (.initial κ throws) where
  total := rfl
  lost_iff := iff_of_false (fun h ↦ h rfl) (not_spoilt_initial Leaks throws)

/-- **All is ended once** exactly if no call that leaks has thrown. -/
theorem Accounts.endedOnce_iff (hw : Accounts Leaks 0 lost w) :
    w.EndedOnce ↔ ¬ w.Spoilt Leaks := by
  rw [← hw.lost_iff, not_not]
  have htotal := hw.total
  rw [add_zero] at htotal
  have hcount : ∀ h, w.ended.count h + lost.count h = (Multiset.range w.created).count h := by
    intro h
    rw [← htotal, Multiset.count_add, Multiset.coe_count]
  constructor
  · rintro ⟨honce, -⟩
    refine Multiset.eq_zero_of_forall_notMem fun h hmem ↦ ?_
    have hlt : h < w.created := by
      rw [← Multiset.mem_range, ← htotal]
      exact Multiset.mem_add.2 (Or.inr hmem)
    have hle : (Multiset.range w.created).count h ≤ 1 :=
      Multiset.nodup_iff_count_le_one.1 (Multiset.nodup_range _) h
    have hpos : 0 < lost.count h := Multiset.count_pos.2 hmem
    have hone := honce h hlt
    have hsum := hcount h
    omega
  · rintro rfl
    rw [add_zero] at htotal
    refine ⟨fun h hlt ↦ ?_, fun h hmem ↦ ?_⟩
    · rw [← Multiset.coe_count, htotal]
      exact Multiset.count_eq_one_of_mem (Multiset.nodup_range _) (Multiset.mem_range.2 hlt)
    · rw [← Multiset.mem_range, ← htotal]
      exact hmem

theorem add_ne_zero_of_left (hown : own ≠ 0) (lost : Multiset ℕ) : own + lost ≠ 0 := fun hzero ↦
  hown (Multiset.le_zero.1 (hzero ▸ Multiset.le_add_right own lost))

theorem add_singleton_ne_zero (own : Multiset ℕ) (h : ℕ) : own + {h} ≠ 0 := by
  rw [add_comm]
  exact add_ne_zero_of_left (Multiset.singleton_ne_zero h) own

/-- A call that does not throw, or does not leak. -/
theorem Accounts.call (hw : Accounts Leaks own lost w) (t : Bool) (hleaks : t = true → ¬ Leaks c) :
    Accounts Leaks own lost { w with calls := w.calls ++ [(c, t)] } where
  total := hw.total
  lost_iff := hw.lost_iff.trans (spoilt_append_iff hleaks).symm

/-- A call that leaks and throws: what only the program owns is lost. -/
theorem Accounts.lose (hw : Accounts Leaks (held + own) lost w) (hleaks : Leaks c)
    (hown : own ≠ 0) :
    Accounts Leaks held (own + lost) { w with calls := w.calls ++ [(c, true)] } where
  total := by
    rw [← hw.total]
    abel
  lost_iff := iff_of_true (add_ne_zero_of_left hown lost)
    ⟨c, List.mem_append_right _ (List.mem_singleton_self _), hleaks⟩

/-- The rule for a call that does not leak. -/
theorem triple_call (hleaks : ¬ Leaks c) :
    Triple (Accounts Leaks own lost) (call c) (fun _ ↦ Accounts Leaks own lost)
      (Accounts Leaks own lost) := by
  intro w hw
  rw [call]
  rcases w.throws w.calls.length with _ | _
  · exact hw.call _ fun h ↦ nomatch h
  · exact hw.call _ fun _ ↦ hleaks

/-- The rules for the very first call. -/
theorem triple_first_call {throws : ℕ → Bool} {T : World κ → Prop} (hfirst : throws 0 = false) :
    Triple (· = .initial κ throws) (call c) (fun _ ↦ Accounts Leaks 0 0) T := by
  rintro w rfl
  have hcall : call c (.initial κ throws) =
      (.ok (), { World.initial κ throws with calls := [(c, false)] }) := by
    simp [call, World.initial, hfirst]
  rw [hcall]
  exact (accounts_initial Leaks throws).call false fun h ↦ nomatch h

theorem triple_first_call_throws {throws : ℕ → Bool} {Q : Unit → World κ → Prop}
    (hfirst : throws 0 = true) (hleaks : ¬ Leaks c) :
    Triple (· = .initial κ throws) (call c) Q (Accounts Leaks 0 0) := by
  rintro w rfl
  have hcall : call c (.initial κ throws) =
      (.error .thrown, { World.initial κ throws with calls := [(c, true)] }) := by
    simp [call, World.initial, hfirst]
  rw [hcall]
  exact (accounts_initial Leaks throws).call true fun _ ↦ hleaks

/-- The rule for a call that leaks. -/
theorem triple_call_leaks (hleaks : Leaks c) (hown : own ≠ 0) :
    Triple (Accounts Leaks (held + own) lost) (call c) (fun _ ↦ Accounts Leaks (held + own) lost)
      (Lossy Leaks held) := by
  intro w hw
  rw [call]
  rcases w.throws w.calls.length with _ | _
  · exact hw.call _ fun h ↦ nomatch h
  · exact ⟨_, add_ne_zero_of_left hown lost, hw.lose hleaks hown⟩

theorem triple_fresh {T : World κ → Prop} :
    Triple (Accounts Leaks own lost) fresh (fun h ↦ Accounts Leaks (own + {h}) lost) T := by
  intro w hw
  refine ⟨?_, hw.lost_iff⟩
  rw [Multiset.range_succ, ← hw.total, ← Multiset.singleton_add]
  abel

theorem triple_finish {T : World κ → Prop} (hown : own = own' + {h}) :
    Triple (Accounts Leaks own lost) (finish h) (fun _ ↦ Accounts Leaks own' lost) T := by
  intro w hw
  refine ⟨?_, hw.lost_iff⟩
  rw [← hw.total, hown, ← Multiset.coe_add, Multiset.coe_singleton]
  abel

theorem triple_finishQuietly {T : World κ → Prop} (hleaks : ¬ Leaks c) (hown : own = own' + {h}) :
    Triple (Accounts Leaks own lost) (finishQuietly c h)
      (fun error ↦ Accounts Leaks (if error then own else own') lost) T := by
  refine .bind (Q := fun _ ↦ Accounts Leaks own lost) (fun w hw ↦ hw.call _ fun _ ↦ hleaks)
    fun error ↦ ?_
  rcases error with _ | _
  · exact .bind (triple_finish hown) fun _ ↦ .pure fun _ hw ↦ hw
  · exact .pure fun _ hw ↦ hw

/-- The rules for calls that create or end something, and leak. -/
theorem triple_create_leaks (hleaks : Leaks c) (hown : own ≠ 0) :
    Triple (Accounts Leaks (held + own) lost) (create c)
      (fun h ↦ Accounts Leaks (held + (own + {h})) lost) (Lossy Leaks held) := by
  refine .bind (triple_call_leaks hleaks hown) fun _ ↦ ?_
  simp only [← add_assoc]
  exact triple_fresh

theorem triple_finishBy_leaks (hleaks : Leaks c) (hown : own = own' + {h}) :
    Triple (Accounts Leaks (held + own) lost) (finishBy c h)
      (fun _ ↦ Accounts Leaks (held + own') lost) (Lossy Leaks held) := by
  refine .bind (triple_call_leaks hleaks ?_) fun _ ↦ triple_finish ?_
  · rw [hown]
    exact add_singleton_ne_zero own' h
  · rw [hown, add_assoc]

end Accounts

/-! ### Steady and guarded programs -/

section Outcomes

variable {κ α β ι : Type} {Leaks : κ → Prop} {P : World κ → Prop} {p : Prog κ α} {c : κ}
  {throws : ℕ → Bool} {n k k' m : ℕ} {w w' w'' : World κ}

/-- None of the `k` calls from the number `n` on throws. -/
def QuietFrom (throws : ℕ → Bool) (n k : ℕ) : Prop :=
  ∀ i < k, throws (n + i) = false

/-- The first one that throws, of the `k` calls from the number `n` on. -/
def firstThrow (throws : ℕ → Bool) (n k : ℕ) : Option ℕ :=
  (List.range' n k).find? throws

theorem quietFrom_zero (throws : ℕ → Bool) (n : ℕ) : QuietFrom throws n 0 := fun i h ↦
  absurd h (Nat.not_lt_zero i)

theorem quietFrom_one : QuietFrom throws n 1 ↔ throws n = false := by
  refine ⟨fun h ↦ h 0 Nat.one_pos, fun h i hi ↦ ?_⟩
  obtain rfl := Nat.lt_one_iff.1 hi
  exact h

theorem quietFrom_add :
    QuietFrom throws n (k + k') ↔ QuietFrom throws n k ∧ QuietFrom throws (n + k) k' := by
  constructor
  · intro h
    refine ⟨fun i hi ↦ h i (by omega), fun i hi ↦ ?_⟩
    rw [Nat.add_assoc]
    exact h (k + i) (by omega)
  · rintro ⟨hfirst, hsecond⟩ i hi
    rcases Nat.lt_or_ge i k with hlt | hge
    · exact hfirst i hlt
    · have hthrows := hsecond (i - k) (by omega)
      rwa [Nat.add_assoc, Nat.add_sub_cancel' hge] at hthrows

theorem firstThrow_one (throws : ℕ → Bool) (n : ℕ) :
    firstThrow throws n 1 = if throws n then some n else none := by
  rw [firstThrow, List.range'_one, List.find?_singleton]

theorem firstThrow_add (throws : ℕ → Bool) (n k k' : ℕ) :
    firstThrow throws n (k + k') = (firstThrow throws n k).or (firstThrow throws (n + k) k') := by
  rw [firstThrow, ← List.range'_append_1, List.find?_append]
  rfl

/-- From `w` to the call number `n`, where no call that leaks has thrown in between. -/
structure World.Later (Leaks : κ → Prop) (w : World κ) (n : ℕ) (w' : World κ) : Prop where
  throws : w'.throws = w.throws
  length : w'.calls.length = n
  spoilt : w'.Spoilt Leaks ↔ w.Spoilt Leaks

theorem World.Later.trans (h : w.Later Leaks n w') (h' : w'.Later Leaks m w'') :
    w.Later Leaks m w'' where
  throws := h'.throws.trans h.throws
  length := h'.length
  spoilt := h'.spoilt.trans h.spoilt

/-- A call that does not throw, or does not leak. -/
theorem World.later_call {t : Bool} (w : World κ) (h : t = true → ¬ Leaks c) :
    w.Later Leaks (w.calls.length + 1) { w with calls := w.calls ++ [(c, t)] } where
  throws := rfl
  length := by rw [List.length_append, List.length_singleton]
  spoilt := spoilt_append_iff h

/-- The program returns in front of the call number `n`. -/
def Returns (Leaks : κ → Prop) (p : Prog κ α) (w : World κ) (n : ℕ) : Prop :=
  ∃ a w', p w = (.ok a, w') ∧ w.Later Leaks n w'

/-- The program throws in front of the call number `n`, with the exception of a call that does not
leak. -/
def Passes (Leaks : κ → Prop) (p : Prog κ α) (w : World κ) (n : ℕ) : Prop :=
  ∃ w', p w = (.error .thrown, w') ∧ w.Later Leaks n w'

/-- The program throws, with the exception of a call that leaks. -/
def Spoils (Leaks : κ → Prop) (p : Prog κ α) (w : World κ) : Prop :=
  ∃ w', p w = (.error .thrown, w') ∧ w'.Spoilt Leaks

variable {f : α → Prog κ β}

theorem Returns.bind (hp : Returns Leaks p w n)
    (hf : ∀ a w', w.Later Leaks n w' → Returns Leaks (f a) w' m) :
    Returns Leaks (p >>= f) w m := by
  obtain ⟨a, w', hrun, hlater⟩ := hp
  obtain ⟨b, w'', hrun', hlater'⟩ := hf a w' hlater
  exact ⟨b, w'', by rw [bind_ok hrun, hrun'], hlater.trans hlater'⟩

theorem Returns.bind_passes (hp : Returns Leaks p w n)
    (hf : ∀ a w', w.Later Leaks n w' → Passes Leaks (f a) w' m) :
    Passes Leaks (p >>= f) w m := by
  obtain ⟨a, w', hrun, hlater⟩ := hp
  obtain ⟨w'', hrun', hlater'⟩ := hf a w' hlater
  exact ⟨w'', by rw [bind_ok hrun, hrun'], hlater.trans hlater'⟩

theorem Returns.bind_spoils (hp : Returns Leaks p w n)
    (hf : ∀ a w', w.Later Leaks n w' → Spoils Leaks (f a) w') : Spoils Leaks (p >>= f) w := by
  obtain ⟨a, w', hrun, hlater⟩ := hp
  obtain ⟨w'', hrun', hspoilt⟩ := hf a w' hlater
  exact ⟨w'', by rw [bind_ok hrun, hrun'], hspoilt⟩

theorem Passes.bind (hp : Passes Leaks p w n) : Passes Leaks (p >>= f) w n := by
  obtain ⟨w', hrun, hlater⟩ := hp
  exact ⟨w', bind_thrown hrun f, hlater⟩

theorem Spoils.bind (hp : Spoils Leaks p w) : Spoils Leaks (p >>= f) w := by
  obtain ⟨w', hrun, hspoilt⟩ := hp
  exact ⟨w', bind_thrown hrun f, hspoilt⟩

/-- **A steady program** makes `k` calls, all of which leak: it returns if none of them throws, and
passes on the exception of the first one that does. -/
structure Steady (Leaks : κ → Prop) (P : World κ → Prop) (k : ℕ) (p : Prog κ α) : Prop where
  returns : ∀ w, P w → QuietFrom w.throws w.calls.length k →
    Returns Leaks p w (w.calls.length + k)
  spoils : ∀ w, P w → ¬ QuietFrom w.throws w.calls.length k → Spoils Leaks p w

/-- **A guarded program** makes `k` calls, none of which leaks. -/
structure Guarded (Leaks : κ → Prop) (k : ℕ) (p : Prog κ α) : Prop where
  returns : ∀ w, firstThrow w.throws w.calls.length k = none →
    Returns Leaks p w (w.calls.length + k)
  passes : ∀ w n, firstThrow w.throws w.calls.length k = some n → Passes Leaks p w (n + 1)

namespace Steady

theorem of_eq (h : Steady Leaks P k p) (hk : k = k') : Steady Leaks P k' p :=
  hk ▸ h

/-- A program that only returns. -/
theorem of_zero (h : ∀ w, Returns Leaks p w w.calls.length) : Steady Leaks P 0 p where
  returns := fun w _ _ ↦ h w
  spoils := fun _ _ hnot ↦ absurd (quietFrom_zero _ _) hnot

theorem pure (a : α) : Steady Leaks P 0 (pure a : Prog κ α) :=
  of_zero fun w ↦ ⟨a, w, rfl, rfl, rfl, Iff.rfl⟩

/-- The rule for one program after another. -/
theorem bind (hp : Steady Leaks P k p) (hf : ∀ a, Steady Leaks (fun _ ↦ True) k' (f a)) :
    Steady Leaks P (k + k') (p >>= f) where
  returns := by
    intro w hw hquiet
    rw [quietFrom_add] at hquiet
    refine (hp.returns w hw hquiet.1).bind fun a w' hlater ↦ ?_
    have hreturns := (hf a).returns w' trivial
    rw [hlater.throws, hlater.length, Nat.add_assoc] at hreturns
    exact hreturns hquiet.2
  spoils := by
    intro w hw hnot
    rw [quietFrom_add, not_and] at hnot
    by_cases hquiet : QuietFrom w.throws w.calls.length k
    · refine (hp.returns w hw hquiet).bind_spoils fun a w' hlater ↦ ?_
      refine (hf a).spoils w' trivial ?_
      rw [hlater.throws, hlater.length]
      exact hnot hquiet
    · exact (hp.spoils w hw hquiet).bind

/-- The rule for a loop. -/
theorem forEach (is : List ι) {p : ι → Prog κ Unit}
    (hp : ∀ i, Steady Leaks (fun _ ↦ True) k (p i)) :
    Steady Leaks (fun _ ↦ True) (is.length * k) (forEach is p) := by
  induction is with
  | nil => exact (pure ()).of_eq (Nat.zero_mul k).symm
  | cons i is ih =>
    refine ((hp i).bind fun _ ↦ ih).of_eq ?_
    rw [List.length_cons, Nat.succ_mul, Nat.add_comm]

theorem ite {b : Prop} [Decidable b] {p q : Prog κ α} (hp : Steady Leaks P k p)
    (hq : Steady Leaks P k' q) :
    Steady Leaks P (if b then k else k') (if b then p else q) := by
  split_ifs
  · exact hp
  · exact hq

/-- The rule for a call that leaks. -/
theorem call (hleaks : Leaks c) : Steady Leaks P 1 (call c) where
  returns := by
    intro w _ hquiet
    rw [quietFrom_one] at hquiet
    refine ⟨(), { w with calls := w.calls ++ [(c, false)] }, ?_, w.later_call fun h ↦ nomatch h⟩
    rw [Ownership.call, hquiet]
    rfl
  spoils := by
    intro w _ hnot
    rw [quietFrom_one, Bool.not_eq_false] at hnot
    refine ⟨{ w with calls := w.calls ++ [(c, true)] }, ?_, c,
      List.mem_append_right _ (List.mem_singleton_self _), hleaks⟩
    rw [Ownership.call, hnot]
    rfl

/-- The rule for the very first call, if it does not throw. -/
theorem first_call (hfirst : throws 0 = false) :
    Steady Leaks (· = .initial κ throws) 1 (Ownership.call c) where
  returns := by
    rintro w rfl -
    refine ⟨(), { World.initial κ throws with calls := [(c, false)] }, ?_,
      World.later_call (.initial κ throws) fun h ↦ nomatch h⟩
    simp [Ownership.call, World.initial, hfirst]
  spoils := by
    rintro w rfl hnot
    rw [quietFrom_one] at hnot
    exact absurd hfirst hnot

theorem fresh : Steady Leaks P 0 (fresh : Prog κ ℕ) :=
  of_zero fun _ ↦ ⟨_, _, rfl, rfl, rfl, Iff.rfl⟩

theorem finish (h : ℕ) : Steady Leaks P 0 (finish h : Prog κ Unit) :=
  of_zero fun _ ↦ ⟨_, _, rfl, rfl, rfl, Iff.rfl⟩

theorem create (hleaks : Leaks c) : Steady Leaks P 1 (create c) :=
  (call hleaks).bind fun _ ↦ fresh

theorem finishBy (hleaks : Leaks c) (h : ℕ) : Steady Leaks P 1 (finishBy c h) :=
  (call hleaks).bind fun _ ↦ finish h

end Steady

namespace Guarded

/-- The rule for a call that does not leak. -/
theorem call (hleaks : ¬ Leaks c) : Guarded Leaks 1 (call c) where
  returns := by
    intro w hnone
    rw [firstThrow_one] at hnone
    split_ifs at hnone with hthrows
    rw [Bool.not_eq_true] at hthrows
    refine ⟨(), { w with calls := w.calls ++ [(c, false)] }, ?_, w.later_call fun _ ↦ hleaks⟩
    rw [Ownership.call, hthrows]
    rfl
  passes := by
    intro w n hsome
    rw [firstThrow_one] at hsome
    split_ifs at hsome with hthrows
    obtain rfl := Option.some.inj hsome
    refine ⟨{ w with calls := w.calls ++ [(c, true)] }, ?_, w.later_call fun _ ↦ hleaks⟩
    rw [Ownership.call, hthrows]
    rfl

theorem bind (hp : Guarded Leaks k p) (hf : ∀ a, Guarded Leaks k' (f a)) :
    Guarded Leaks (k + k') (p >>= f) where
  returns := by
    intro w hnone
    rw [firstThrow_add, Option.or_eq_none_iff] at hnone
    refine (hp.returns w hnone.1).bind fun a w' hlater ↦ ?_
    have hreturns := (hf a).returns w'
    rw [hlater.throws, hlater.length, Nat.add_assoc] at hreturns
    exact hreturns hnone.2
  passes := by
    intro w n hsome
    rw [firstThrow_add] at hsome
    rcases hthrow : firstThrow w.throws w.calls.length k with _ | m
    · rw [hthrow, Option.none_or] at hsome
      refine (hp.returns w hthrow).bind_passes fun a w' hlater ↦ ?_
      refine (hf a).passes w' n ?_
      rw [hlater.throws, hlater.length, hsome]
    · rw [hthrow, Option.some_or] at hsome
      obtain rfl := Option.some.inj hsome
      exact (hp.passes w m hthrow).bind

/-- A call that creates something, and does not leak. -/
theorem create (hleaks : ¬ Leaks c) : Guarded Leaks 1 (create c) where
  returns := fun w hnone ↦ ((call hleaks).returns w hnone).bind fun _ w' hlater ↦
    ⟨_, { w' with created := w'.created + 1 }, rfl, rfl, hlater.length, Iff.rfl⟩
  passes := fun w n hsome ↦ ((call hleaks).passes w n hsome).bind

end Guarded

/-! ### `try` and `catch` -/

variable {handler : Prog κ α}

theorem Returns.tryCatch (hp : Returns Leaks p w n) : Returns Leaks (tryCatch p handler) w n := by
  obtain ⟨a, w', hrun, hlater⟩ := hp
  exact ⟨a, w', tryCatch_ok hrun handler, hlater⟩

/-- The handler goes on behind the call that has thrown. -/
theorem Passes.tryCatch (hp : Passes Leaks p w n)
    (hhandler : ∀ w', w.Later Leaks n w' → Returns Leaks handler w' m) :
    Returns Leaks (tryCatch p handler) w m := by
  obtain ⟨w', hrun, hlater⟩ := hp
  obtain ⟨a, w'', hrun', hlater'⟩ := hhandler w' hlater
  exact ⟨a, w'', (tryCatch_thrown hrun handler).trans hrun', hlater.trans hlater'⟩

theorem Passes.tryCatch_spoils (hp : Passes Leaks p w n)
    (hhandler : ∀ w', w.Later Leaks n w' → Spoils Leaks handler w') :
    Spoils Leaks (Ownership.tryCatch p handler) w := by
  obtain ⟨w', hrun, hlater⟩ := hp
  obtain ⟨w'', hrun', hspoilt⟩ := hhandler w' hlater
  exact ⟨w'', (tryCatch_thrown hrun handler).trans hrun', hspoilt⟩

end Outcomes

end Ownership
