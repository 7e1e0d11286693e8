import Mathlib.Data.Int.Notation
import Mathlib.Data.List.Basic
import Mathlib.Data.Nat.Notation

/-!
# Programs that read a stream

A sequential program that consumes a stream of symbols in requests of a stated size, performs
visible actions in between, and ends with a value or an exception. Nothing here says where the
symbols come from: a program is a tree that branches on the symbols it is handed
(`StreamProgram.take`), so whoever runs it decides how they arrive.

The reference meaning is `Runs p cs ws q`: handed exactly the symbols `cs`, in the sizes it asks
for, the program `p` performs the actions `ws` and becomes `q`. Everything a concurrent driver has
to know about a program is in three facts:

* `Runs.trans` and `Runs.bind` — runs compose, along time and along sequencing;
* `Runs.comparable` — a program is deterministic: two runs on prefixes of one stream lie on a
  single path;
* `Runs.bind_cases_of_done` — while a program that is known to read exactly `w` is being run in
  front of another one, either it is still inside `w` and has done nothing visible, or all of `w`
  is gone and the second one is running.

A request may be negative. `Runs` has no rule for it, which is the point: a driver that must
answer one is outside the reference meaning.
-/

/-- A program over a stream of symbols `β`, with actions `ω`, exceptions `χ` and result `α`. -/
inductive StreamProgram (β ω χ α : Type) : Type where
  /-- The program has returned. -/
  | done (a : α)
  /-- The program has thrown. -/
  | fail (e : χ)
  /-- Request `n` symbols and continue with them. -/
  | take (n : ℤ) (k : List β → StreamProgram β ω χ α)
  /-- Perform an action and continue. -/
  | act (w : ω) (k : StreamProgram β ω χ α)

namespace StreamProgram

variable {β ω χ α γ : Type}

/-! ### Sequencing and exceptions -/

/-- Run a program and continue with its result. -/
protected def bind : StreamProgram β ω χ α → (α → StreamProgram β ω χ γ) → StreamProgram β ω χ γ
  | done a, f => f a
  | fail e, _ => fail e
  | take n k, f => take n fun d ↦ (k d).bind f
  | act w k, f => act w (k.bind f)

instance : Monad (StreamProgram β ω χ) where
  pure := done
  bind := StreamProgram.bind

@[simp] theorem take_bind (n : ℤ) (k : List β → StreamProgram β ω χ α)
    (f : α → StreamProgram β ω χ γ) : take n k >>= f = take n fun d ↦ k d >>= f := rfl

@[simp] theorem act_bind (w : ω) (k : StreamProgram β ω χ α) (f : α → StreamProgram β ω χ γ) :
    act w k >>= f = act w (k >>= f) := rfl

instance : LawfulMonad (StreamProgram β ω χ) := by
  refine LawfulMonad.mk' _ ?_ (fun _ _ ↦ rfl) ?_
  · intro α p
    induction p with
    | done a => rfl
    | fail e => rfl
    | take n k ih => exact congrArg (take n) (funext ih)
    | act w k ih => exact congrArg (act w) ih
  · intro α γ δ p f g
    induction p with
    | done a => rfl
    | fail e => rfl
    | take n k ih => exact congrArg (take n) (funext ih)
    | act w k ih => exact congrArg (act w) ih

/-- Request `n` symbols and return them. -/
def request (n : ℤ) : StreamProgram β ω χ (List β) :=
  take n done

/-- Perform an action. -/
def perform (w : ω) : StreamProgram β ω χ PUnit :=
  act w (done ⟨⟩)

/-- Catch the exception of a program. -/
def attempt : StreamProgram β ω χ α → StreamProgram β ω χ (Except χ α)
  | done a => done (.ok a)
  | fail e => done (.error e)
  | take n k => take n fun d ↦ (k d).attempt
  | act w k => act w k.attempt

/-- The program that has ended with a given outcome. -/
def ended : Except χ α → StreamProgram β ω χ α
  | .ok a => done a
  | .error e => fail e

/-- The outcome of a program that has ended. -/
def outcome : StreamProgram β ω χ α → Option (Except χ α)
  | done a => some (.ok a)
  | fail e => some (.error e)
  | take _ _ => none
  | act _ _ => none

@[simp] theorem outcome_ended (r : Except χ α) :
    (ended r : StreamProgram β ω χ α).outcome = some r := by
  cases r <;> rfl

theorem eq_ended_of_outcome {p : StreamProgram β ω χ α} {r : Except χ α}
    (h : p.outcome = some r) : p = ended r := by
  cases p with
  | done a => obtain rfl := Option.some.inj h; rfl
  | fail e => obtain rfl := Option.some.inj h; rfl
  | take n k => exact absurd h (by simp [outcome])
  | act w k => exact absurd h (by simp [outcome])

/-! ### Runs -/

/-- Handed exactly `cs`, the program performs `ws` and becomes the last argument. -/
inductive Runs : StreamProgram β ω χ α → List β → List ω → StreamProgram β ω χ α → Prop where
  | refl (p : StreamProgram β ω χ α) : Runs p [] [] p
  | take {n : ℤ} {k : List β → StreamProgram β ω χ α} {d cs : List β} {ws : List ω}
      {q : StreamProgram β ω χ α} (hd : (d.length : ℤ) = n) (h : Runs (k d) cs ws q) :
      Runs (.take n k) (d ++ cs) ws q
  | act {w : ω} {k q : StreamProgram β ω χ α} {cs : List β} {ws : List ω}
      (h : Runs k cs ws q) : Runs (.act w k) cs (w :: ws) q

theorem Runs.trans {p q r : StreamProgram β ω χ α} {cs ds : List β} {ws vs : List ω}
    (h : Runs p cs ws q) (h' : Runs q ds vs r) : Runs p (cs ++ ds) (ws ++ vs) r := by
  induction h with
  | refl p => exact h'
  | take hd _ ih =>
    rw [List.append_assoc]
    exact .take hd (ih h')
  | act _ ih => exact .act (ih h')

/-- One request, granted. -/
theorem Runs.grant {p : StreamProgram β ω χ α} {n : ℤ} {k : List β → StreamProgram β ω χ α}
    {cs d : List β} {ws : List ω} (h : Runs p cs ws (.take n k)) (hd : (d.length : ℤ) = n) :
    Runs p (cs ++ d) ws (k d) := by
  have := h.trans (.take hd (.refl (k d)))
  rwa [List.append_nil, List.append_nil] at this

/-- One action, performed. -/
theorem Runs.perform {p k : StreamProgram β ω χ α} {w : ω} {cs : List β} {ws : List ω}
    (h : Runs p cs ws (.act w k)) : Runs p cs (ws ++ [w]) k := by
  have := h.trans (.act (.refl k))
  rwa [List.append_nil] at this

/-- Runs compose along sequencing. -/
theorem Runs.bind {p q : StreamProgram β ω χ α} {cs : List β} {ws : List ω} (h : Runs p cs ws q)
    (f : α → StreamProgram β ω χ γ) : Runs (p >>= f) cs ws (q >>= f) := by
  induction h with
  | refl p => exact .refl _
  | take hd _ ih => exact .take hd ih
  | act _ ih => exact .act ih

/-- A finished first part hands over to the second. -/
theorem Runs.bind_done {p : StreamProgram β ω χ α} {a : α} {f : α → StreamProgram β ω χ γ}
    {q : StreamProgram β ω χ γ} {cs ds : List β} {ws vs : List ω} (h : Runs p cs ws (.done a))
    (h' : Runs (f a) ds vs q) : Runs (p >>= f) (cs ++ ds) (ws ++ vs) q :=
  (h.bind f).trans h'

theorem runs_done_iff {a : α} {cs : List β} {ws : List ω} {q : StreamProgram β ω χ α} :
    Runs (.done a) cs ws q ↔ cs = [] ∧ ws = [] ∧ q = .done a := by
  constructor
  · rintro ⟨⟩
    exact ⟨rfl, rfl, rfl⟩
  · rintro ⟨rfl, rfl, rfl⟩
    exact .refl _

theorem runs_fail_iff {e : χ} {cs : List β} {ws : List ω} {q : StreamProgram β ω χ α} :
    Runs (.fail e) cs ws q ↔ cs = [] ∧ ws = [] ∧ q = .fail e := by
  constructor
  · rintro ⟨⟩
    exact ⟨rfl, rfl, rfl⟩
  · rintro ⟨rfl, rfl, rfl⟩
    exact .refl _

theorem runs_ended_iff {r : Except χ α} {cs : List β} {ws : List ω} {q : StreamProgram β ω χ α} :
    Runs (ended r) cs ws q ↔ cs = [] ∧ ws = [] ∧ q = ended r := by
  cases r with
  | ok a => exact runs_done_iff
  | error e => exact runs_fail_iff

/-- A run that ends grants a pending request first. -/
theorem Runs.exists_grant {n : ℤ} {k : List β → StreamProgram β ω χ α} {cs : List β} {ws : List ω}
    {a : α} (h : Runs (.take n k) cs ws (.done a)) :
    ∃ d ds, (d.length : ℤ) = n ∧ cs = d ++ ds ∧ Runs (k d) ds ws (.done a) := by
  generalize hq : (done a : StreamProgram β ω χ α) = q at h
  cases h with
  | refl => cases hq
  | take hd h =>
    subst hq
    exact ⟨_, _, hd, rfl, h⟩

/-- A request that is granted on the way to an end is not negative. -/
theorem Runs.nonneg_of_ended {n : ℤ} {k : List β → StreamProgram β ω χ α} {cs : List β}
    {ws : List ω} {r : Except χ α} (h : Runs (.take n k) cs ws (ended r)) : 0 ≤ n := by
  generalize hq : (ended r : StreamProgram β ω χ α) = q at h
  cases h with
  | refl => cases r <;> cases hq
  | take hd _ => omega

/-- The program performs no action, whatever it reads. -/
def Silent : StreamProgram β ω χ α → Prop
  | done _ => True
  | fail _ => True
  | take _ k => ∀ d, (k d).Silent
  | act _ _ => False

theorem Silent.bind {p : StreamProgram β ω χ α} {f : α → StreamProgram β ω χ γ} (h : p.Silent)
    (hf : ∀ a, (f a).Silent) : (p >>= f).Silent := by
  induction p with
  | done a => exact hf a
  | fail e => trivial
  | take n k ih => exact fun d ↦ ih d (h d)
  | act w k => exact h.elim

theorem Silent.attempt {p : StreamProgram β ω χ α} (h : p.Silent) : p.attempt.Silent := by
  induction p with
  | done a => trivial
  | fail e => trivial
  | take n k ih => exact fun d ↦ ih d (h d)
  | act w k => exact h.elim

theorem Runs.eq_nil_of_silent {p q : StreamProgram β ω χ α} {cs : List β} {ws : List ω}
    (h : Runs p cs ws q) (hp : p.Silent) : ws = [] := by
  induction h with
  | refl p => rfl
  | take _ _ ih => exact ih (hp _)
  | act _ _ => exact hp.elim

/-- **Determinism.** Two runs of one program on prefixes of one stream lie on a single path. -/
theorem Runs.comparable {p q q' : StreamProgram β ω χ α} {cs cs' s s' : List β} {ws ws' : List ω}
    (h : Runs p cs ws q) (h' : Runs p cs' ws' q') (hs : cs ++ s = cs' ++ s') :
    (∃ ds vs, Runs q ds vs q' ∧ cs' = cs ++ ds ∧ ws' = ws ++ vs) ∨
      ∃ ds vs, Runs q' ds vs q ∧ cs = cs' ++ ds ∧ ws = ws' ++ vs := by
  induction h generalizing cs' ws' with
  | refl p => exact Or.inl ⟨cs', ws', h', rfl, rfl⟩
  | @take n k d cs ws q hd h ih =>
    cases h' with
    | refl => exact Or.inr ⟨_, _, .take hd h, rfl, rfl⟩
    | @take _ _ d' cs' _ _ hd' h' =>
      rw [List.append_assoc, List.append_assoc] at hs
      obtain ⟨rfl, hrest⟩ := List.append_inj hs (by omega)
      rcases ih h' hrest with ⟨ds, vs, hrun, rfl, rfl⟩ | ⟨ds, vs, hrun, rfl, rfl⟩
      · exact Or.inl ⟨ds, vs, hrun, (List.append_assoc ..).symm, rfl⟩
      · exact Or.inr ⟨ds, vs, hrun, (List.append_assoc ..).symm, rfl⟩
  | @act w k q cs ws h ih =>
    cases h' with
    | refl => exact Or.inr ⟨_, _, .act h, rfl, rfl⟩
    | act h' =>
      rcases ih h' hs with ⟨ds, vs, hrun, rfl, rfl⟩ | ⟨ds, vs, hrun, rfl, rfl⟩
      · exact Or.inl ⟨ds, vs, hrun, rfl, rfl⟩
      · exact Or.inr ⟨ds, vs, hrun, rfl, rfl⟩

/-- A run on a prefix of what the program reads on its way to an end can be completed. -/
theorem Runs.completes {p q : StreamProgram β ω χ α} {cs w s s' : List β} {ws vs : List ω}
    {r : Except χ α} (href : Runs p w vs (ended r)) (h : Runs p cs ws q)
    (hs : cs ++ s = w ++ s') :
    ∃ ds us, Runs q ds us (ended r) ∧ w = cs ++ ds ∧ vs = ws ++ us := by
  rcases h.comparable href hs with hle | ⟨ds, us, hrun, rfl, rfl⟩
  · exact hle
  · obtain ⟨rfl, rfl, rfl⟩ := runs_ended_iff.1 hrun
    exact ⟨[], [], .refl _, by simp, by simp⟩

/-! ### Running two programs in a row -/

theorem Runs.bind_cases {p : StreamProgram β ω χ α} {f : α → StreamProgram β ω χ γ}
    {cs : List β} {ws : List ω} {q : StreamProgram β ω χ γ} (h : Runs (p >>= f) cs ws q) :
    (∃ p', Runs p cs ws p' ∧ q = p' >>= f) ∨
      ∃ a cs₁ ws₁ cs₂ ws₂, Runs p cs₁ ws₁ (.done a) ∧ Runs (f a) cs₂ ws₂ q ∧
        cs = cs₁ ++ cs₂ ∧ ws = ws₁ ++ ws₂ := by
  induction p generalizing cs ws with
  | done a => exact Or.inr ⟨a, [], [], cs, ws, .refl _, h, rfl, rfl⟩
  | fail e =>
    obtain ⟨rfl, rfl, rfl⟩ := runs_fail_iff.1 h
    exact Or.inl ⟨.fail e, .refl _, rfl⟩
  | take n k ih =>
    rw [take_bind] at h
    cases h with
    | refl => exact Or.inl ⟨.take n k, .refl _, rfl⟩
    | @take _ _ d cs _ _ hd h =>
      rcases ih d h with ⟨p', hp, rfl⟩ | ⟨a, cs₁, ws₁, cs₂, ws₂, hp, hf, rfl, rfl⟩
      · exact Or.inl ⟨p', .take hd hp, rfl⟩
      · exact Or.inr ⟨a, d ++ cs₁, ws₁, cs₂, ws₂, .take hd hp, hf, by rw [List.append_assoc], rfl⟩
  | act w k ih =>
    rw [act_bind] at h
    cases h with
    | refl => exact Or.inl ⟨.act w k, .refl _, rfl⟩
    | act h =>
      rcases ih h with ⟨p', hp, rfl⟩ | ⟨a, cs₁, ws₁, cs₂, ws₂, hp, hf, rfl, rfl⟩
      · exact Or.inl ⟨p', .act hp, rfl⟩
      · exact Or.inr ⟨a, cs₁, w :: ws₁, cs₂, ws₂, .act hp, hf, rfl, rfl⟩

/-- **A silent parser in front of a continuation.** If `p` reads exactly `w`, silently, and
returns `a`, then a run of `p >>= f` on the stream `w ++ s'` is either inside `w` — nothing visible
has happened, and what is left of `p` still reads the rest of `w` — or past it and inside `f a`. -/
theorem Runs.bind_cases_of_done {p : StreamProgram β ω χ α} {f : α → StreamProgram β ω χ γ}
    {w cs s s' : List β} {ws : List ω} {a : α} {q : StreamProgram β ω χ γ}
    (href : Runs p w [] (.done a)) (h : Runs (p >>= f) cs ws q) (hs : cs ++ s = w ++ s') :
    (∃ p' ds, Runs p' ds [] (.done a) ∧ w = cs ++ ds ∧ ws = [] ∧ q = p' >>= f) ∨
      ∃ cs', cs = w ++ cs' ∧ Runs (f a) cs' ws q := by
  have href' : Runs p w [] (ended (.ok a)) := href
  rcases h.bind_cases with ⟨p', hp, rfl⟩ | ⟨a', cs₁, ws₁, cs₂, ws₂, hp, hf, rfl, rfl⟩
  · obtain ⟨ds, us, hrun, rfl, hnil⟩ := href'.completes hp hs
    obtain ⟨rfl, rfl⟩ := List.append_eq_nil_iff.1 hnil.symm
    exact Or.inl ⟨p', ds, hrun, rfl, rfl, rfl⟩
  · obtain ⟨ds, us, hrun, rfl, hnil⟩ := href'.completes hp (by rw [← hs, List.append_assoc])
    obtain ⟨rfl, rfl⟩ := List.append_eq_nil_iff.1 hnil.symm
    obtain ⟨rfl, -, hdone⟩ := runs_done_iff.1 hrun
    obtain rfl : a = a' := by injection hdone
    exact Or.inr ⟨cs₂, by rw [List.append_nil], hf⟩

/-- The same when the parser throws: the continuation is never reached. -/
theorem Runs.bind_cases_of_fail {p : StreamProgram β ω χ α} {f : α → StreamProgram β ω χ γ}
    {w cs s s' : List β} {ws : List ω} {e : χ} {q : StreamProgram β ω χ γ}
    (href : Runs p w [] (.fail e)) (h : Runs (p >>= f) cs ws q) (hs : cs ++ s = w ++ s') :
    ∃ p' ds, Runs p' ds [] (.fail e) ∧ w = cs ++ ds ∧ ws = [] ∧ q = p' >>= f := by
  have href' : Runs p w [] (ended (.error e)) := href
  rcases h.bind_cases with ⟨p', hp, rfl⟩ | ⟨a', cs₁, ws₁, cs₂, ws₂, hp, hf, rfl, rfl⟩
  · obtain ⟨ds, us, hrun, rfl, hnil⟩ := href'.completes hp hs
    obtain ⟨rfl, rfl⟩ := List.append_eq_nil_iff.1 hnil.symm
    exact ⟨p', ds, hrun, rfl, rfl, rfl⟩
  · obtain ⟨ds, us, hrun, -, -⟩ := href'.completes hp (by rw [← hs, List.append_assoc])
    obtain ⟨-, -, hdone⟩ := runs_done_iff.1 hrun
    cases hdone

/-! ### Exact readers -/

/-- The program waits for input, asking for a number of symbols that can be granted, or it has
thrown. -/
def Parsing (p : StreamProgram β ω χ α) : Prop :=
  (∃ n k, p = take n k ∧ 0 ≤ n) ∨ ∃ e, p = fail e

/-- A silent run on the way to an end is parsing until it gets there. -/
theorem Runs.parsing_or_done {p : StreamProgram β ω χ α} {cs : List β} {r : Except χ α}
    (h : Runs p cs [] (ended r)) : p.Parsing ∨ ∃ a, p = done a ∧ cs = [] ∧ r = .ok a := by
  cases p with
  | done a =>
    obtain ⟨rfl, -, hr⟩ := runs_done_iff.1 h
    rcases r with e | a'
    · cases hr
    · obtain rfl : a' = a := by injection hr
      exact Or.inr ⟨a', rfl, rfl, rfl⟩
  | fail e => exact Or.inl (Or.inr ⟨e, rfl⟩)
  | take n k => exact Or.inl (Or.inl ⟨n, k, rfl, h.nonneg_of_ended⟩)
  | act w k =>
    generalize hq : (ended r : StreamProgram β ω χ α) = q at h
    cases h
    rcases r <;> cases hq

theorem Parsing.bind {p : StreamProgram β ω χ α} (h : p.Parsing)
    (f : α → StreamProgram β ω χ γ) : (p >>= f).Parsing := by
  rcases h with ⟨n, k, rfl, hn⟩ | ⟨e, rfl⟩
  · exact Or.inl ⟨n, _, rfl, hn⟩
  · exact Or.inr ⟨e, rfl⟩

/-- On a stream that starts with `w`, the program ends silently; if it returns, it has read exactly
`w` and returned `out`. When it throws, it may have read less than `w` or more, and the stream may
have to go on for that. -/
def Reads (p : StreamProgram β ω χ α) (w : List β) (out : Option α) : Prop :=
  ∀ s, ∃ v t r, Runs p v [] (ended r) ∧ v <+: w ++ s ++ t ∧ ∀ a, r = .ok a → v = w ∧ out = some a

/-- **An exact reader in front of a continuation**: the run is inside the reader, or it has read
exactly `w` and is in the continuation. -/
theorem Reads.bind_cases {p : StreamProgram β ω χ α} {w : List β} {out : Option α}
    (hp : p.Reads w out) {f : α → StreamProgram β ω χ γ} {cs s s' : List β} {ws : List ω}
    {q : StreamProgram β ω χ γ} (h : Runs (p >>= f) cs ws q) (hs : cs ++ s = w ++ s') :
    (ws = [] ∧ q.Parsing) ∨ ∃ a cs', out = some a ∧ cs = w ++ cs' ∧ Runs (f a) cs' ws q := by
  obtain ⟨v, t, r, href, ⟨u, hu⟩, hr⟩ := hp s'
  have hstream : cs ++ (s ++ t) = v ++ u := by rw [← List.append_assoc, hs, hu]
  have hleft : ∀ p' ds, Runs p' ds [] (ended r) → v = cs ++ ds → ws = [] → q = p' >>= f →
      (ws = [] ∧ q.Parsing) ∨ ∃ a cs', out = some a ∧ cs = w ++ cs' ∧ Runs (f a) cs' ws q := by
    rintro p' ds hp' hv rfl rfl
    rcases hp'.parsing_or_done with hparsing | ⟨a, rfl, rfl, hok⟩
    · exact Or.inl ⟨rfl, hparsing.bind f⟩
    · obtain ⟨rfl, hout⟩ := hr a hok
      rw [List.append_nil] at hv
      exact Or.inr ⟨a, [], hout, by rw [hv, List.append_nil], .refl _⟩
  rcases r with e | a
  · obtain ⟨p', ds, hp', hv, hws, hq⟩ := href.bind_cases_of_fail h hstream
    exact hleft p' ds hp' hv hws hq
  · rcases href.bind_cases_of_done h hstream with ⟨p', ds, hp', hv, hws, hq⟩ | ⟨cs', hcs, hf⟩
    · exact hleft p' ds hp' hv hws hq
    · obtain ⟨rfl, hout⟩ := hr a rfl
      exact Or.inr ⟨a, cs', hout, hcs, hf⟩

/-- Catching the exception turns an end into a value. -/
theorem Runs.attempt {p : StreamProgram β ω χ α} {cs : List β} {ws : List ω} {r : Except χ α}
    (h : Runs p cs ws (ended r)) : Runs p.attempt cs ws (.done r) := by
  generalize hq : (ended r : StreamProgram β ω χ α) = q at h
  induction h with
  | refl p =>
    subst hq
    cases r <;> exact .refl _
  | take hd _ ih => exact .take hd (ih hq)
  | act _ ih => exact .act (ih hq)

/-- What is left of an attempt is an attempt of what is left. -/
theorem Runs.exists_attempt {p : StreamProgram β ω χ α} {q : StreamProgram β ω χ (Except χ α)}
    {cs : List β} {ws : List ω} (h : Runs p.attempt cs ws q) :
    ∃ p' : StreamProgram β ω χ α, q = p'.attempt := by
  induction p generalizing cs ws with
  | done a =>
    obtain ⟨-, -, rfl⟩ := runs_done_iff.1 h
    exact ⟨.done a, rfl⟩
  | fail e =>
    obtain ⟨-, -, rfl⟩ := runs_done_iff.1 h
    exact ⟨.fail e, rfl⟩
  | take n k ih =>
    cases h with
    | refl => exact ⟨.take n k, rfl⟩
    | take _ h => exact ih _ h
  | act w k ih =>
    cases h with
    | refl => exact ⟨.act w k, rfl⟩
    | act h => exact ih h

/-! ### Programs that lack no symbols -/

/-- The program ends silently on a part of `w`, whatever is behind it. -/
def Completes (p : StreamProgram β ω χ α) (w : List β) : Prop :=
  ∃ v r, Runs p v [] (ended r) ∧ v <+: w

/-- A run into a request of a sequence is in the first part, at this request, or behind it. -/
theorem Runs.take_cases {p : StreamProgram β ω χ α} {f : α → StreamProgram β ω χ γ} {cs : List β}
    {ws : List ω} {n : ℤ} {k : List β → StreamProgram β ω χ γ}
    (h : Runs (p >>= f) cs ws (.take n k)) :
    (∃ k', Runs p cs ws (.take n k')) ∨
      ∃ a cs₁ ws₁ cs₂ ws₂, Runs p cs₁ ws₁ (.done a) ∧ Runs (f a) cs₂ ws₂ (.take n k) ∧
        cs = cs₁ ++ cs₂ ∧ ws = ws₁ ++ ws₂ := by
  rcases h.bind_cases with ⟨p', hp, hq⟩ | hpast
  · rcases p' with a | e | ⟨m, k'⟩ | ⟨w, k'⟩
    · exact Or.inr ⟨a, cs, ws, [], [], hp, hq ▸ .refl _, by simp, by simp⟩
    · cases hq
    · rw [take_bind] at hq
      injection hq with hn _
      exact Or.inl ⟨k', hn ▸ hp⟩
    · cases hq
  · exact Or.inr hpast

/-- A reader that returns has read what it reads exactly. -/
theorem Reads.eq_of_done {p : StreamProgram β ω χ α} {w : List β} {out : Option α}
    (hp : p.Reads w out) {cs s s' : List β} {ws : List ω} {a : α} (h : Runs p cs ws (.done a))
    (hs : cs ++ s = w ++ s') : ws = [] ∧ cs = w ∧ out = some a := by
  obtain ⟨v, t, r, href, ⟨u, hu⟩, hr⟩ := hp s'
  have h' : Runs p cs ws (ended (.ok a)) := h
  have hstream : cs ++ (s ++ t) = v ++ u := by rw [← List.append_assoc, hs, hu]
  obtain ⟨ds, us, hrest, hv, hnil⟩ := href.completes h' hstream
  obtain ⟨rfl, rfl⟩ := List.append_eq_nil_iff.1 hnil.symm
  obtain ⟨rfl, -, hend⟩ := runs_ended_iff.1 hrest
  obtain rfl : r = .ok a := by
    have houtcome := congrArg outcome hend
    rw [outcome_ended, outcome_ended] at houtcome
    exact Option.some.inj houtcome
  obtain ⟨rfl, hout⟩ := hr a rfl
  exact ⟨rfl, by rw [hv, List.append_nil], hout⟩

/-- A program that can be completed does not lack symbols. -/
theorem Completes.not_starved {p : StreamProgram β ω χ α} {w : List β} (hp : p.Completes w)
    {cs s s' : List β} {ws : List ω} {n : ℤ} {k : List β → StreamProgram β ω χ α}
    (h : Runs p cs ws (.take n k)) (hs : cs ++ s = w ++ s') : n ≤ s.length := by
  obtain ⟨v, r, href, t, rfl⟩ := hp
  have hstream : cs ++ s = v ++ (t ++ s') := by rw [hs, List.append_assoc]
  obtain ⟨ds, us, hrest, rfl, -⟩ := href.completes h hstream
  have hlen : s = ds ++ (t ++ s') := by
    simpa [List.append_assoc] using hs
  generalize hq : (ended r : StreamProgram β ω χ α) = q at hrest
  cases hrest with
  | refl => rcases r <;> cases hq
  | take hd _ =>
    rw [hlen, List.length_append, List.length_append]
    omega

end StreamProgram
