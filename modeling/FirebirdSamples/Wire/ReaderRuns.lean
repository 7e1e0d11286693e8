import FirebirdSamples.Wire.Reader

/-!
# Whole runs of a reader process

What the invariant of `FirebirdSamples.Wire.Reader` gives for complete runs. A program whose
reference run on a byte string `w` is known, and which never arms a decryptor, can be driven by any
segmentation of `w` and of any bytes behind it:

* `tracks_of_runs` — every reachable state tracks the received bytes; the reference run supplies
  the one condition of `Tracks.step`, since a request on the way to an end is not negative;
* `Tracks.finishes` — once all of `w` has arrived, the process needs no further event to reach
  the end of the run: no wake-up is ever lost.

`ReadsExactly p w r` is the conclusion as one statement, for programs that perform no effect. It
is refuted by a run to another end (`ReadsExactly.eq_of_runs`) and by a run that asks for more bytes
than there are (`not_readsExactly_of_starved`).
-/

namespace FirebirdSamples.Wire

open StreamProgram

variable {ρ α : Type}

/-- A decryptor is only ever there because the program armed it. -/
theorem Process.exists_mem_log_of_dec {C : Process ρ α → Prop} {p : Async ρ α} {raw : Buffer}
    {s : Process ρ α} (h : Process.ReachesIf C p raw s) :
    s.reader.dec ≠ none → ∃ c, Effect.enableDecryption c ∈ s.log := by
  induction h with
  | start => exact fun h ↦ absurd rfl h
  | @data raw s d h ih =>
    intro hdec
    refine ih fun hnone ↦ hdec ?_
    show s.reader.dec.map _ = none
    rw [hnone]
    rfl
  | @step raw s s' h hC hs ih =>
    rcases Process.step_cases hs with ⟨n, k, -, rfl⟩ | ⟨w, k, -, rfl⟩
    · unfold Process.takeStep
      split_ifs
      · exact ih
      · exact ih
    · intro hdec
      cases w with
      | enableDecryption c => exact ⟨c, by simp⟩
      | write bytes =>
        obtain ⟨c, hc⟩ := ih hdec
        exact ⟨c, List.mem_append_left _ hc⟩
      | note r =>
        obtain ⟨c, hc⟩ := ih hdec
        exact ⟨c, List.mem_append_left _ hc⟩

/-- **Programs that never arm a decryptor track the received bytes**, as long as no step answers a
negative request. -/
theorem tracks_of_nextNonneg {p : Async ρ α} {raw : Buffer} {s : Process ρ α}
    (hclear : ∀ cs ws q, Runs p cs ws q → ∀ c, Effect.enableDecryption c ∉ ws)
    (h : Process.ReachesIf Process.NextNonneg p raw s) : Tracks p raw s := by
  induction h with
  | start => exact tracks_start p
  | @data raw s d h ih =>
    have hdec : s.reader.dec = none := by
      by_contra hne
      obtain ⟨c, hc⟩ := Process.exists_mem_log_of_dec h hne
      obtain ⟨cs, hrun, -⟩ := ih.runs
      exact hclear _ _ _ hrun c hc
    have hdata := ih.data d
    rwa [Reader.decode, hdec] at hdata
  | step h hC hs ih => exact ih.step hC hs

/-- A reachable state on a stream that carries the program to an end answers no negative request. -/
theorem Tracks.nextNonneg {p : Async ρ α} {plain w rest : Buffer} {ws : List (Effect ρ)}
    {r : Except JsError α} {s : Process ρ α} (h : Tracks p plain s)
    (href : Runs p w ws (ended r)) (hplain : plain <+: w ++ rest) : s.NextNonneg := by
  intro n k hprog
  obtain ⟨cs, hrun, rfl⟩ := h.runs
  obtain ⟨t, ht⟩ := hplain
  rw [hprog] at hrun
  obtain ⟨ds, us, hrest, -, -⟩ :=
    href.completes hrun (s := s.reader.buffered ++ t) (by rw [← List.append_assoc, ht])
  exact hrest.nonneg_of_ended

/-- **Every segmentation, every interleaving**: a program that would read `w` to an end in clear
tracks the received bytes in every state it can reach while they agree with `w`. -/
theorem tracks_of_runs {p : Async ρ α} {raw w rest : Buffer} {ws : List (Effect ρ)}
    {r : Except JsError α} {s : Process ρ α} (href : Runs p w ws (ended r))
    (hclear : ∀ c, Effect.enableDecryption c ∉ ws) (h : Process.Reaches p raw s)
    (hraw : raw <+: w ++ rest) : Tracks p raw s ∧ s.log <+: ws := by
  have hlog : ∀ {raw s}, Tracks p raw s → raw <+: w ++ rest → s.log <+: ws := by
    intro raw s ht ⟨t, hpre⟩
    obtain ⟨cs, hrun, rfl⟩ := ht.runs
    obtain ⟨ds, us, -, -, rfl⟩ :=
      href.completes hrun (s := s.reader.buffered ++ t) (by rw [← List.append_assoc, hpre])
    exact List.prefix_append _ _
  suffices ht : Tracks p raw s from ⟨ht, hlog ht hraw⟩
  induction h with
  | start => exact tracks_start p
  | @data raw s d h ih =>
    have hraw' : raw <+: w ++ rest := (List.prefix_append raw d).trans hraw
    have ht := ih hraw'
    have hdec : s.reader.dec = none := by
      by_contra hne
      obtain ⟨c, hc⟩ := Process.exists_mem_log_of_dec h hne
      exact hclear c ((hlog ht hraw').subset hc)
    have hdata := ht.data d
    rwa [Reader.decode, hdec] at hdata
  | step h _ hs ih => exact (ih hraw).step ((ih hraw).nextNonneg href hraw) hs

/-- A pending request that the buffer can honour is granted by the next step. -/
theorem Tracks.step_take {p : Async ρ α} {plain : Buffer} {s : Process ρ α} (h : Tracks p plain s)
    {n : ℤ} {k : Buffer → Async ρ α} (hprog : s.task.program = .take n k)
    (hle : n ≤ s.reader.buffered.length) :
    s.step = some { s with
      reader := (s.reader.take n).2
      task := .running (k (s.reader.take n).1) } := by
  have hlen : ¬ s.reader.len < n := by
    rw [h.len_eq]
    omega
  have hstep : s.step = some (s.takeStep n k) := by
    unfold Process.step
    rcases htask : s.task with p' | ⟨promise, n', k'⟩
    · rw [htask] at hprog
      obtain rfl : p' = .take n k := hprog
      rfl
    · rw [htask] at hprog
      obtain ⟨rfl, rfl⟩ : n' = n ∧ k' = k := by
        injection hprog with h₁ h₂
        exact ⟨h₁, h₂⟩
      -- were its promise unresolved, the process would lack bytes
      have hmem : promise ∈ s.resolved := by
        by_contra hres
        exact hlen (h.wakes promise _ _ htask hres).1
      exact if_pos hmem
  rw [hstep, Process.takeStep, if_neg hlen]

/-- A run can be followed without another event, from any state whose buffer holds what it reads. -/
theorem Tracks.follows {p q e : Async ρ α} {plain ds : Buffer} {us : List (Effect ρ)}
    (hrun : Runs q ds us e) :
    ∀ {s : Process ρ α} {t : Buffer}, Tracks p plain s → s.task.program = q →
      s.reader.buffered = ds ++ t →
      ∃ s', Process.Steps s s' ∧ s'.task.program = e ∧ s'.reader.buffered = t ∧
        s'.log = s.log ++ us ∧ Tracks p plain s' := by
  induction hrun with
  | refl q =>
    intro s t h hprog hbuf
    exact ⟨s, .refl, hprog, hbuf, (List.append_nil _).symm, h⟩
  | @take n k d ds us e hd _ ih =>
    intro s t h hprog hbuf
    rw [List.append_assoc] at hbuf
    have hle : n ≤ s.reader.buffered.length := by
      rw [hbuf, List.length_append]
      omega
    have hn : 0 ≤ n := by omega
    have hstep := h.step_take hprog hle
    have hnext : s.NextNonneg := by
      intro m k' hprog'
      rw [hprog] at hprog'
      injection hprog' with hm _
      omega
    obtain ⟨hdata, hholds⟩ := h.holds.take hn (by rw [h.len_eq]; exact hle)
    have htake : n.toNat = d.length := by omega
    rw [hbuf, htake, List.take_left] at hdata
    obtain ⟨s', hsteps, hfin⟩ := ih (h.step hnext hstep) (congrArg k hdata) (t := t) (by
      show (s.reader.take n).2.buffered = ds ++ t
      rw [hholds.buffered_eq, hbuf, htake, List.drop_left])
    exact ⟨s', .head hstep hsteps, hfin⟩
  | @act w k q ds us _ ih =>
    intro s t h hprog hbuf
    have htask : s.task = .running (.act w k) := by
      rcases htask : s.task with p' | ⟨promise, n', k'⟩
      · rw [htask] at hprog
        exact congrArg _ hprog
      · rw [htask] at hprog
        cases hprog
    have hstep : s.step = some { s with
        reader := s.reader.perform w, task := .running k, log := s.log ++ [w] } := by
      unfold Process.step
      rw [htask]
    have hnext : s.NextNonneg := by
      intro m k' hprog'
      rw [hprog] at hprog'
      cases hprog'
    obtain ⟨s', hsteps, hend, hbuf', hlog, ht⟩ := ih (h.step hnext hstep) rfl (t := t) (by
      show (s.reader.perform w).buffered = ds ++ t
      rw [Reader.buffered_perform, hbuf])
    exact ⟨s', .head hstep hsteps, hend, hbuf', by rw [hlog, List.append_assoc]; rfl, ht⟩

/-- **No wake-up is lost**: once the bytes of the run have arrived, the process reaches its end by
its own steps. -/
theorem Tracks.finishes {p : Async ρ α} {plain w : Buffer} {ws : List (Effect ρ)}
    {r : Except JsError α} {s : Process ρ α} (h : Tracks p plain s)
    (href : Runs p w ws (ended r)) (hw : w <+: plain) :
    ∃ s', Process.Steps s s' ∧ s'.task.program = ended r ∧ plain = w ++ s'.reader.buffered := by
  obtain ⟨cs, hrun, rfl⟩ := h.runs
  obtain ⟨t, ht⟩ := hw
  obtain ⟨ds, us, hrest, rfl, -⟩ :=
    href.completes hrun (s := s.reader.buffered) ht.symm
  rw [List.append_assoc] at ht
  obtain ⟨s', hsteps, hend, hbuf, -, -⟩ :=
    h.follows hrest rfl (t := t) (List.append_cancel_left ht).symm
  exact ⟨s', hsteps, hend, by rw [hbuf, List.append_assoc, ht]⟩

/-- An ended process has completed the run. -/
theorem Tracks.ended {p : Async ρ α} {raw w rest : Buffer} {ws : List (Effect ρ)}
    {r : Except JsError α} {s : Process ρ α} (h : Tracks p raw s) (href : Runs p w ws (ended r))
    (hraw : raw <+: w ++ rest) (hout : s.task.program.outcome ≠ none) :
    s.task.program = StreamProgram.ended r ∧ s.log = ws ∧ raw = w ++ s.reader.buffered := by
  obtain ⟨r', hr'⟩ := Option.ne_none_iff_exists'.1 hout
  obtain ⟨cs, hrun, hcs⟩ := h.runs
  obtain ⟨t, hpre⟩ := hraw
  obtain ⟨ds, us, hrest, hw, hws⟩ := href.completes hrun (s := s.reader.buffered ++ t)
    (by rw [← List.append_assoc, hcs, hpre])
  rw [eq_ended_of_outcome hr'] at hrest ⊢
  obtain ⟨rfl, rfl, hr⟩ := runs_ended_iff.1 hrest
  rw [List.append_nil] at hw hws
  exact ⟨hr.symm, hws.symm, by rw [hw, hcs]⟩

/-! ### Reading exactly a byte string -/

/-- Under every segmentation and interleaving, and whatever follows `w` on the stream, the program
reads exactly `w` and ends with `r`: an ended process has consumed `w` and holds the received bytes
behind it, and once `w` has arrived no further event is needed. -/
def ReadsExactly (p : Async ρ α) (w : Buffer) (r : Except JsError α) : Prop :=
  ∀ rest raw s, Process.Reaches p raw s → raw <+: w ++ rest →
    (s.task.program.outcome ≠ none →
      s.task.program = StreamProgram.ended r ∧ raw = w ++ s.reader.buffered) ∧
    (w <+: raw → ∃ s', Process.Steps s s' ∧ s'.task.program = StreamProgram.ended r)

/-- **A reference run in clear settles every segmentation.** -/
theorem readsExactly_of_runs {p : Async ρ α} {w : Buffer} {r : Except JsError α}
    (href : Runs p w [] (ended r)) : ReadsExactly p w r := by
  intro rest raw s h hraw
  obtain ⟨ht, -⟩ := tracks_of_runs href (fun c hc ↦ absurd hc List.not_mem_nil) h hraw
  refine ⟨fun hout ↦ ?_, fun hw ↦ ?_⟩
  · obtain ⟨hend, -, heq⟩ := ht.ended href hraw hout
    exact ⟨hend, heq⟩
  · obtain ⟨s', hsteps, hend, -⟩ := ht.finishes href hw
    exact ⟨s', hsteps, hend⟩

theorem Process.Reaches.steps {p : Async ρ α} {raw : Buffer} {s s' : Process ρ α}
    (h : Process.Reaches p raw s) (hs : Process.Steps s s') : Process.Reaches p raw s' := by
  induction hs with
  | refl => exact h
  | tail _ hstep ih => exact .step ih trivial hstep

/-- A process that has received a byte string at once can follow any run on a prefix of it. -/
theorem exists_reaches_of_runs {p q : Async ρ α} {cs : Buffer} {ws : List (Effect ρ)}
    (h : Runs p cs ws q) (t : Buffer) :
    ∃ s, Process.Reaches p (cs ++ t) s ∧ s.task.program = q ∧ s.reader.Holds t := by
  have hstart : Process.Reaches p ([] ++ (cs ++ t)) ((Process.start p).data (cs ++ t)) :=
    .data _ .start
  have ht : Tracks p (cs ++ t) ((Process.start p).data (cs ++ t)) :=
    (tracks_start p).data (cs ++ t)
  obtain ⟨s, hsteps, hprog, hbuf, -, ht'⟩ := ht.follows h rfl (t := t) (List.flatten_singleton ..)
  exact ⟨s, hstart.steps hsteps, hprog, hbuf, by rw [ht'.len_eq, hbuf]⟩

/-- A program that reads `w` exactly has no other run on `w` to an end. -/
theorem ReadsExactly.eq_of_runs {p : Async ρ α} {cs t : Buffer} {ws : List (Effect ρ)}
    {r r' : Except JsError α} (h : ReadsExactly p (cs ++ t) r)
    (hrun : Runs p cs ws (ended r')) : t = [] ∧ r' = r := by
  obtain ⟨s, hreach, hprog, hholds⟩ := exists_reaches_of_runs hrun t
  obtain ⟨hend, -⟩ := h [] _ s hreach (List.prefix_append _ _)
  obtain ⟨hr, hbuf⟩ := hend (by rw [hprog, outcome_ended]; exact Option.some_ne_none _)
  rw [hprog] at hr
  have hout := congrArg outcome hr
  rw [outcome_ended, outcome_ended] at hout
  rw [hholds.buffered_eq, List.self_eq_append_right] at hbuf
  exact ⟨hbuf, Option.some.inj hout⟩

/-- A program that asks for more than the rest of `w` does not read `w` exactly. -/
theorem not_readsExactly_of_starved {p : Async ρ α} {cs t : Buffer} {ws : List (Effect ρ)}
    {n : ℤ} {k : Buffer → Async ρ α} {r : Except JsError α} (hrun : Runs p cs ws (.take n k))
    (ht : (t.length : ℤ) < n) : ¬ ReadsExactly p (cs ++ t) r := by
  intro h
  obtain ⟨s, hreach, hprog, hholds⟩ := exists_reaches_of_runs hrun t
  obtain ⟨-, hfin⟩ := h [] _ s hreach (List.prefix_append _ _)
  obtain ⟨s', hsteps, hend⟩ := hfin (List.prefix_refl _)
  -- none of the steps grants the request
  suffices hstuck : s'.task.program = .take n k ∧ s'.reader.len < n by
    rw [hstuck.1] at hend
    rcases r with e | a <;> cases hend
  clear hend
  induction hsteps with
  | refl => exact ⟨hprog, by rw [hholds.len_eq]; exact ht⟩
  | tail _ hstep ih =>
    obtain ⟨hprog', hlt⟩ := ih
    rcases Process.step_cases hstep with ⟨m, k', hm, rfl⟩ | ⟨v, k', htask, rfl⟩
    · rw [hprog'] at hm
      obtain ⟨rfl, rfl⟩ : n = m ∧ k = k' := by
        injection hm with h₁ h₂
        exact ⟨h₁, h₂⟩
      unfold Process.takeStep
      rw [if_pos hlt]
      exact ⟨rfl, hlt⟩
    · rw [htask] at hprog'
      cases hprog'

end FirebirdSamples.Wire
