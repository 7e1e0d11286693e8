import FirebirdSamples.Wire.Session

/-!
# Progress of the handshake

A session stands still when the client waits, nothing is in flight to it and every packet it has
written has been answered. `deadlock_iff` says when a client that has not ended gets there: exactly
if the answer to its first packet is neither a reply to `op_connect` nor long enough for the three
words that `readAccept` takes of a reply before it looks at what the reply is.

The other readers never take more of a packet than there is. They are carried to an end by the
packet alone (`Completes`), so that a client that waits inside one of them has not received the
packet yet (`reads_starved`).
-/

namespace FirebirdSamples.Wire

open StreamProgram

variable {ρ : Type}

/-! ### The readers -/

/-- The packets that `readAccept` never reads past. -/
def Packet.Accepting (r : Packet) : Prop :=
  ∀ op body, r = .other op body → op.1 = Op.reject.code ∨ 12 ≤ body.length

theorem completes_readAccept {r : Packet} (hr : r.Accepting) :
    (readAccept : Async ρ Accepted).Completes r.encode := by
  have hunexpected : r.opcode ≠ Op.reject.code →
      (r.opcode ≠ Op.condAccept.code ∧ r.opcode ≠ Op.acceptData.code) → 12 ≤ r.body.length →
      (readAccept : Async ρ Accepted).Completes r.encode := by
    intro hreject hop hlen
    refine ⟨xdrInt r.opcode ++ r.body.take 12, .error _,
      runs_readAccept_unexpected r.isInt32_opcode hreject hop ?_, ?_⟩
    · rw [List.length_take, Nat.min_eq_left hlen]
    · rw [Packet.encode, List.prefix_append_right_inj]
      exact List.take_prefix _ _
  rcases r with resp | ⟨conditional, version, arch, ptype, data, plugin, authenticated, keys⟩ |
    ⟨opcode, body⟩
  · refine hunexpected (show (9 : ℤ) ≠ 4 by decide) (show (9 : ℤ) ≠ 98 ∧ (9 : ℤ) ≠ 94 by decide) ?_
    -- the handle and the blob id are three words
    show 12 ≤ resp.encode.length
    rw [Response.encode, List.length_append, List.length_append, length_xdrInt, resp.blobId.2]
    omega
  · exact ⟨_, _, runs_readAccept_accept conditional version arch ptype data plugin authenticated
      keys, List.prefix_refl _⟩
  · rcases hr opcode body rfl with hreject | hlen
    · refine ⟨_, .error _, runs_readAccept_reject, ?_⟩
      rw [Packet.encode, Packet.opcode, hreject]
      exact List.prefix_append _ _
    · by_cases hreject : opcode.1 = Op.reject.code
      · refine ⟨_, .error _, runs_readAccept_reject, ?_⟩
        rw [Packet.encode, Packet.opcode, hreject]
        exact List.prefix_append _ _
      · exact hunexpected hreject opcode.2.2.2 hlen

theorem completes_readReply (message : String) {fuel : ℕ} {r : Packet} (hr : r.Readable fuel) :
    (readReply fuel message : Async ρ ℤ).Completes r.encode := by
  have hother : r.opcode ≠ Op.response.code →
      (readReply fuel message : Async ρ ℤ).Completes r.encode := fun hop ↦
    ⟨_, .error _, runs_readReply_other fuel message r.isInt32_opcode hop, List.prefix_append _ _⟩
  rcases r with resp | conditional | ⟨opcode, body⟩
  · obtain ⟨hfuel, hw, hs⟩ := hr
    refine ⟨_, resp.outcome, (runs_int (Packet.response resp).isInt32_opcode).bind_done ?_,
      List.prefix_refl _⟩
    rw [if_neg fun h ↦ h rfl]
    exact runs_readResponse resp hfuel hw hs
  · exact hother (acceptCode_cases conditional).2.2.1
  · exact hother opcode.2.2.1

theorem completes_readDetachReply {fuel : ℕ} {r : Packet} (hr : r.Readable fuel) :
    (readDetachReply fuel : Async ρ Unit).Completes r.encode := by
  have hother : r.opcode ≠ Op.response.code →
      (readDetachReply fuel : Async ρ Unit).Completes r.encode := by
    intro hop
    refine ⟨xdrInt r.opcode ++ [], .ok (), (runs_int r.isInt32_opcode).bind_done ?_, ?_⟩
    · rw [if_neg hop]
      exact .refl _
    · rw [List.append_nil]
      exact List.prefix_append _ _
  rcases r with resp | conditional | ⟨opcode, body⟩
  · obtain ⟨hfuel, hw, hs⟩ := hr
    have hrun := (runs_readResponse (ρ := ρ) resp hfuel hw hs).bind fun _ ↦ pure ()
    have hend : ((ended resp.outcome : Async ρ ℤ) >>= fun _ ↦ pure ()) =
        ended (resp.outcome.map fun _ ↦ ()) := by
      rcases resp.outcome with _ | _ <;> rfl
    rw [hend] at hrun
    refine ⟨_, resp.outcome.map fun _ ↦ (),
      (runs_int (Packet.response resp).isInt32_opcode).bind_done ?_, List.prefix_refl _⟩
    rw [if_pos (show (Packet.response resp).opcode = Op.response.code from rfl)]
    exact hrun
  · exact hother (acceptCode_cases conditional).2.2.1
  · exact hother opcode.2.2.1

/-! ### A client that lacks bytes -/

theorem writePacket_take {packet : Option Buffer} {f : Buffer → Async ρ Unit} {cs : Buffer}
    {ws : List (Effect ρ)} {n : ℤ} {k : Buffer → Async ρ Unit}
    (h : Runs (writePacket packet >>= f) cs ws (.take n k)) :
    ∃ buf ws', packet = some buf ∧ ws = .write buf :: ws' ∧ Runs (f buf) cs ws' (.take n k) := by
  rcases packet with _ | buf
  · cases (runs_fail_iff.1 h).2.2
  · cases h with
    | act h => exact ⟨buf, _, rfl, rfl, h⟩

theorem sendPacket_take {enc : Arc4} {packet : Option Buffer} {f : Arc4 → Async ρ Unit}
    {cs : Buffer} {ws : List (Effect ρ)} {n : ℤ} {k : Buffer → Async ρ Unit}
    (h : Runs (sendPacket enc packet >>= f) cs ws (.take n k)) :
    ∃ buf ws', packet = some buf ∧ ws = .write (enc.transform buf).1 :: ws' ∧
      Runs (f (enc.transform buf).2) cs ws' (.take n k) := by
  rcases packet with _ | buf
  · cases (runs_fail_iff.1 h).2.2
  · cases h with
    | act h => exact ⟨buf, _, rfl, rfl, h⟩

/-- **A reader in front of a continuation lacks bytes** when nothing has arrived, or when its packet
has arrived in part or is not one that completes it. Otherwise it is the continuation that lacks
them. -/
theorem reads_starved {α : Type} {p : Async ρ α} {out : Packet → Option α} {R : List Packet}
    {f : α → Async ρ Unit} {cs s : Buffer} {ws : List (Effect ρ)} {n : ℤ}
    {k : Buffer → Async ρ Unit}
    (hp : ∀ r : Packet, r ∈ R ∨ r = .other ⟨0, by decide⟩ [] → p.Reads r.encode (out r))
    (h : Runs (p >>= f) cs ws (.take n k)) (hs : cs ++ s = R.flatMap Packet.encode)
    (hlt : (s.length : ℤ) < n) :
    (ws = [] ∧ ∀ r ∈ R.head?, ¬ p.Completes r.encode) ∨ ∃ r R' a cs', R = r :: R' ∧
      out r = some a ∧ cs' ++ s = R'.flatMap Packet.encode ∧ Runs (f a) cs' ws (.take n k) := by
  rcases R with _ | ⟨r, R⟩
  · rcases reads_cases hp h hs with ⟨hws, -⟩ | ⟨r, R', -, -, hR, -⟩
    · exact Or.inl ⟨hws, fun r hr ↦ by cases hr⟩
    · cases hR
  · have hreads := hp r (Or.inl List.mem_cons_self)
    rcases h.take_cases with ⟨k', hin⟩ | ⟨a, cs₁, ws₁, cs₂, ws₂, hdone, hf, rfl, rfl⟩
    · refine Or.inl ⟨?_, fun r' hr' hcompletes ↦ ?_⟩
      · obtain ⟨v, t, out', href, ⟨u, hu⟩, -⟩ := hreads (R.flatMap Packet.encode)
        have hstream : cs ++ (s ++ t) = v ++ u := by
          rw [← List.append_assoc, hs, List.flatMap_cons, hu]
        obtain ⟨ds, us, -, -, hnil⟩ := href.completes hin hstream
        exact (List.append_eq_nil_iff.1 hnil.symm).1
      · obtain rfl := Option.some.inj hr'
        have := hcompletes.not_starved hin hs
        omega
    · rw [List.append_assoc] at hs
      obtain ⟨rfl, rfl, hout⟩ := hreads.eq_of_done hdone hs
      rw [List.flatMap_cons] at hs
      exact Or.inr ⟨r, R, a, cs₂, rfl, hout, List.append_cancel_left hs, hf⟩

section Steps

variable {cfg : Config} {fuel : ℕ} {K : Buffer} {acc : Accepted} {R : List Packet} {cs s : Buffer}
  {ws : List (Effect ρ)} {n : ℤ} {k : Buffer → Async ρ Unit}

/-- Once it has written its last packet, the client lacks no bytes of an answer to it. -/
theorem readDetachReply_starved (hR : ∀ r ∈ R, r.Readable fuel)
    (h : Runs (readDetachReply fuel) cs ws (.take n k)) (hs : cs ++ s = R.flatMap Packet.encode)
    (hlt : (s.length : ℤ) < n) : R = [] := by
  rcases R with _ | ⟨r, R⟩
  · rfl
  · have := (completes_readDetachReply (hR r List.mem_cons_self)).not_starved h hs
    omega

/-- A client that lacks bytes behind the first reply has written more packets than were answered. -/
theorem attachStep_starved {enc : Arc4} (hR : ∀ r ∈ R, r.Readable fuel)
    (h : Runs (attachStep cfg fuel enc) cs ws (.take n k)) (hs : cs ++ s = R.flatMap Packet.encode)
    (hlt : (s.length : ℤ) < n) : R.length < (ws.filterMap Effect.written).length := by
  obtain ⟨t, ws₁, -, rfl, h₁⟩ := sendPacket_take h
  rcases reads_starved (reads_readReply_or _ hR) h₁ hs hlt with
    ⟨rfl, hnone⟩ | ⟨r, R', handle, cs₁, rfl, -, hs₁, h₂⟩
  · rcases R with _ | ⟨r, R⟩
    · exact Nat.zero_lt_one
    · exact absurd (completes_readReply _ (hR r List.mem_cons_self)) (hnone r rfl)
  · obtain ⟨d, ws₂, -, rfl, h₃⟩ := sendPacket_take h₂
    obtain rfl := readDetachReply_starved (fun r hr ↦ hR r (List.mem_cons_of_mem _ hr)) h₃ hs₁ hlt
    show 1 < (ws₂.filterMap Effect.written).length + 1 + 1
    omega

theorem cryptStep_starved (hR : ∀ r ∈ R, r.Readable fuel)
    (h : Runs (cryptStep cfg fuel K) cs ws (.take n k)) (hs : cs ++ s = R.flatMap Packet.encode)
    (hlt : (s.length : ℤ) < n) : R.length < (ws.filterMap Effect.written).length := by
  cases h with
  | act h =>
    obtain ⟨y, ws₁, -, rfl, h₁⟩ := writePacket_take h
    rcases reads_starved (reads_readReply_or _ hR) h₁ hs hlt with
      ⟨rfl, hnone⟩ | ⟨r, R', handle, cs₁, rfl, -, hs₁, h₂⟩
    · rcases R with _ | ⟨r, R⟩
      · exact Nat.zero_lt_one
      · exact absurd (completes_readReply _ (hR r List.mem_cons_self)) (hnone r rfl)
    · have hrest := attachStep_starved (fun r hr ↦ hR r (List.mem_cons_of_mem _ hr)) h₂ hs₁ hlt
      exact Nat.succ_lt_succ hrest

theorem authStep_starved (hR : ∀ r ∈ R, r.Readable fuel)
    (h : Runs (authStep cfg fuel acc) cs ws (.take n k)) (hs : cs ++ s = R.flatMap Packet.encode)
    (hlt : (s.length : ℤ) < n) : R.length < (ws.filterMap Effect.written).length := by
  obtain ⟨m, ws₁, -, rfl, h₁⟩ := writePacket_take h
  rcases reads_starved (reads_readReply_or _ hR) h₁ hs hlt with
    ⟨rfl, hnone⟩ | ⟨r, R', handle, cs₁, rfl, -, hs₁, h₂⟩
  · rcases R with _ | ⟨r, R⟩
    · exact Nat.zero_lt_one
    · exact absurd (completes_readReply _ (hR r List.mem_cons_self)) (hnone r rfl)
  · have hrest := cryptStep_starved (fun r hr ↦ hR r (List.mem_cons_of_mem _ hr)) h₂ hs₁ hlt
    exact Nat.succ_lt_succ hrest

/-- **When the client lacks bytes** although each of its packets has been answered: it is in front
of a first reply that is too short for it. -/
theorem handshake_starved (hR : ∀ r ∈ R, r.Readable fuel)
    (h : Runs (handshake cfg fuel) cs ws (.take n k)) (hs : cs ++ s = R.flatMap Packet.encode)
    (hlt : (s.length : ℤ) < n) (hanswered : R.length = (ws.filterMap Effect.written).length) :
    ∃ r, R = [r] ∧ ¬ r.Accepting := by
  obtain ⟨c, ws₁, -, rfl, h₁⟩ := writePacket_take h
  rcases reads_starved (fun r _ ↦ reads_readAccept r) h₁ hs hlt with
    ⟨rfl, hnone⟩ | ⟨r, R', acc, cs₁, rfl, -, hs₁, h₂⟩
  · obtain ⟨r, rfl⟩ := List.length_eq_one_iff.1 hanswered
    exact ⟨r, rfl, fun hr ↦ hnone r rfl (completes_readAccept hr)⟩
  · have hrest := authStep_starved (fun r hr ↦ hR r (List.mem_cons_of_mem _ hr)) h₂ hs₁ hlt
    exact absurd (Nat.succ.inj hanswered) hrest.ne

/-- In front of such a reply the client gets to no end. -/
theorem not_ended_of_short {op : {v : ℤ // IsInt32 v ∧ v ≠ Op.response.code ∧
      v ≠ Op.condAccept.code ∧ v ≠ Op.acceptData.code}} {body : Buffer}
    (hop : op.1 ≠ Op.reject.code) (hbody : body.length < 12) {c : Buffer}
    (hc : connectPacket cfg = some c) {out : Except JsError Unit}
    (h : Runs (handshake cfg fuel : Async ρ Unit) cs ws (ended out))
    (hs : cs ++ s = (Packet.other op body).encode) : False := by
  have hwords : (body ++ List.replicate (12 - body.length) 0).length = 12 := by
    rw [List.length_append, List.length_replicate]
    omega
  have hread := runs_readAccept_unexpected (ρ := ρ) op.2.1 hop op.2.2.2 hwords
  have href : Runs (handshake cfg fuel : Async ρ Unit)
      (xdrInt op.1 ++ (body ++ List.replicate (12 - body.length) 0)) [.write c]
      (ended (.error (.error ("unexpected opcode " ++ toString op.1)))) := by
    rw [handshake, hc]
    exact .act (hread.bind _)
  have hstream : cs ++ (s ++ List.replicate (12 - body.length) 0) =
      xdrInt op.1 ++ (body ++ List.replicate (12 - body.length) 0) ++ [] := by
    rw [← List.append_assoc, hs, Packet.encode, List.append_nil, List.append_assoc]
    rfl
  obtain ⟨ds, us, hrest, heq, -⟩ := href.completes h hstream
  obtain ⟨rfl, -, -⟩ := runs_ended_iff.1 hrest
  -- an end takes sixteen bytes, and the packet has fewer
  have hlen := congrArg List.length heq
  have hlen' := congrArg List.length hs
  simp only [Packet.encode, List.length_append, length_xdrInt, List.length_replicate,
    List.length_nil] at hlen hlen'
  have : (Packet.other op body).body.length = body.length := rfl
  omega

end Steps

namespace Session

variable {cfg : Config} {fuel : ℕ} {K : Buffer} {σ : Session}

/-- Nothing happens in a session without another reply, and none is owed: the client can take no
step, nothing is in flight to it, and each packet it has written is answered. -/
structure Settled (σ : Session) : Prop where
  step : σ.client.step = none
  inbound : σ.inbound = []
  answered : σ.replies.length = σ.writes.length

/-- A process that can take no step has ended, or waits for bytes it does not have. -/
theorem cases_of_step_eq_none {p : Async Empty Unit} {plain : Buffer} {c : Process Empty Unit}
    (h : Tracks p plain c) (hstep : c.step = none) :
    c.task.program.outcome ≠ none ∨
      ∃ n k, c.task.program = .take n k ∧ (c.reader.buffered.length : ℤ) < n := by
  rcases htask : c.task with q | ⟨promise, n, k⟩
  · rw [Process.step, htask] at hstep
    rcases q with a | e | ⟨n, k⟩ | ⟨w, k⟩
    · exact Or.inl (Option.some_ne_none _)
    · exact Or.inl (Option.some_ne_none _)
    · cases hstep
    · cases hstep
  · rw [Process.step, htask] at hstep
    have hres : promise ∉ c.resolved := by
      intro hmem
      have hsome : (if promise ∈ c.resolved then some (c.takeStep n k) else none) = none := hstep
      rw [if_pos hmem] at hsome
      cases hsome
    have hlt := (h.wakes promise n k htask hres).1
    rw [h.len_eq] at hlt
    exact Or.inr ⟨n, k, rfl, hlt⟩

end Session

/-- **The only deadlock of the handshake.** A settled session whose replies are readable has not
ended exactly if there is one reply, its opcode is none that a server answers `op_connect` with, and
there are fewer than twelve bytes behind the opcode. -/
theorem deadlock_iff {cfg : Config} {fuel : ℕ} {K : Buffer} {σ : Session}
    (h : Session.Reaches cfg fuel K (Packet.Readable fuel) σ) (hsettled : σ.Settled) :
    σ.client.task.program.outcome = none ↔ ∃ op body, σ.replies = [.other op body] ∧
      op.1 ≠ Op.reject.code ∧ body.length < 12 := by
  obtain ⟨plain, hinv⟩ := h.inv
  obtain ⟨cs, hrun, hcs⟩ := hinv.tracks.runs
  have hplain : cs ++ σ.client.reader.buffered = σ.replies.flatMap Packet.encode := by
    have hnone : σ.client.reader.decode [] = [] :=
      List.eq_nil_of_length_eq_zero (Reader.length_decode _ _)
    have hstream := hinv.stream
    rw [hsettled.inbound, hnone, List.append_nil] at hstream
    rw [hcs, hstream]
  constructor
  · intro hout
    rcases Session.cases_of_step_eq_none hinv.tracks hsettled.step with hend | ⟨n, k, hprog, hlt⟩
    · exact absurd hout hend
    · rw [hprog] at hrun
      obtain ⟨r, hR, hr⟩ := handshake_starved hinv.readable hrun hplain hlt hsettled.answered
      rw [Packet.Accepting] at hr
      push Not at hr
      obtain ⟨op, body, rfl, hop, hbody⟩ := hr
      exact ⟨op, body, hR, hop, by omega⟩
  · rintro ⟨op, body, hR, hop, hbody⟩
    by_contra hout
    obtain ⟨out, hout⟩ := Option.ne_none_iff_exists'.1 hout
    rw [eq_ended_of_outcome hout] at hrun
    rw [hR] at hplain
    obtain ⟨cs', acc, handle, sent, armed, -, hloc, hwrites⟩ := hinv.located
    obtain ⟨c, rfl⟩ : ∃ c, sent = [c] := by
      refine List.length_eq_one_iff.1 ?_
      rw [← Session.length_wire K sent, ← hwrites, ← hsettled.answered, hR]
      rfl
    have hc : connectPacket cfg = some c := (List.cons_prefix_cons.1 hloc.sent_prefix).1.symm
    exact not_ended_of_short hop hbody hc hrun (by simpa using hplain)

/-- A rejected connection is settled, and the client has ended. -/
theorem deadlock_iff_reject : ∃ σ,
    Session.Reaches demoConfig 1 demoKey (Packet.Readable 1) σ ∧ σ.Settled ∧
      σ.client.task.program.outcome ≠ none := by
  obtain ⟨c, hc⟩ := connectPacket_demo
  have hconnect : Runs (handshake demoConfig 1) [] [.write c]
      (readAccept >>= authStep demoConfig 1 : Async Empty Unit) := by
    rw [handshake, writePacket, hc]
    exact .act (.refl _)
  let reject : Packet := .other ⟨4, by decide⟩ []
  obtain ⟨σ₀, h₀⟩ :=
    Session.exists_quiet_start (K := demoKey) (C := Packet.Readable 1) hconnect
  obtain ⟨σ, h⟩ := h₀.exchange (r := reject) (t := []) (by simp) trivial (by decide)
    (by exact Nat.zero_lt_one) (fun _ acc hacc ↦ by cases hacc) (List.append_nil _).symm
    ((runs_readAccept_reject (ρ := Empty)).bind (authStep demoConfig 1))
  have hsettled : σ.Settled := by
    refine ⟨?_, h.inbound, ?_⟩
    · rcases htask : σ.client.task with q | ⟨promise, n, k⟩
      · obtain rfl : q = .fail _ := by
          have := h.program
          rwa [htask] at this
        rw [Process.step, htask]
      · have := h.program
        rw [htask] at this
        cases this
    · rw [h.replies, Session.writes, h.log]
      rfl
  refine ⟨σ, h.reaches, hsettled, fun hnone ↦ ?_⟩
  obtain ⟨op, body, hR, hop, -⟩ := (deadlock_iff h.reaches hsettled).1 hnone
  have hreject : [reject] = [.other op body] := h.replies.symm.trans hR
  injection hreject with hreject
  injection hreject with hop' _
  exact hop (congrArg Subtype.val hop').symm

end FirebirdSamples.Wire
