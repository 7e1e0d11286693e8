import FirebirdSamples.Wire.Handshake

/-!
# Positions in the handshake

The replies a server may send (`Packet`), and how far a reference run of the handshake gets on a
stream of them. A reply is `Readable` when the parser of responses can read it: its status vector is
shorter than the bound on the rounds, and has no warning and no SQL state in it.

`handshake_located` reads the position of the client off its reference run: the effects so far are
those of `effectLog`, the decryptor is armed between the second and the third write, and when it is
about to be armed exactly two replies are consumed. Each of the client's three readers is exact on
readable replies (`reads_readAccept`, `reads_readReply`), and the position follows by going through
the steps in order.
-/

namespace FirebirdSamples.Wire

open StreamProgram Srp

variable {ρ : Type}

/-! ### Replies -/

/-- A packet of a server. -/
inductive Packet where
  /-- `op_response`. -/
  | response (resp : Response)
  /-- `op_cond_accept`, or `op_accept_data`. -/
  | accept (conditional : Bool) (version arch ptype : Word) (data plugin : Opaque)
    (authenticated : Word) (keys : Opaque)
  /-- A packet with another opcode. -/
  | other (opcode : {v : ℤ // IsInt32 v ∧ v ≠ Op.response.code ∧ v ≠ Op.condAccept.code ∧
      v ≠ Op.acceptData.code}) (body : Buffer)

/-- The opcode of a packet that accepts a connection. -/
def acceptCode (conditional : Bool) : ℤ :=
  if conditional then Op.condAccept.code else Op.acceptData.code

theorem acceptCode_cases (conditional : Bool) :
    IsInt32 (acceptCode conditional) ∧ acceptCode conditional ≠ Op.reject.code ∧
      acceptCode conditional ≠ Op.response.code ∧
      ¬ (acceptCode conditional ≠ Op.condAccept.code ∧
        acceptCode conditional ≠ Op.acceptData.code) := by
  rcases conditional <;> decide

namespace Packet

/-- The opcode of a packet. -/
def opcode : Packet → ℤ
  | response _ => Op.response.code
  | accept conditional _ _ _ _ _ _ _ => acceptCode conditional
  | other opcode _ => opcode

/-- What follows the opcode. -/
def body : Packet → Buffer
  | response resp => resp.encode
  | accept _ version arch ptype data plugin authenticated keys =>
    xdrInt version ++ (xdrInt arch ++ (xdrInt ptype ++ (xdrBytes data ++ (xdrBytes plugin ++
      (xdrInt authenticated ++ xdrBytes keys)))))
  | other _ body => body

/-- The bytes of a packet. -/
def encode (r : Packet) : Buffer :=
  xdrInt r.opcode ++ r.body

/-- What the client makes of a packet that accepts its connection. -/
def accepted : Packet → Option Accepted
  | accept _ _ _ _ data plugin _ _ => (Wire.accepted data plugin).toOption
  | _ => none

/-- The handle of a response without an error. -/
def handle : Packet → Option ℤ
  | response resp => resp.outcome.toOption
  | _ => none

/-- The parser of responses reads the packet within its bound. -/
def Readable (fuel : ℕ) : Packet → Prop
  | response resp => resp.vector.length < fuel ∧ .inl .warning ∉ resp.vector.map Clause.tag ∧
      .inr .sqlState ∉ resp.vector.map Clause.tag
  | _ => True

theorem isInt32_opcode (r : Packet) : IsInt32 r.opcode := by
  rcases r with resp | conditional | opcode
  · exact (by decide : IsInt32 9)
  · exact (acceptCode_cases conditional).1
  · exact opcode.2.1

end Packet

/-! ### The readers -/

theorem runs_int_any {word : Buffer} (h : word.length = 4) :
    ∃ v, Runs (Await.int : Async ρ ℤ) word [] (.done v) := by
  obtain ⟨v, hv, -⟩ := Buffer.readInt32BE_eq_some_of_length h
  have hrun : Runs (Await.int : Async ρ ℤ) (word ++ []) [] (.done v) := by
    refine .take (by rw [h]; rfl) ?_
    show Runs (Await.orThrow .rangeError (Buffer.readInt32BE word) : Async ρ ℤ) _ _ _
    rw [hv]
    exact .refl _
  rw [List.append_nil] at hrun
  exact ⟨v, hrun⟩

/-- A rejected connection: the opcode is read. -/
theorem runs_readAccept_reject :
    Runs (readAccept : Async ρ Accepted) (xdrInt Op.reject.code) []
      (.fail (.error "op_reject: no protocol/plugin in common")) := by
  rw [← List.append_nil (xdrInt _)]
  refine (runs_int (by decide)).bind_done ?_
  rw [if_pos rfl]
  exact .refl _

/-- A packet with an unexpected opcode: three more words are read before the client throws. -/
theorem runs_readAccept_unexpected {opcode : ℤ} {words : Buffer} (hop : IsInt32 opcode)
    (hreject : opcode ≠ Op.reject.code)
    (hunexpected : opcode ≠ Op.condAccept.code ∧ opcode ≠ Op.acceptData.code)
    (hwords : words.length = 12) :
    Runs (readAccept : Async ρ Accepted) (xdrInt opcode ++ words) []
      (.fail (.error ("unexpected opcode " ++ toString opcode))) := by
  have hfirst : (words.take 4).length = 4 := by simp [hwords]
  have hsecond : ((words.drop 4).take 4).length = 4 := by simp [hwords]
  have hthird : (words.drop 8).length = 4 := by simp [hwords]
  obtain ⟨v₁, h₁⟩ := runs_int_any (ρ := ρ) hfirst
  obtain ⟨v₂, h₂⟩ := runs_int_any (ρ := ρ) hsecond
  obtain ⟨v₃, h₃⟩ := runs_int_any (ρ := ρ) hthird
  have hsplit : words = words.take 4 ++ ((words.drop 4).take 4 ++ (words.drop 8 ++ [])) := by
    rw [List.append_nil, show words.drop 8 = (words.drop 4).drop 4 by rw [List.drop_drop],
      List.take_append_drop, List.take_append_drop]
  rw [hsplit]
  refine (runs_int hop).bind_done ?_
  rw [if_neg hreject]
  refine h₁.bind_done (h₂.bind_done (h₃.bind_done ?_))
  rw [if_pos hunexpected]
  exact .refl _

/-- An accepted connection. -/
theorem runs_readAccept_accept (conditional : Bool) (version arch ptype : Word)
    (data plugin : Opaque) (authenticated : Word) (keys : Opaque) :
    Runs (readAccept : Async ρ Accepted)
      (Packet.accept conditional version arch ptype data plugin authenticated keys).encode []
      (ended (accepted data plugin)) := by
  obtain ⟨hop, hreject, -, haccept⟩ := acceptCode_cases conditional
  refine (runs_int hop).bind_done ?_
  rw [if_neg hreject]
  refine (runs_int version.2).bind_done ((runs_int arch.2).bind_done
    ((runs_int ptype.2).bind_done ?_))
  rw [if_neg haccept]
  refine (runs_bytes data.2).bind_done ((runs_bytes plugin.2).bind_done
    ((runs_int authenticated.2).bind_done ?_))
  rw [← List.append_nil (xdrBytes keys.1)]
  exact (runs_bytes keys.2).bind_done (.refl _)

/-- **The reply to `op_connect`.** -/
theorem reads_readAccept (r : Packet) :
    (readAccept : Async ρ Accepted).Reads r.encode r.accepted := by
  intro s
  -- an unexpected packet may be shorter than the three words the client reads of it
  have hunexpected : r.opcode ≠ Op.reject.code →
      (r.opcode ≠ Op.condAccept.code ∧ r.opcode ≠ Op.acceptData.code) →
      ∃ v t out, Runs (readAccept : Async ρ Accepted) v [] (ended out) ∧ v <+: r.encode ++ s ++ t ∧
        ∀ a, out = .ok a → v = r.encode ∧ r.accepted = some a := by
    intro hreject hop
    refine ⟨xdrInt r.opcode ++ (r.body ++ s ++ List.replicate 12 0).take 12,
      List.replicate 12 0, .error _,
      runs_readAccept_unexpected r.isInt32_opcode hreject hop ?_, ?_, fun a h ↦ by cases h⟩
    · rw [List.length_take, List.length_append, List.length_replicate]
      omega
    · rw [Packet.encode, List.append_assoc (xdrInt _), List.append_assoc (xdrInt _),
        List.prefix_append_right_inj]
      exact List.take_prefix _ _
  rcases r with resp | ⟨conditional, version, arch, ptype, data, plugin, authenticated, keys⟩ |
    ⟨opcode, body⟩
  · exact hunexpected (show (9 : ℤ) ≠ 4 by decide) (show (9 : ℤ) ≠ 98 ∧ (9 : ℤ) ≠ 94 by decide)
  · refine ⟨_, [], _, runs_readAccept_accept conditional version arch ptype data plugin
      authenticated keys, ?_, ?_⟩
    · rw [List.append_nil]
      exact List.prefix_append _ _
    · intro a h
      exact ⟨rfl, by rw [Packet.accepted, h]; rfl⟩
  · by_cases hreject : opcode.1 = Op.reject.code
    · refine ⟨_, [], .error _, runs_readAccept_reject, ?_, fun a h ↦ by cases h⟩
      rw [Packet.encode, Packet.opcode, hreject, List.append_assoc, List.append_assoc]
      exact List.prefix_append _ _
    · exact hunexpected hreject opcode.2.2.2

/-- A packet that is not a response. -/
theorem runs_readReply_other (fuel : ℕ) (message : String) {opcode : ℤ} (hop : IsInt32 opcode)
    (h : opcode ≠ Op.response.code) :
    Runs (readReply fuel message : Async ρ ℤ) (xdrInt opcode) [] (.fail (.error message)) := by
  rw [← List.append_nil (xdrInt _)]
  refine (runs_int hop).bind_done ?_
  rw [if_pos h]
  exact .refl _

/-- **The reply to the other requests.** -/
theorem reads_readReply (message : String) {fuel : ℕ} {r : Packet} (hr : r.Readable fuel) :
    (readReply fuel message : Async ρ ℤ).Reads r.encode r.handle := by
  intro s
  have hother : r.opcode ≠ Op.response.code →
      ∃ v t out, Runs (readReply fuel message : Async ρ ℤ) v [] (ended out) ∧
        v <+: r.encode ++ s ++ t ∧ ∀ a, out = .ok a → v = r.encode ∧ r.handle = some a := by
    intro hop
    refine ⟨_, [], .error _, runs_readReply_other fuel message r.isInt32_opcode hop, ?_,
      fun a h ↦ by cases h⟩
    rw [Packet.encode, List.append_assoc, List.append_assoc]
    exact List.prefix_append _ _
  rcases r with resp | conditional | ⟨opcode, body⟩
  · obtain ⟨hfuel, hw, hs⟩ := hr
    have hrun : Runs (readReply fuel message : Async ρ ℤ) (Packet.response resp).encode []
        (ended resp.outcome) := by
      refine (runs_int (Packet.response resp).isInt32_opcode).bind_done ?_
      rw [if_neg fun h ↦ h rfl]
      exact runs_readResponse resp hfuel hw hs
    refine ⟨_, [], _, hrun, ?_, fun a h ↦ ⟨rfl, by rw [Packet.handle, h]; rfl⟩⟩
    rw [List.append_nil]
    exact List.prefix_append _ _
  · exact hother (acceptCode_cases conditional).2.2.1
  · exact hother opcode.2.2.1

/-- The reply to `op_detach` is read, as far as it is, without a further effect. -/
theorem readDetachReply_cases {fuel : ℕ} {r : Packet} (hr : r.Readable fuel) {cs s s' : Buffer}
    {ws : List (Effect ρ)} {q : Async ρ Unit} (h : Runs (readDetachReply fuel) cs ws q)
    (hs : cs ++ s = r.encode ++ s') : ws = [] ∧ (q.Parsing ∨ ∃ a, q = .done a) := by
  obtain ⟨v, out, href, t, ht⟩ : ∃ v out,
      Runs (readDetachReply fuel : Async ρ Unit) v [] (ended out) ∧ v <+: r.encode := by
    by_cases hop : r.opcode = Op.response.code
    · rcases r with resp | conditional | ⟨opcode, body⟩
      · obtain ⟨hfuel, hw, hs⟩ := hr
        have hrun := (runs_readResponse (ρ := ρ) resp hfuel hw hs).bind fun _ ↦ pure ()
        have hend : ((ended resp.outcome : Async ρ ℤ) >>= fun _ ↦ pure ()) =
            ended (resp.outcome.map fun _ ↦ ()) := by
          rcases resp.outcome with _ | _ <;> rfl
        rw [hend] at hrun
        refine ⟨_, resp.outcome.map fun _ ↦ (),
          (runs_int (Packet.response resp).isInt32_opcode).bind_done ?_, List.prefix_refl _⟩
        rw [if_pos hop]
        exact hrun
      · exact absurd hop (acceptCode_cases conditional).2.2.1
      · exact absurd hop opcode.2.2.1
    · refine ⟨xdrInt r.opcode ++ [], .ok (), (runs_int r.isInt32_opcode).bind_done ?_, ?_⟩
      · rw [if_neg hop]
        exact .refl _
      · rw [List.append_nil]
        exact List.prefix_append _ _
  obtain ⟨ds, us, hrest, -, hnil⟩ := href.completes h (s := s) (by
    rw [hs, ← ht, List.append_assoc])
  obtain ⟨rfl, rfl⟩ := List.append_eq_nil_iff.1 hnil.symm
  rcases hrest.parsing_or_done with hparsing | ⟨a, rfl, -, -⟩
  · exact ⟨rfl, Or.inl hparsing⟩
  · exact ⟨rfl, Or.inr ⟨a, rfl⟩⟩

/-! ### Positions -/

/-- Encipher buffers one after the other with one cipher. -/
def encipher : Arc4 → List Buffer → List Buffer
  | _, [] => []
  | enc, buf :: bufs => (enc.transform buf).1 :: encipher (enc.transform buf).2 bufs

/-- What is enciphered piece by piece is enciphered as a whole. -/
theorem flatten_encipher (enc : Arc4) (bufs : List Buffer) :
    (encipher enc bufs).flatten = (enc.transform bufs.flatten).1 := by
  induction bufs generalizing enc with
  | nil => rfl
  | cons buf bufs ih =>
    rw [encipher, List.flatten_cons, List.flatten_cons, ih, Arc4.transform_append]

/-- The packets the client writes in a complete run. -/
def requests (cfg : Config) (acc : Accepted) (handle : ℤ) : List (Option Buffer) :=
  [connectPacket cfg, contAuthPacket (clientProof cfg acc).M acc.plugin, cryptPacket,
    attachPacket cfg, detachPacket handle]

/-- The bytes on the wire for the first packets: three in clear, the others enciphered. -/
def wire (K : Buffer) (sent : List Buffer) : List Buffer :=
  sent.take 3 ++ encipher (Arc4.init K) (sent.drop 3)

/-- The effects of a client that has written these packets, and has or has not yet armed its
decryptor. -/
def effectLog (K : Buffer) (sent : List Buffer) (armed : Bool) : List (Effect ρ) :=
  ((wire K sent).take 2).map .write ++ (if armed then [.enableDecryption (Arc4.init K)] else []) ++
    ((wire K sent).drop 2).map .write

/-- **A position in the handshake**, with the replies received on the stream, the bytes consumed of
them, the effects so far and the program left. -/
structure Located (cfg : Config) (K : Buffer) (R : List Packet) (cs : Buffer)
    (ws : List (Effect ρ)) (q : Async ρ Unit) (acc : Accepted) (handle : ℤ) (sent : List Buffer)
    (armed : Bool) : Prop where
  /-- The effects are those of the packets sent. -/
  log : ws = effectLog K sent armed
  /-- The packets sent are the first ones of a complete run. -/
  sent_prefix : sent.map some <+: requests cfg acc handle
  /-- The proof is computed from the first reply. -/
  accepted : 2 ≤ sent.length → ∃ r R', R = r :: R' ∧ r.accepted = some acc
  /-- The handle is the one in the fourth reply. -/
  handle : 5 ≤ sent.length → ∃ r ∈ R[3]?, r.handle = some handle
  /-- An armed client has written two packets, and received two replies. -/
  of_armed : armed = true → 2 ≤ sent.length ∧ 2 ≤ R.length
  /-- A client that has written three packets is armed. -/
  armed_of : 3 ≤ sent.length → armed = true
  /-- What the program does next: read, write, arm the decryptor with exactly two replies
  consumed, or end after the fifth packet. -/
  next : q.Parsing ∨ (∃ buf k, q = .act (.write buf) k) ∨
    (∃ k r₀ r₁ R', q = .act (.enableDecryption (Arc4.init K)) k ∧ armed = false ∧
      sent.length = 2 ∧ R = r₀ :: r₁ :: R' ∧ cs = r₀.encode ++ r₁.encode) ∨
    ∃ a, q = .done a ∧ sent.length = 5

/-- A write in front of a continuation: not reached because the packet could not be built, about
to happen, or done. -/
theorem writePacket_cases {packet : Option Buffer} {f : Buffer → Async ρ Unit} {cs : Buffer}
    {ws : List (Effect ρ)} {q : Async ρ Unit} (h : Runs (writePacket packet >>= f) cs ws q) :
    (cs = [] ∧ ws = [] ∧ (q.Parsing ∨ ∃ buf k, q = .act (.write buf) k)) ∨
      ∃ buf ws', packet = some buf ∧ ws = .write buf :: ws' ∧ Runs (f buf) cs ws' q := by
  rcases packet with _ | buf
  · obtain ⟨rfl, rfl, rfl⟩ := runs_fail_iff.1 h
    exact Or.inl ⟨rfl, rfl, Or.inl (Or.inr ⟨_, rfl⟩)⟩
  · cases h with
    | refl => exact Or.inl ⟨rfl, rfl, Or.inr ⟨_, _, rfl⟩⟩
    | act h => exact Or.inr ⟨buf, _, rfl, rfl, h⟩

/-- The same for an enciphered write. -/
theorem sendPacket_cases {enc : Arc4} {packet : Option Buffer} {f : Arc4 → Async ρ Unit}
    {cs : Buffer} {ws : List (Effect ρ)} {q : Async ρ Unit}
    (h : Runs (sendPacket enc packet >>= f) cs ws q) :
    (cs = [] ∧ ws = [] ∧ (q.Parsing ∨ ∃ buf k, q = .act (.write buf) k)) ∨
      ∃ buf ws', packet = some buf ∧ ws = .write (enc.transform buf).1 :: ws' ∧
        Runs (f (enc.transform buf).2) cs ws' q := by
  rcases packet with _ | buf
  · obtain ⟨rfl, rfl, rfl⟩ := runs_fail_iff.1 h
    exact Or.inl ⟨rfl, rfl, Or.inl (Or.inr ⟨_, rfl⟩)⟩
  · cases h with
    | refl => exact Or.inl ⟨rfl, rfl, Or.inr ⟨_, _, rfl⟩⟩
    | act h => exact Or.inr ⟨buf, _, rfl, rfl, h⟩

/-- A reader in front of a continuation, on a stream of packets it is exact on: the client is inside
the reader, or has consumed the first packet and is in the continuation. -/
theorem reads_cases {α : Type} {p : Async ρ α} {out : Packet → Option α} {R : List Packet}
    {f : α → Async ρ Unit} {cs s : Buffer} {ws : List (Effect ρ)} {q : Async ρ Unit}
    (hp : ∀ r : Packet, r ∈ R ∨ r = .other ⟨0, by decide⟩ [] → p.Reads r.encode (out r))
    (h : Runs (p >>= f) cs ws q) (hs : cs ++ s = R.flatMap Packet.encode) :
    (ws = [] ∧ q.Parsing) ∨ ∃ r R' a cs', R = r :: R' ∧ out r = some a ∧ cs = r.encode ++ cs' ∧
      cs' ++ s = R'.flatMap Packet.encode ∧ Runs (f a) cs' ws q := by
  rcases R with _ | ⟨r, R⟩
  · -- nothing has arrived yet: compare with a stream on which something does
    obtain ⟨rfl, rfl⟩ := List.append_eq_nil_iff.1 hs
    rcases (hp _ (Or.inr rfl)).bind_cases h (by rw [List.nil_append, List.append_nil])
      with hleft | ⟨a, cs', -, hcs, -⟩
    · exact Or.inl hleft
    · exact absurd (List.append_eq_nil_iff.1 hcs.symm).1 (by decide)
  · rcases (hp r (Or.inl List.mem_cons_self)).bind_cases h hs with hleft | ⟨a, cs', hout, rfl, hf⟩
    · exact Or.inl hleft
    · rw [List.flatMap_cons, List.append_assoc] at hs
      exact Or.inr ⟨r, R, a, cs', rfl, hout, rfl, List.append_cancel_left hs, hf⟩

section Steps

variable {cfg : Config} {fuel : ℕ} {K : Buffer} {acc : Accepted} {c m y : Buffer}
  {r₀ r₁ r₂ : Packet} {R : List Packet} {cs s : Buffer} {ws : List (Effect ρ)} {q : Async ρ Unit}

/-- What `reads_cases` asks of the readers behind the first. -/
theorem reads_readReply_or (message : String) (hR : ∀ r ∈ R, r.Readable fuel) (r : Packet)
    (h : r ∈ R ∨ r = .other ⟨0, by decide⟩ []) :
    (readReply fuel message : Async ρ ℤ).Reads r.encode r.handle := by
  rcases h with h | rfl
  · exact reads_readReply message (hR r h)
  · exact reads_readReply message trivial

/-- The end of the run never does anything visible. -/
theorem readDetachReply_located (hR : ∀ r ∈ R, r.Readable fuel)
    (h : Runs (readDetachReply fuel) cs ws q) (hs : cs ++ s = R.flatMap Packet.encode) :
    ws = [] ∧ (q.Parsing ∨ ∃ a, q = .done a) := by
  rcases R with _ | ⟨r, R⟩
  · obtain ⟨rfl, rfl⟩ := List.append_eq_nil_iff.1 hs
    exact readDetachReply_cases (r := .other ⟨0, by decide⟩ []) trivial h
      (by rw [List.nil_append, List.append_nil])
  · exact readDetachReply_cases (hR r List.mem_cons_self) h hs

/-- Behind the reply to `op_crypt`. -/
theorem attachStep_located (hc : connectPacket cfg = some c)
    (hm : contAuthPacket (clientProof cfg acc).M acc.plugin = some m) (hy : cryptPacket = some y)
    (hacc : r₀.accepted = some acc) (hR : ∀ r ∈ R, r.Readable fuel)
    (h : Runs (attachStep cfg fuel (Arc4.init K)) cs ws q)
    (hs : cs ++ s = R.flatMap Packet.encode) (cs' : Buffer) :
    ∃ handle sent, Located cfg K (r₀ :: r₁ :: r₂ :: R) cs' (effectLog K [c, m, y] true ++ ws) q
      acc handle sent true := by
  have hhead : ∃ r R', r₀ :: r₁ :: r₂ :: R = r :: R' ∧ r.accepted = some acc :=
    ⟨_, _, rfl, hacc⟩
  rcases sendPacket_cases h with ⟨rfl, rfl, hnext⟩ | ⟨t, ws₁, ht, rfl, h₁⟩
  · refine ⟨0, [c, m, y], rfl, ?_, fun _ ↦ hhead, fun h ↦ absurd h (by simp),
      fun _ ↦ ⟨by simp, by simp⟩, fun _ ↦ rfl, hnext.imp_right Or.inl⟩
    exact ⟨[_, _], by rw [requests, hc, hm, hy]; rfl⟩
  rcases reads_cases (reads_readReply_or _ hR) h₁ hs with
    ⟨rfl, hparsing⟩ | ⟨r₃, R', handle, cs₁, rfl, hhandle, rfl, hs₁, h₂⟩
  · refine ⟨0, [c, m, y, t], rfl, ?_, fun _ ↦ hhead, fun h ↦ absurd h (by simp),
      fun _ ↦ ⟨by simp, by simp⟩, fun _ ↦ rfl, Or.inl hparsing⟩
    exact ⟨[_], by rw [requests, hc, hm, hy, ht]; rfl⟩
  rcases sendPacket_cases h₂ with ⟨rfl, rfl, hnext⟩ | ⟨d, ws₂, hd, rfl, h₃⟩
  · refine ⟨handle, [c, m, y, t], rfl, ?_, fun _ ↦ hhead, fun h ↦ absurd h (by simp),
      fun _ ↦ ⟨by simp, by simp⟩, fun _ ↦ rfl, hnext.imp_right Or.inl⟩
    exact ⟨[_], by rw [requests, hc, hm, hy, ht]; rfl⟩
  obtain ⟨rfl, hnext⟩ :=
    readDetachReply_located (fun r hr ↦ hR r (List.mem_cons_of_mem _ hr)) h₃ hs₁
  refine ⟨handle, [c, m, y, t, d], rfl, ?_, fun _ ↦ hhead, fun _ ↦ ⟨r₃, rfl, hhandle⟩,
    fun _ ↦ ⟨by simp, by simp⟩, fun _ ↦ rfl, ?_⟩
  · exact ⟨[], by rw [requests, hc, hm, hy, ht, hd]; rfl⟩
  · rcases hnext with hparsing | ⟨a, rfl⟩
    · exact Or.inl hparsing
    · exact Or.inr (Or.inr (Or.inr ⟨a, rfl, rfl⟩))

/-- Behind the reply to `op_cont_auth`. -/
theorem cryptStep_located (hc : connectPacket cfg = some c)
    (hm : contAuthPacket (clientProof cfg acc).M acc.plugin = some m)
    (hacc : r₀.accepted = some acc) (hR : ∀ r ∈ R, r.Readable fuel)
    (h : Runs (cryptStep cfg fuel K) cs ws q) (hs : cs ++ s = R.flatMap Packet.encode) :
    ∃ handle sent armed, Located cfg K (r₀ :: r₁ :: R) (r₀.encode ++ (r₁.encode ++ cs))
      (effectLog K [c, m] false ++ ws) q acc handle sent armed := by
  have hhead : ∃ r R', r₀ :: r₁ :: R = r :: R' ∧ r.accepted = some acc := ⟨_, _, rfl, hacc⟩
  have htwo : [c, m].map some <+: requests cfg acc 0 :=
    ⟨[_, _, _], by rw [requests, hc, hm]; rfl⟩
  cases h with
  | refl =>
    refine ⟨0, [c, m], false, List.append_nil _, htwo, fun _ ↦ hhead,
      fun h ↦ absurd h (by simp), fun h ↦ absurd h (by simp), fun h ↦ absurd h (by simp),
      Or.inr (Or.inr (Or.inl ⟨_, r₀, r₁, R, rfl, rfl, rfl, rfl, ?_⟩))⟩
    rw [List.append_nil]
  | act h =>
    rcases writePacket_cases h with ⟨rfl, rfl, hnext⟩ | ⟨y, ws₁, hy, rfl, h₁⟩
    · exact ⟨0, [c, m], true, rfl, htwo, fun _ ↦ hhead, fun h ↦ absurd h (by simp),
        fun _ ↦ ⟨by simp, by simp⟩, fun _ ↦ rfl, hnext.imp_right Or.inl⟩
    rcases reads_cases (reads_readReply_or _ hR) h₁ hs with
      ⟨rfl, hparsing⟩ | ⟨r₂, R', handle, cs₁, rfl, -, rfl, hs₁, h₂⟩
    · refine ⟨0, [c, m, y], true, rfl, ?_, fun _ ↦ hhead, fun h ↦ absurd h (by simp),
        fun _ ↦ ⟨by simp, by simp⟩, fun _ ↦ rfl, Or.inl hparsing⟩
      exact ⟨[_, _], by rw [requests, hc, hm, hy]; rfl⟩
    obtain ⟨handle, sent, hloc⟩ := attachStep_located hc hm hy hacc
      (fun r hr ↦ hR r (List.mem_cons_of_mem _ hr)) h₂ hs₁
      (r₀.encode ++ (r₁.encode ++ (r₂.encode ++ cs₁)))
    exact ⟨handle, sent, true, hloc⟩

/-- Behind the reply to `op_connect`. -/
theorem authStep_located (hc : connectPacket cfg = some c) (hacc : r₀.accepted = some acc)
    (hK : K = (clientProof cfg acc).K) (hR : ∀ r ∈ R, r.Readable fuel)
    (h : Runs (authStep cfg fuel acc) cs ws q) (hs : cs ++ s = R.flatMap Packet.encode) :
    ∃ handle sent armed, Located cfg K (r₀ :: R) (r₀.encode ++ cs) (effectLog K [c] false ++ ws) q
      acc handle sent armed := by
  have hhead : ∃ r R', r₀ :: R = r :: R' ∧ r.accepted = some acc := ⟨_, _, rfl, hacc⟩
  rcases writePacket_cases h with ⟨rfl, rfl, hnext⟩ | ⟨m, ws₁, hm, rfl, h₁⟩
  · refine ⟨0, [c], false, rfl, ?_, fun _ ↦ hhead, fun h ↦ absurd h (by simp),
      fun h ↦ absurd h (by simp), fun h ↦ absurd h (by simp), hnext.imp_right Or.inl⟩
    exact ⟨[_, _, _, _], by rw [requests, hc]; rfl⟩
  rcases reads_cases (reads_readReply_or _ hR) h₁ hs with
    ⟨rfl, hparsing⟩ | ⟨r₁, R', handle, cs₁, rfl, -, rfl, hs₁, h₂⟩
  · refine ⟨0, [c, m], false, rfl, ?_, fun _ ↦ hhead, fun h ↦ absurd h (by simp),
      fun h ↦ absurd h (by simp), fun h ↦ absurd h (by simp), Or.inl hparsing⟩
    exact ⟨[_, _, _], by rw [requests, hc, hm]; rfl⟩
  rw [← hK] at h₂
  exact cryptStep_located hc hm hacc (fun r hr ↦ hR r (List.mem_cons_of_mem _ hr)) h₂ hs₁

/-- **Where the handshake stands.** On a stream of readable replies, with a key that agrees with the
first of them, every run of the handshake is at one of its positions. -/
theorem handshake_located (hR : ∀ r ∈ R, r.Readable fuel)
    (hK : ∀ r R' acc, R = r :: R' → r.accepted = some acc → K = (clientProof cfg acc).K)
    (h : Runs (handshake cfg fuel) cs ws q) (hs : cs ++ s = R.flatMap Packet.encode) :
    ∃ acc handle sent armed, Located cfg K R cs ws q acc handle sent armed := by
  rcases writePacket_cases h with ⟨rfl, rfl, hnext⟩ | ⟨c, ws₁, hc, rfl, h₁⟩
  · exact ⟨default, 0, [], false, rfl, List.nil_prefix, fun h ↦ absurd h (by simp),
      fun h ↦ absurd h (by simp), fun h ↦ absurd h (by simp), fun h ↦ absurd h (by simp),
      hnext.imp_right Or.inl⟩
  rcases reads_cases (fun r _ ↦ reads_readAccept r) h₁ hs with
    ⟨rfl, hparsing⟩ | ⟨r₀, R', acc, cs₁, rfl, hacc, rfl, hs₁, h₂⟩
  · refine ⟨default, 0, [c], false, rfl, ?_, fun h ↦ absurd h (by simp),
      fun h ↦ absurd h (by simp), fun h ↦ absurd h (by simp), fun h ↦ absurd h (by simp),
      Or.inl hparsing⟩
    exact ⟨[_, _, _, _], by rw [requests, hc]; rfl⟩
  obtain ⟨handle, sent, armed, hloc⟩ := authStep_located hc hacc (hK r₀ R' acc rfl hacc)
    (fun r hr ↦ hR r (List.mem_cons_of_mem _ hr)) h₂ hs₁
  exact ⟨acc, handle, sent, armed, hloc⟩

end Steps

end FirebirdSamples.Wire
