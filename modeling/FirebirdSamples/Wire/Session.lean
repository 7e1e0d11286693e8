import FirebirdSamples.Wire.HandshakeRuns
import FirebirdSamples.Wire.ReaderRuns
import Mathlib

/-!
# The handshake against a server

The client of `samples/nodejs/srp-handshake.js` and a server with two byte streams between them
(`Session`). Four kinds of steps interleave freely: a step of the client, the delivery of some bytes
to either side, and a reply (`Session.Step`). A server replies with one packet to each of the
client's writes, once it has received all of it; its first two replies are sent in clear, the others
through one cipher keyed with the session key.

**The invariant** (`Session.Inv`) relates the two cipher states through the bytes in flight: what
the client has read and buffered, followed by what it will make of the bytes in flight, is the
plaintext of all replies, and deciphering the bytes in flight takes the decryptor to the state of
the server's cipher. The step that arms the decryptor preserves it because nothing is buffered or in
flight then: the client has written two packets, so there are at most two replies, and it has
consumed two.

The runs are those in which every reply satisfies a condition `C`. With `Packet.Readable`, the
switch to encryption is clean (`session_clean`). Without it, a response with an SQL state can leave
bytes of itself behind in the buffer (`session_unclean_of_sqlState`).
-/

namespace FirebirdSamples.Wire

open StreamProgram Srp

/-- A client, a server and the bytes between them. -/
structure Session where
  /-- The client. -/
  client : Process Empty Unit
  /-- The bytes delivered to the client so far. -/
  delivered : Buffer
  /-- The bytes in flight to the client. -/
  inbound : Buffer
  /-- The bytes the server has received. -/
  received : Buffer
  /-- The replies sent so far. -/
  replies : List Packet
  /-- The cipher of the server. -/
  cipher : Arc4

/-- The bytes an effect writes to the socket. -/
def Effect.written {ρ : Type} : Effect ρ → Option Buffer
  | .write bytes => some bytes
  | _ => none

namespace Session

/-- Both sides before the first step. -/
def start (cfg : Config) (fuel : ℕ) (K : Buffer) : Session where
  client := Process.start (handshake cfg fuel)
  delivered := []
  inbound := []
  received := []
  replies := []
  cipher := Arc4.init K

/-- The packets the client has written. -/
def writes (σ : Session) : List Buffer :=
  σ.client.log.filterMap Effect.written

/-- Some bytes in flight reach the client. -/
def deliver (σ : Session) (d rest : Buffer) : Session :=
  { σ with client := σ.client.data d, delivered := σ.delivered ++ d, inbound := rest }

/-- A reply: the first two in clear, the others enciphered. -/
def reply (σ : Session) (r : Packet) : Session :=
  if σ.replies.length < 2 then
    { σ with replies := σ.replies ++ [r], inbound := σ.inbound ++ r.encode }
  else
    { σ with
      replies := σ.replies ++ [r]
      inbound := σ.inbound ++ (σ.cipher.transform r.encode).1
      cipher := (σ.cipher.transform r.encode).2 }

/-- The steps of a session with a server that uses the key `K`. -/
inductive Step (cfg : Config) (K : Buffer) (C : Packet → Prop) : Session → Session → Prop where
  /-- The client takes a step. -/
  | client {σ : Session} {c : Process Empty Unit} (h : σ.client.step = some c) :
      Step cfg K C σ { σ with client := c }
  /-- Some of the bytes in flight are delivered to the client. -/
  | deliver {σ : Session} {d rest : Buffer} (h : σ.inbound = d ++ rest) :
      Step cfg K C σ (σ.deliver d rest)
  /-- Some of the bytes the client has written are delivered to the server. -/
  | receive {σ : Session} {d : Buffer} (h : σ.received ++ d <+: σ.writes.flatten) :
      Step cfg K C σ { σ with received := σ.received ++ d }
  /-- The server answers the oldest request without a reply, which it has received; if this accepts
  the connection, the key is the one the client derives from it. -/
  | reply {σ : Session} {r : Packet} (hC : C r) (hwritten : σ.replies.length < σ.writes.length)
      (hreceived : (σ.writes.take (σ.replies.length + 1)).flatten.length ≤ σ.received.length)
      (hkey : σ.replies = [] → ∀ acc, r.accepted = some acc → K = (clientProof cfg acc).K) :
      Step cfg K C σ (σ.reply r)

/-- The states of a session. -/
abbrev Reaches (cfg : Config) (fuel : ℕ) (K : Buffer) (C : Packet → Prop) : Session → Prop :=
  Relation.ReflTransGen (Step cfg K C) (start cfg fuel K)

/-- The client of a session is a process on the delivered bytes. -/
theorem Reaches.client {cfg : Config} {fuel : ℕ} {K : Buffer} {C : Packet → Prop} {σ : Session}
    (h : Reaches cfg fuel K C σ) : Process.Reaches (handshake cfg fuel) σ.delivered σ.client := by
  induction h with
  | refl => exact .start
  | tail _ hstep ih =>
    rcases hstep with hs | hs | hs | ⟨hC, hwritten, hreceived, hkey⟩
    · exact .step ih trivial hs
    · exact .data _ ih
    · exact ih
    · unfold reply
      split_ifs
      · exact ih
      · exact ih

/-! ### The invariant -/

/-- What holds in every state of a session whose replies satisfy `Packet.Readable`. -/
structure Inv (cfg : Config) (fuel : ℕ) (K : Buffer) (σ : Session) (plain : Buffer) : Prop where
  /-- The client is where the plaintext delivered so far takes it. -/
  tracks : Tracks (handshake cfg fuel) plain σ.client
  /-- With the bytes in flight, that is the plaintext of all replies. -/
  stream : plain ++ σ.client.reader.decode σ.inbound = σ.replies.flatMap Packet.encode
  /-- The replies are readable. -/
  readable : ∀ r ∈ σ.replies, r.Readable fuel
  /-- The key agrees with the first reply. -/
  key : ∀ r R' acc, σ.replies = r :: R' → r.accepted = some acc → K = (clientProof cfg acc).K
  /-- No reply without a request. -/
  count : σ.replies.length ≤ σ.writes.length
  /-- Without a decryptor, nothing is enciphered yet. -/
  clear : σ.client.reader.dec = none →
    (∀ c, Effect.enableDecryption c ∉ σ.client.log) ∧ σ.replies.length ≤ 2 ∧
      σ.cipher = Arc4.init K ∧ plain = σ.delivered
  /-- A decryptor has deciphered everything behind the second reply, and follows the server's
  cipher. -/
  armed : ∀ c, σ.client.reader.dec = some c →
    (∃ c', Effect.enableDecryption c' ∈ σ.client.log) ∧ 2 ≤ σ.replies.length ∧
      (c.transform σ.inbound).2 = σ.cipher ∧
      ∃ later, σ.delivered = (σ.replies.take 2).flatMap Packet.encode ++ later ∧
        plain = (σ.replies.take 2).flatMap Packet.encode ++ ((Arc4.init K).transform later).1 ∧
        c = ((Arc4.init K).transform later).2

variable {cfg : Config} {fuel : ℕ} {K : Buffer} {σ : Session} {plain : Buffer}

theorem inv_start : Inv cfg fuel K (start cfg fuel K) [] where
  tracks := tracks_start _
  stream := rfl
  readable _ h := by cases h
  key _ _ _ h := by cases h
  count := le_refl _
  clear _ := ⟨fun _ ↦ List.not_mem_nil, Nat.zero_le _, rfl, rfl⟩
  armed _ h := by cases h

theorem length_encipher (enc : Arc4) (bufs : List Buffer) :
    (encipher enc bufs).length = bufs.length := by
  induction bufs generalizing enc with
  | nil => rfl
  | cons buf bufs ih => rw [encipher, List.length_cons, List.length_cons, ih]

theorem length_wire (K : Buffer) (sent : List Buffer) : (wire K sent).length = sent.length := by
  rw [wire, List.length_append, length_encipher, ← List.length_append, List.take_append_drop]

theorem take_wire (K : Buffer) (sent : List Buffer) : (wire K sent).take 3 = sent.take 3 := by
  rcases le_total 3 sent.length with hle | hle
  · exact List.take_left' (by rw [List.length_take, Nat.min_eq_left hle])
  · rw [wire, List.drop_eq_nil_of_le hle, encipher, List.append_nil, List.take_take, Nat.min_self]

theorem drop_wire (K : Buffer) (sent : List Buffer) :
    (wire K sent).drop 3 = encipher (Arc4.init K) (sent.drop 3) := by
  rcases le_total 3 sent.length with hle | hle
  · exact List.drop_left' (by rw [List.length_take, Nat.min_eq_left hle])
  · rw [wire, List.drop_eq_nil_of_le hle, encipher, List.append_nil, List.drop_take,
      Nat.sub_self, List.take_zero]

theorem filterMap_written_map (bufs : List Buffer) :
    (bufs.map Effect.write : List (Effect Empty)).filterMap Effect.written = bufs := by
  rw [List.filterMap_map]
  exact List.filterMap_some

/-- The packets on the wire, read off the effects. -/
theorem filterMap_written_effectLog (K : Buffer) (sent : List Buffer) (armed : Bool) :
    (effectLog K sent armed : List (Effect Empty)).filterMap Effect.written = wire K sent := by
  rw [effectLog, List.filterMap_append, List.filterMap_append, filterMap_written_map,
    filterMap_written_map]
  have hnone : (if armed then [.enableDecryption (Arc4.init K)] else []
      : List (Effect Empty)).filterMap Effect.written = [] := by
    rcases armed <;> rfl
  rw [hnone, List.append_nil, List.take_append_drop]

theorem mem_effectLog_of_armed (K : Buffer) (sent : List Buffer) :
    (.enableDecryption (Arc4.init K) : Effect Empty) ∈ effectLog K sent true := by
  simp [effectLog]

theorem not_mem_effectLog_of_not_armed (K : Buffer) (sent : List Buffer) (c : Arc4) :
    (.enableDecryption c : Effect Empty) ∉ effectLog K sent false := by
  intro h
  have hwrite : ∀ bufs : List Buffer, (.enableDecryption c : Effect Empty) ∉ bufs.map .write := by
    intro bufs hmem
    obtain ⟨buf, -, hbuf⟩ := List.mem_map.1 hmem
    cases hbuf
  rcases List.mem_append.1 h with h | h
  · rcases List.mem_append.1 h with h | h
    · exact hwrite _ h
    · exact List.not_mem_nil h
  · exact hwrite _ h

/-- The position of the client in a session. -/
theorem Inv.located (h : Inv cfg fuel K σ plain) :
    ∃ cs acc handle sent armed, cs ++ σ.client.reader.buffered = plain ∧
      Located cfg K σ.replies cs σ.client.log σ.client.task.program acc handle sent armed ∧
      σ.writes = wire K sent := by
  obtain ⟨cs, hrun, hcs⟩ := h.tracks.runs
  obtain ⟨acc, handle, sent, armed, hloc⟩ := handshake_located h.readable h.key hrun
    (s := σ.client.reader.buffered ++ σ.client.reader.decode σ.inbound)
    (by rw [← List.append_assoc, hcs, h.stream])
  refine ⟨cs, acc, handle, sent, armed, hcs, hloc, ?_⟩
  rw [writes, hloc.log, filterMap_written_effectLog]

/-- **When the decryptor is about to be armed**, nothing is buffered and nothing is in flight. -/
theorem Inv.empty_of_enable (h : Inv cfg fuel K σ plain) {c : Arc4} {k : Async Empty Unit}
    (hprog : σ.client.task.program = .act (.enableDecryption c) k) :
    c = Arc4.init K ∧ σ.client.reader.dec = none ∧ σ.client.reader.buffered = [] ∧
      σ.inbound = [] ∧ σ.replies.length = 2 := by
  obtain ⟨cs, acc, handle, sent, armed, hcs, hloc, hwrites⟩ := h.located
  rcases hloc.next with hparsing | ⟨buf, k', hk⟩ | ⟨k', r₀, r₁, R', hk, harmed, hsent, hR, hcons⟩ |
    ⟨a, ha, -⟩
  · rw [hprog] at hparsing
    rcases hparsing with ⟨n, k', hk, -⟩ | ⟨e, hk⟩ <;> cases hk
  · rw [hprog] at hk
    cases hk
  · rw [hprog] at hk
    obtain rfl : c = Arc4.init K := by
      injection hk with hk _
      injection hk
    have hcount := h.count
    rw [hwrites, length_wire, hsent, hR] at hcount
    obtain rfl : R' = [] := List.eq_nil_of_length_eq_zero (by simpa using hcount)
    -- consumed, buffered and in flight are two replies, and two replies are consumed
    have hstream := h.stream
    rw [← hcs, hcons, hR, List.append_assoc] at hstream
    have hstream' : r₀.encode ++ r₁.encode ++
        (σ.client.reader.buffered ++ σ.client.reader.decode σ.inbound) =
          r₀.encode ++ r₁.encode ++ [] := by
      simpa using hstream
    have hnil := List.append_cancel_left hstream'
    obtain ⟨hbuf, hinbound⟩ := List.append_eq_nil_iff.1 hnil
    refine ⟨rfl, ?_, hbuf, ?_, by rw [hR]; rfl⟩
    · by_contra hdec
      obtain ⟨c', hc'⟩ := Option.ne_none_iff_exists'.1 hdec
      obtain ⟨⟨c'', hmem⟩, -⟩ := h.armed c' hc'
      rw [hloc.log, harmed] at hmem
      exact not_mem_effectLog_of_not_armed _ _ _ hmem
    · have hlen := congrArg List.length hinbound
      rw [Reader.length_decode] at hlen
      exact List.eq_nil_of_length_eq_zero hlen
  · rw [hprog] at ha
    cases ha

/-- The next request of the client is not negative. -/
theorem Inv.nextNonneg (h : Inv cfg fuel K σ plain) : σ.client.NextNonneg := by
  intro n k hprog
  obtain ⟨cs, acc, handle, sent, armed, -, hloc, -⟩ := h.located
  rcases hloc.next with hparsing | ⟨buf, k', hk⟩ | ⟨k', r₀, r₁, R', hk, -⟩ | ⟨a, ha, -⟩
  · rcases hparsing with ⟨m, k', hk, hm⟩ | ⟨e, hk⟩
    · rw [hprog] at hk
      injection hk with hn _
      omega
    · rw [hprog] at hk
      cases hk
  · rw [hprog] at hk
    cases hk
  · rw [hprog] at hk
    cases hk
  · rw [hprog] at ha
    cases ha

/-- With a third request on its way, the decryptor is armed. -/
theorem Inv.dec_of_three_writes (h : Inv cfg fuel K σ plain) (hwrites : 3 ≤ σ.writes.length) :
    σ.client.reader.dec ≠ none := by
  intro hdec
  obtain ⟨cs, acc, handle, sent, armed, -, hloc, hwire⟩ := h.located
  rw [hwire, length_wire] at hwrites
  obtain ⟨hclear, -⟩ := h.clear hdec
  refine hclear (Arc4.init K) ?_
  rw [hloc.log, hloc.armed_of hwrites]
  exact mem_effectLog_of_armed _ _

/-! ### The steps -/

/-- **Deliveries to the client** pass through the decryptor once and in order. -/
theorem Inv.deliver (h : Inv cfg fuel K σ plain) {d rest : Buffer}
    (hin : σ.inbound = d ++ rest) :
    Inv cfg fuel K (σ.deliver d rest) (plain ++ σ.client.reader.decode d) := by
  rcases hdec : σ.client.reader.dec with _ | c
  · have hdecode := Reader.decode_of_none hdec
    have hdec' : (σ.deliver d rest).client.reader.dec = none := by
      show σ.client.reader.dec.map _ = none
      rw [hdec]
      rfl
    obtain ⟨hclear, htwo, hcipher, hplain⟩ := h.clear hdec
    refine ⟨h.tracks.data d, ?_, h.readable, h.key, h.count, fun _ ↦ ⟨hclear, htwo, hcipher, ?_⟩,
      fun c hc ↦ ?_⟩
    · have hstream := h.stream
      rw [hdecode, hin, ← List.append_assoc] at hstream
      rw [hdecode, Reader.decode_of_none hdec']
      exact hstream
    · rw [hdecode, hplain]
      rfl
    · rw [hdec'] at hc
      cases hc
  · have hdecode := Reader.decode_of_some hdec
    have hdec' : (σ.deliver d rest).client.reader.dec = some (c.transform d).2 := by
      show σ.client.reader.dec.map _ = _
      rw [hdec]
      rfl
    obtain ⟨hlog, htwo, hcipher, later, hdelivered, hplain, rfl⟩ := h.armed c hdec
    refine ⟨h.tracks.data d, ?_, h.readable, h.key, h.count, fun hc ↦ ?_, fun c' hc' ↦ ?_⟩
    · have hstream := h.stream
      rw [hdecode, hin, Arc4.transform_append, ← List.append_assoc] at hstream
      rw [hdecode, Reader.decode_of_some hdec']
      exact hstream
    · rw [hdec'] at hc
      cases hc
    · rw [hdec'] at hc'
      obtain rfl := Option.some.inj hc'
      rw [hin, Arc4.transform_append] at hcipher
      refine ⟨hlog, htwo, hcipher, later ++ d, ?_, ?_, ?_⟩
      · show σ.delivered ++ d = _
        rw [hdelivered, List.append_assoc]
        rfl
      · rw [hplain, hdecode, Arc4.transform_append, List.append_assoc]
        rfl
      · rw [Arc4.transform_append]

/-- The key agrees with the first reply, also behind another one. -/
theorem Inv.key_concat (h : Inv cfg fuel K σ plain) {r : Packet}
    (hkey : σ.replies = [] → ∀ acc, r.accepted = some acc → K = (clientProof cfg acc).K) :
    ∀ p R' acc, σ.replies ++ [r] = p :: R' → p.accepted = some acc →
      K = (clientProof cfg acc).K := by
  intro p R' acc hp hacc
  rcases hR : σ.replies with _ | ⟨p', R''⟩
  · rw [hR] at hp
    obtain ⟨rfl, -⟩ := List.cons.inj hp
    exact hkey hR acc hacc
  · rw [hR] at hp
    obtain ⟨rfl, -⟩ := List.cons.inj hp
    exact h.key _ _ acc hR hacc

/-- The plaintext of the replies, with another one. -/
theorem flatMap_encode_concat (R : List Packet) (r : Packet) :
    (R ++ [r]).flatMap Packet.encode = R.flatMap Packet.encode ++ r.encode := by
  rw [List.flatMap_append, List.flatMap_singleton]

/-- **Replies** keep the two ciphers in step. -/
theorem Inv.reply (h : Inv cfg fuel K σ plain) {r : Packet} (hr : r.Readable fuel)
    (hwritten : σ.replies.length < σ.writes.length)
    (hkey : σ.replies = [] → ∀ acc, r.accepted = some acc → K = (clientProof cfg acc).K) :
    Inv cfg fuel K (σ.reply r) plain := by
  have hreadable : ∀ p ∈ σ.replies ++ [r], p.Readable fuel :=
    List.forall_mem_append.2 ⟨h.readable, List.forall_mem_singleton.2 hr⟩
  have hlength : (σ.replies ++ [r]).length = σ.replies.length + 1 := List.length_append
  have hcount : (σ.replies ++ [r]).length ≤ σ.writes.length := hlength ▸ hwritten
  have hstream := h.stream
  unfold Session.reply
  split_ifs with htwo
  · -- a decryptor would have to have seen two replies
    have hdec : σ.client.reader.dec = none := by
      by_contra hne
      obtain ⟨c, hc⟩ := Option.ne_none_iff_exists'.1 hne
      have := (h.armed c hc).2.1
      omega
    obtain ⟨hclear, -, hcipher, hplain⟩ := h.clear hdec
    refine ⟨h.tracks, ?_, hreadable, h.key_concat hkey, hcount,
      fun _ ↦ ⟨hclear, by rw [hlength]; omega, hcipher, hplain⟩, fun c hc ↦ ?_⟩
    · rw [Reader.decode_of_none hdec] at hstream
      show plain ++ σ.client.reader.decode (σ.inbound ++ r.encode) =
        (σ.replies ++ [r]).flatMap Packet.encode
      rw [Reader.decode_of_none hdec, flatMap_encode_concat, ← hstream, List.append_assoc]
    · rw [hdec] at hc
      cases hc
  · obtain ⟨c, hc⟩ := Option.ne_none_iff_exists'.1 (h.dec_of_three_writes (by omega))
    obtain ⟨hlog, hle, hcipher, later, hdelivered, hplain, hlater⟩ := h.armed c hc
    have htake : (σ.replies ++ [r]).take 2 = σ.replies.take 2 := List.take_append_of_le_length hle
    refine ⟨h.tracks, ?_, hreadable, h.key_concat hkey, hcount, fun hnone ↦ ?_, fun c' hc' ↦ ?_⟩
    · rw [Reader.decode_of_some hc] at hstream
      show plain ++ σ.client.reader.decode (σ.inbound ++ (σ.cipher.transform r.encode).1) =
        (σ.replies ++ [r]).flatMap Packet.encode
      rw [Reader.decode_of_some hc, flatMap_encode_concat, ← hstream, Arc4.transform_append,
        ← hcipher, Arc4.transform_transform, List.append_assoc]
    · rw [hc] at hnone
      cases hnone
    · rw [hc] at hc'
      obtain rfl := Option.some.inj hc'
      refine ⟨hlog, by rw [hlength]; omega, ?_, later, ?_, ?_, hlater⟩
      · show (c.transform (σ.inbound ++ (σ.cipher.transform r.encode).1)).2 =
          (σ.cipher.transform r.encode).2
        rw [Arc4.transform_append, ← hcipher, Arc4.transform_transform]
      · rw [htake]
        exact hdelivered
      · rw [htake]
        exact hplain

/-- A `take` changes nothing the invariant talks about but the position. -/
theorem Inv.take (h : Inv cfg fuel K σ plain) {n : ℤ} {k : Buffer → Async Empty Unit}
    (htracks : Tracks (handshake cfg fuel) plain (σ.client.takeStep n k)) :
    Inv cfg fuel K { σ with client := σ.client.takeStep n k } plain := by
  have hdec : (σ.client.takeStep n k).reader.dec = σ.client.reader.dec := by
    unfold Process.takeStep
    split_ifs <;> rfl
  have hlog : (σ.client.takeStep n k).log = σ.client.log := by
    unfold Process.takeStep
    split_ifs <;> rfl
  have hdecode : ∀ b, (σ.client.takeStep n k).reader.decode b = σ.client.reader.decode b :=
    fun b ↦ by rw [Reader.decode, Reader.decode, hdec]
  refine ⟨htracks, ?_, h.readable, h.key, ?_, ?_, ?_⟩
  · rw [hdecode]
    exact h.stream
  · rw [writes, hlog]
    exact h.count
  · rw [hdec, hlog]
    exact h.clear
  · rw [hdec, hlog]
    exact h.armed

/-- **Steps of the client**: an effect is a write, or arms the decryptor, which happens with nothing
buffered and nothing in flight. -/
theorem Inv.client (h : Inv cfg fuel K σ plain) {c : Process Empty Unit}
    (hs : σ.client.step = some c) : Inv cfg fuel K { σ with client := c } plain := by
  have htracks := h.tracks.step h.nextNonneg hs
  rcases Process.step_cases hs with ⟨n, k, -, rfl⟩ | ⟨w, k, htask, rfl⟩
  · exact h.take htracks
  · have hwrites : writes { σ with client := { σ.client with
        reader := σ.client.reader.perform w, task := .running k, log := σ.client.log ++ [w] } } =
        σ.writes ++ w.written.toList := by
      rw [writes, writes, List.filterMap_append]
      rcases w <;> rfl
    have hcount : σ.replies.length ≤ (σ.writes ++ w.written.toList).length :=
      h.count.trans (List.length_append ▸ Nat.le_add_right _ _)
    rcases w with cipher | bytes | note
    · obtain ⟨rfl, hdec, -, hinbound, htwo⟩ := h.empty_of_enable (by rw [htask]; rfl)
      obtain ⟨-, -, hcipher, hplain⟩ := h.clear hdec
      have hstream := h.stream
      rw [hinbound, Reader.decode_of_none hdec, List.append_nil] at hstream
      refine ⟨htracks, ?_, h.readable, h.key, by rw [hwrites]; exact hcount, fun hnone ↦ ?_,
        fun c hc ↦ ?_⟩
      · show plain ++ ((Arc4.init K).transform σ.inbound).1 = _
        rw [hinbound, Arc4.transform_nil, List.append_nil]
        exact hstream
      · cases hnone
      · obtain rfl : Arc4.init K = c := Option.some.inj hc
        have htake : σ.replies.take 2 = σ.replies := List.take_of_length_le htwo.le
        refine ⟨⟨Arc4.init K, by simp⟩, htwo.ge, ?_, [], ?_, ?_, rfl⟩
        · show ((Arc4.init K).transform σ.inbound).2 = σ.cipher
          rw [hinbound, hcipher]
          rfl
        · show σ.delivered = (σ.replies.take 2).flatMap Packet.encode ++ []
          rw [htake, ← hstream, hplain, List.append_nil]
        · rw [htake, ← hstream]
          exact (List.append_nil _).symm
    · refine ⟨htracks, h.stream, h.readable, h.key, by rw [hwrites]; exact hcount,
        fun hnone ↦ ?_, fun c hc ↦ ?_⟩
      · obtain ⟨hclear, hrest⟩ := h.clear hnone
        refine ⟨fun c hc ↦ ?_, hrest⟩
        rcases List.mem_append.1 hc with hc | hc
        · exact hclear c hc
        · cases List.mem_singleton.1 hc
      · obtain ⟨⟨c', hc'⟩, hrest⟩ := h.armed c hc
        exact ⟨⟨c', List.mem_append_left _ hc'⟩, hrest⟩
    · exact note.elim

/-- **Every state of a session with readable replies satisfies the invariant.** -/
theorem Reaches.inv {σ : Session} (h : Reaches cfg fuel K (Packet.Readable fuel) σ) :
    ∃ plain, Inv cfg fuel K σ plain := by
  induction h with
  | refl => exact ⟨[], inv_start⟩
  | tail _ hstep ih =>
    obtain ⟨plain, hinv⟩ := ih
    rcases hstep with hs | hs | hs | ⟨hC, hwritten, -, hkey⟩
    · exact ⟨plain, hinv.client hs⟩
    · exact ⟨_, hinv.deliver hs⟩
    · exact ⟨plain, hinv.tracks, hinv.stream, hinv.readable, hinv.key, hinv.count, hinv.clear,
        hinv.armed⟩
    · exact ⟨plain, hinv.reply hC hwritten hkey⟩

end Session

/-- **The switch to encryption is clean.** In every state of a session whose replies are readable:

* when the client is about to arm its decryptor, its reader holds no byte and none is in flight;
* the client is exactly where the plaintext of the replies delivered so far takes it: everything in
  clear before the decryptor is armed, and from then on what a fresh cipher makes of all bytes
  delivered since, whose state the decryptor is in;
* the packets written are the first ones of a complete run, with the proof and the handle that the
  replies determine: three in clear, and the others deciphered by one fresh cipher; a run that has
  ended has written all five. -/
theorem session_clean {cfg : Config} {fuel : ℕ} {K : Buffer} {σ : Session}
    (h : Session.Reaches cfg fuel K (Packet.Readable fuel) σ) :
    (∀ c k, σ.client.task.program = .act (.enableDecryption c) k →
      σ.client.reader.buffered = [] ∧ σ.client.reader.len = 0 ∧ σ.inbound = []) ∧
    (∃ plain, Tracks (handshake cfg fuel) plain σ.client ∧
      plain <+: σ.replies.flatMap Packet.encode ∧
      (σ.client.reader.dec = none → plain = σ.delivered) ∧
      ∀ c, σ.client.reader.dec = some c →
        ∃ later, σ.delivered = (σ.replies.take 2).flatMap Packet.encode ++ later ∧
          plain = (σ.replies.take 2).flatMap Packet.encode ++
            ((Arc4.init K).transform later).1 ∧ c = ((Arc4.init K).transform later).2) ∧
    ∃ (acc : Accepted) (handle : ℤ) (sent : List Buffer),
      sent.map some <+: requests cfg acc handle ∧
      σ.writes.length = sent.length ∧ σ.writes.take 3 = sent.take 3 ∧
      ((Arc4.init K).transform (σ.writes.drop 3).flatten).1 = (sent.drop 3).flatten ∧
      (2 ≤ sent.length → ∃ r R', σ.replies = r :: R' ∧ r.accepted = some acc) ∧
      (5 ≤ sent.length → ∃ r ∈ σ.replies[3]?, r.handle = some handle) ∧
      ∀ a, σ.client.task.program = .done a → sent.length = 5 := by
  obtain ⟨plain, hinv⟩ := h.inv
  refine ⟨fun c k hprog ↦ ?_, ⟨plain, hinv.tracks, ⟨_, hinv.stream⟩, fun hdec ↦ ?_,
    fun c hc ↦ ?_⟩, ?_⟩
  · obtain ⟨-, -, hbuf, hinbound, -⟩ := hinv.empty_of_enable hprog
    exact ⟨hbuf, by rw [hinv.tracks.len_eq, hbuf]; rfl, hinbound⟩
  · exact (hinv.clear hdec).2.2.2
  · obtain ⟨-, -, -, hlater⟩ := hinv.armed c hc
    exact hlater
  · obtain ⟨cs, acc, handle, sent, armed, -, hloc, hwrites⟩ := hinv.located
    refine ⟨acc, handle, sent, hloc.sent_prefix, by rw [hwrites, Session.length_wire], ?_, ?_,
      hloc.accepted, hloc.handle, fun a ha ↦ ?_⟩
    · rw [hwrites, Session.take_wire]
    · rw [hwrites, Session.drop_wire, flatten_encipher, Arc4.transform_transform]
    · rcases hloc.next with hparsing | ⟨buf, k, hk⟩ | ⟨k, r₀, r₁, R', hk, -⟩ | ⟨b, -, hsent⟩
      · rw [ha] at hparsing
        rcases hparsing with ⟨n, k, hk, -⟩ | ⟨e, hk⟩ <;> cases hk
      · rw [ha] at hk
        cases hk
      · rw [ha] at hk
        cases hk
      · exact hsent

/-! ### Runs of a session -/

namespace Session

variable {cfg : Config} {fuel : ℕ} {K : Buffer} {C : Packet → Prop} {σ : Session}

theorem Reaches.steps (h : Reaches cfg fuel K C σ) {c : Process Empty Unit}
    (hs : Process.Steps σ.client c) : Reaches cfg fuel K C { σ with client := c } := by
  induction hs with
  | refl => exact h
  | tail _ hstep ih => exact ih.tail (.client hstep)

/-- A reachable state in which nothing is in flight to the client, with its program, its buffer, its
effects and the replies so far. -/
structure Quiet (cfg : Config) (fuel : ℕ) (K : Buffer) (C : Packet → Prop) (σ : Session)
    (q : Async Empty Unit) (t : Buffer) (ws : List (Effect Empty)) (R : List Packet) : Prop where
  /-- The state is reachable. -/
  reaches : Reaches cfg fuel K C σ
  /-- The client follows its reference run. -/
  tracks : ∃ plain, Tracks (handshake cfg fuel) plain σ.client
  /-- The program left. -/
  program : σ.client.task.program = q
  /-- The bytes buffered. -/
  buffered : σ.client.reader.buffered = t
  /-- The effects so far. -/
  log : σ.client.log = ws
  /-- The replies so far. -/
  replies : σ.replies = R
  /-- Nothing is in flight to the client. -/
  inbound : σ.inbound = []
  /-- What the server has received was written. -/
  received : σ.received <+: σ.writes.flatten

/-- The client runs up to its first write, and on. -/
theorem exists_quiet_start {q : Async Empty Unit} {ws : List (Effect Empty)}
    (hrun : Runs (handshake cfg fuel) [] ws q) : ∃ σ, Quiet cfg fuel K C σ q [] ws [] := by
  obtain ⟨c, hsteps, hprog, hbuf, hlog, ht⟩ :=
    (tracks_start (handshake cfg fuel)).follows hrun rfl (t := []) rfl
  exact ⟨_, Reaches.steps (σ := start cfg fuel K) .refl hsteps, ⟨[], ht⟩, hprog, hbuf, hlog, rfl,
    rfl, List.nil_prefix⟩

/-- **One reply in clear**: the server receives what was written and replies, the reply is
delivered at once, and the client follows its run on it. -/
theorem Quiet.exchange {q e : Async Empty Unit} {ws us : List (Effect Empty)} {R : List Packet}
    (h : Quiet cfg fuel K C σ q [] ws R) (hclear : ∀ c, Effect.enableDecryption c ∉ ws) {r : Packet}
    (hC : C r) (hR : R.length < 2) (hwritten : R.length < (ws.filterMap Effect.written).length)
    (hkey : R = [] → ∀ acc, r.accepted = some acc → K = (clientProof cfg acc).K) {cs t : Buffer}
    (hr : r.encode = cs ++ t) (hrun : Runs q cs us e) :
    ∃ σ', Quiet cfg fuel K C σ' e t (ws ++ us) (R ++ [r]) := by
  obtain ⟨hreach, ⟨plain, htracks⟩, hprog, hbuf, hlog, rfl, hinbound, d, hd⟩ := h
  have hdec : σ.client.reader.dec = none := by
    by_contra hne
    obtain ⟨c, hc⟩ := Process.exists_mem_log_of_dec hreach.client hne
    exact hclear c (hlog ▸ hc)
  have hlength : σ.replies.length < σ.writes.length := by
    rw [writes, hlog]
    exact hwritten
  -- the server receives everything, replies, and the reply is delivered
  have hreceive := hreach.tail (.receive (d := d) (hd ▸ List.prefix_refl _))
  have hreply := hreceive.tail (.reply hC hlength (by
    show _ ≤ (σ.received ++ d).length
    rw [hd]
    exact (((List.take_prefix _ _).sublist).flatten).length_le) hkey)
  rw [reply, if_pos hR] at hreply
  have hdeliver := hreply.tail (.deliver (d := r.encode) (by
    show σ.inbound ++ r.encode = r.encode ++ []
    rw [hinbound, List.nil_append, List.append_nil]))
  obtain ⟨c, hsteps, hprog', hbuf', hlog', ht⟩ :=
    (htracks.data r.encode).follows hrun hprog (t := t) (by
      show (σ.client.reader.onData r.encode).buffered = _
      rw [Reader.buffered_onData, hbuf, Reader.decode_of_none hdec, hr, List.nil_append])
  refine ⟨_, Reaches.steps hdeliver hsteps, ⟨_, ht⟩, hprog', hbuf', ?_, rfl, rfl, ?_⟩
  · rw [hlog']
    exact congrArg (· ++ us) hlog
  · show σ.received ++ d <+: (c.log.filterMap Effect.written).flatten
    rw [hd, hlog', List.filterMap_append, List.flatten_append]
    exact List.prefix_append _ _

end Session

/-! ### Two runs up to the switch -/

section Demo

variable {fuel : ℕ} {C : Packet → Prop}

/-- A command line, and the private key zero. -/
def demoConfig : Config where
  hashes := oneHashes
  DB := "employee"
  USER := "SYSDBA"
  PASS := "masterkey"
  a := 0

/-- An empty salt and the public key two. -/
def demoAccepted : Accepted where
  salt := []
  B := 2
  plugin := "Srp256"

/-- The packet with this salt and key. -/
def demoAccept : Packet :=
  .accept true ⟨0, isInt32_zero⟩ ⟨0, isInt32_zero⟩ ⟨0, isInt32_zero⟩ ⟨[0, 0, 1, 0, 50], by decide⟩
    ⟨Buffer.ofString "Srp256", by decide⟩ ⟨0, isInt32_zero⟩ ⟨[], length_nil_lt⟩

/-- The session key of the run. -/
def demoKey : Buffer :=
  (clientProof demoConfig demoAccepted).K

theorem demoConfig_A : demoConfig.A = 1 := by
  have h := modPow_natCast g 0 one_lt_N
  rw [pow_zero] at h
  exact h.trans (by decide)

theorem connectPacket_demo : ∃ c, connectPacket demoConfig = some c := by
  refine Option.isSome_iff_exists.1 ?_
  rw [connectPacket, demoConfig_A]
  decide +kernel

theorem contAuthPacket_demo : ∃ m,
    contAuthPacket (clientProof demoConfig demoAccepted).M demoAccepted.plugin = some m := by
  refine Option.isSome_iff_exists.1 ?_
  rw [show (clientProof demoConfig demoAccepted).M = List.replicate 31 0 ++ [1] from rfl]
  decide +kernel

theorem accepted_demo :
    accepted [0, 0, 1, 0, 50] (Buffer.ofString "Srp256") = .ok demoAccepted := by
  have hdata : authData [0, 0, 1, 0, 50] = .ok ([], 2) := by decide +kernel
  have hplugin : Buffer.toText (Buffer.ofString "Srp256") = "Srp256" := by decide +kernel
  rw [accepted, hdata, hplugin]
  rfl

/-- A session up to the switch, whose second reply is a response that the parser takes for an
acceptance, reading a part of it. -/
theorem exists_session_enable {resp : Response} {handle : ℤ} {cs t : Buffer}
    (hC : C demoAccept) (hC' : C (.response resp))
    (hresp : (Packet.response resp).encode = cs ++ t)
    (hrun : Runs (readReply fuel "expected op_response" : Async Empty ℤ) cs [] (.done handle)) :
    ∃ σ k, Session.Reaches demoConfig fuel demoKey C σ ∧
      σ.client.task.program = .act (.enableDecryption (Arc4.init demoKey)) k ∧
      σ.client.reader.buffered = t ∧ σ.replies = [demoAccept, .response resp] := by
  obtain ⟨c, hc⟩ := connectPacket_demo
  obtain ⟨m, hm⟩ := contAuthPacket_demo
  have hconnect : Runs (handshake demoConfig fuel) [] [.write c]
      (readAccept >>= authStep demoConfig fuel : Async Empty Unit) := by
    rw [handshake, writePacket, hc]
    exact .act (.refl _)
  have hauth : Runs (readAccept >>= authStep demoConfig fuel : Async Empty Unit) demoAccept.encode
      [.write m] (readReply fuel "expected op_response" >>=
        fun _ ↦ cryptStep demoConfig fuel demoKey) := by
    have haccept := runs_readAccept_accept (ρ := Empty) true ⟨0, by decide⟩ ⟨0, by decide⟩
      ⟨0, by decide⟩ ⟨[0, 0, 1, 0, 50], by decide⟩ ⟨Buffer.ofString "Srp256", by decide⟩
      ⟨0, by decide⟩ ⟨[], by decide⟩
    rw [accepted_demo] at haccept
    have hwrite : Runs (authStep demoConfig fuel demoAccepted : Async Empty Unit) [] [.write m]
        (readReply fuel "expected op_response" >>=
          fun _ ↦ cryptStep demoConfig fuel demoKey) := by
      rw [authStep, hm]
      exact .act (.refl _)
    have h := Runs.bind_done haccept hwrite
    rw [List.append_nil] at h
    exact h
  obtain ⟨σ₀, h₀⟩ := Session.exists_quiet_start (K := demoKey) (C := C) hconnect
  obtain ⟨σ₁, h₁⟩ := h₀.exchange (r := demoAccept) (t := []) (by simp) hC (by decide)
    (by exact Nat.zero_lt_one) (fun _ acc hacc ↦ by
      have : some demoAccepted = some acc := by
        rw [← hacc, demoAccept, Packet.accepted, accepted_demo]
        rfl
      rw [← Option.some.inj this, demoKey]) (List.append_nil _).symm hauth
  obtain ⟨σ₂, h₂⟩ := h₁.exchange (r := .response resp) (by simp) hC' (by exact Nat.one_lt_two)
    (by exact Nat.one_lt_two) (fun h ↦ by cases h) hresp (hrun.bind _)
  exact ⟨σ₂, _, h₂.reaches, h₂.program, h₂.buffered, h₂.replies⟩

/-- A response without clauses: the switch is clean. -/
theorem session_clean_empty_vector : ∃ σ k,
    Session.Reaches demoConfig 1 demoKey (Packet.Readable 1) σ ∧
      σ.client.task.program = .act (.enableDecryption (Arc4.init demoKey)) k ∧
      σ.replies = [demoAccept, .response (zeroResponse [])] ∧ σ.client.reader.buffered = [] := by
  have hread : (Packet.response (zeroResponse [])).Readable 1 :=
    ⟨by decide, List.not_mem_nil, List.not_mem_nil⟩
  have hrun : Runs (readReply 1 "expected op_response" : Async Empty ℤ)
      (Packet.response (zeroResponse [])).encode [] (.done 0) := by
    refine (runs_int (Packet.response (zeroResponse [])).isInt32_opcode).bind_done ?_
    rw [if_neg fun h ↦ h rfl]
    exact runs_readResponse (zeroResponse []) hread.1 hread.2.1 hread.2.2
  obtain ⟨σ, k, hreach, hprog, -, hreplies⟩ := exists_session_enable (C := Packet.Readable 1)
    trivial hread (List.append_nil _).symm hrun
  exact ⟨σ, k, hreach, hprog, hreplies, ((session_clean hreach).1 _ _ hprog).1⟩

/-- **A response with an SQL state of four NUL bytes**: the parser takes these for the end of the
vector, and the client arms its decryptor with four bytes of the response unread. -/
theorem session_unclean_of_sqlState : ∃ σ k,
    Session.Reaches demoConfig 2 demoKey (fun _ ↦ True) σ ∧
      σ.client.task.program = .act (.enableDecryption (Arc4.init demoKey)) k ∧
      σ.replies = [demoAccept, .response (zeroResponse [.inr .sqlState])] ∧
      σ.client.reader.buffered = [0, 0, 0, 0] := by
  have hstatus := runs_readResponse_done (zeroResponse [.inr .sqlState])
    (runs_zero_sqlState (ρ := Empty) 0 [])
  have hrun : Runs (readReply 2 "expected op_response" : Async Empty ℤ)
      (xdrInt 9 ++ (xdrInt 0 ++ (List.replicate 8 0 ++ (xdrBytes [] ++
        (zeroClause (.inr .sqlState)).encode)))) [] (.done 0) := by
    refine (runs_int (Packet.response (zeroResponse [.inr .sqlState])).isInt32_opcode).bind_done ?_
    rw [if_neg fun h ↦ h rfl]
    exact hstatus
  have hsplit : (Packet.response (zeroResponse [.inr .sqlState])).encode =
      xdrInt 9 ++ (xdrInt 0 ++ (List.replicate 8 0 ++ (xdrBytes [] ++
        (zeroClause (.inr .sqlState)).encode))) ++ [0, 0, 0, 0] := rfl
  obtain ⟨σ, k, hreach, hprog, hbuf, hreplies⟩ :=
    exists_session_enable (C := fun _ ↦ True) trivial trivial hsplit hrun
  exact ⟨σ, k, hreach, hprog, hreplies, hbuf⟩

end Demo

end FirebirdSamples.Wire
