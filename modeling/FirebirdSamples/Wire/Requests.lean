import FirebirdSamples.Wire.Session

/-!
# The requests as a server reads them

The other end of the stream that the client writes: a reader for the requests of the handshake
(`readRequest`), in the order of the fields on the wire. Each packet that the client builds is read
back as the request it stands for, to its last byte (`readAs_connect` and the four behind it), so
that packets can follow each other without a mark between them (`runs_serve`).

The server deciphers what comes behind the third packet. In every state of a session it reads the
requests of one run, each with the values of the command line, of the first reply and of the fourth
(`requests_read`).
-/

namespace FirebirdSamples.Wire

open StreamProgram Srp

variable {ρ : Type}

/-! ### Requests -/

/-- A protocol that is offered. -/
structure Protocol where
  /-- The version. -/
  version : ℤ
  /-- The architecture. -/
  architecture : ℤ
  /-- The least packet type. -/
  minType : ℤ
  /-- The greatest packet type. -/
  maxType : ℤ
  /-- The weight. -/
  weight : ℤ

/-- A request of the handshake. -/
inductive Request where
  | connect (operation version architecture : ℤ) (database userId : Buffer)
    (protocols : List Protocol)
  | contAuth (data plugin list keys : Buffer)
  | crypt (plugin key : Buffer)
  | attach (object : ℤ) (database dpb : Buffer)
  | detach (object : ℤ)

/-- Read some protocols. -/
def readProtocols : ℕ → Async ρ (List Protocol)
  | 0 => pure []
  | n + 1 => do
    let version ← Await.int
    let architecture ← Await.int
    let minType ← Await.int
    let maxType ← Await.int
    let weight ← Await.int
    let protocols ← readProtocols n
    pure ({ version, architecture, minType, maxType, weight } :: protocols)

/-- Read what follows the opcode of `op_connect`. -/
def readConnect : Async ρ Request := do
  let operation ← Await.int
  let version ← Await.int
  let architecture ← Await.int
  let database ← Await.bytes
  let count ← Await.int
  let userId ← Await.bytes
  let protocols ← readProtocols count.toNat
  pure (.connect operation version architecture database userId protocols)

/-- Read what follows the opcode of `op_cont_auth`. -/
def readContAuth : Async ρ Request := do
  let data ← Await.bytes
  let plugin ← Await.bytes
  let list ← Await.bytes
  let keys ← Await.bytes
  pure (.contAuth data plugin list keys)

/-- Read what follows the opcode of `op_crypt`. -/
def readCrypt : Async ρ Request := do
  let plugin ← Await.bytes
  let key ← Await.bytes
  pure (.crypt plugin key)

/-- Read what follows the opcode of `op_attach`. -/
def readAttach : Async ρ Request := do
  let object ← Await.int
  let database ← Await.bytes
  let dpb ← Await.bytes
  pure (.attach object database dpb)

/-- Read a request. -/
def readRequest : Async ρ Request := do
  let op ← Await.int
  if op = Op.connect.code then
    readConnect
  else if op = Op.contAuth.code then
    readContAuth
  else if op = Op.crypt.code then
    readCrypt
  else if op = Op.attach.code then
    readAttach
  else if op = Op.detach.code then do
    let object ← Await.int
    pure (.detach object)
  else
    fail (.error ("unexpected opcode " ++ toString op))

/-- Read requests one after the other, and note each of them. -/
def serve : ℕ → Async Request Unit
  | 0 => pure ()
  | n + 1 => do
    let r ← readRequest
    perform (.note r)
    serve n

/-! ### What was written -/

theorem Writer.int_eq_some {w w' : Writer} {v : ℤ} (h : w.int v = some w') :
    IsInt32 v ∧ w'.buf = w.buf ++ xdrInt v := by
  have hv : IsInt32 v := by
    by_contra hno
    rw [int, Buffer.writeInt32BE, if_neg (show ¬ (-2147483648 ≤ v ∧ v ≤ 2147483647) from hno)] at h
    cases h
  obtain ⟨w₁, hw, hbuf⟩ := w.int_of_isInt32 hv
  rw [h] at hw
  obtain rfl := Option.some.inj hw
  exact ⟨hv, hbuf⟩

theorem Writer.bytes_eq_some {w w' : Writer} {b : Buffer} (h : w.bytes b = some w') :
    b.length < 2147483648 ∧ w'.buf = w.buf ++ xdrBytes b := by
  have hlen : b.length < 2147483648 := by
    obtain ⟨w₁, hw, -⟩ := Option.map_eq_some_iff.1 h
    have := (int_eq_some hw).1.2
    omega
  obtain ⟨w₁, hw, hbuf⟩ := w.bytes_of_length_lt hlen
  rw [h] at hw
  obtain rfl := Option.some.inj hw
  exact ⟨hlen, hbuf⟩

theorem Writer.buf_new : Writer.new.buf = [] := rfl

/-- The bytes of a protocol that is offered. -/
def protocolBytes (v : ℕ × ℕ) : Buffer :=
  xdrInt (v.1 ||| 0x8000 : ℕ) ++ (xdrInt 1 ++ (xdrInt 3 ++ (xdrInt 3 ++ xdrInt (v.2 + 2))))

/-- The protocol. -/
def protocolOf (v : ℕ × ℕ) : Protocol where
  version := (v.1 ||| 0x8000 : ℕ)
  architecture := 1
  minType := 3
  maxType := 3
  weight := v.2 + 2

theorem foldlM_offerProtocol {l : List (ℕ × ℕ)} {w w' : Writer}
    (h : l.foldlM offerProtocol w = some w') :
    w'.buf = w.buf ++ l.flatMap protocolBytes ∧
      Runs (readProtocols l.length : Async ρ (List Protocol)) (l.flatMap protocolBytes) []
        (.done (l.map protocolOf)) := by
  induction l generalizing w with
  | nil =>
    obtain rfl := Option.some.inj h
    exact ⟨(List.append_nil _).symm, .refl _⟩
  | cons v l ih =>
    rw [List.foldlM_cons] at h
    obtain ⟨w₅, hv, h⟩ := Option.bind_eq_some_iff.1 h
    obtain ⟨w₁, h₁, hv⟩ := Option.bind_eq_some_iff.1 hv
    obtain ⟨w₂, h₂, hv⟩ := Option.bind_eq_some_iff.1 hv
    obtain ⟨w₃, h₃, hv⟩ := Option.bind_eq_some_iff.1 hv
    obtain ⟨w₄, h₄, h₅⟩ := Option.bind_eq_some_iff.1 hv
    obtain ⟨hversion, hbuf₁⟩ := Writer.int_eq_some h₁
    obtain ⟨harchitecture, hbuf₂⟩ := Writer.int_eq_some h₂
    obtain ⟨hmin, hbuf₃⟩ := Writer.int_eq_some h₃
    obtain ⟨hmax, hbuf₄⟩ := Writer.int_eq_some h₄
    obtain ⟨hweight, hbuf₅⟩ := Writer.int_eq_some h₅
    obtain ⟨hbuf, hrun⟩ := ih h
    refine ⟨?_, ?_⟩
    · rw [hbuf, hbuf₅, hbuf₄, hbuf₃, hbuf₂, hbuf₁, List.flatMap_cons, protocolBytes]
      simp only [List.append_assoc]
    · rw [List.flatMap_cons, protocolBytes]
      simp only [List.append_assoc]
      refine (runs_int hversion).bind_done ((runs_int harchitecture).bind_done
        ((runs_int hmin).bind_done ((runs_int hmax).bind_done ((runs_int hweight).bind_done ?_))))
      have hend := hrun.bind_done (f := fun protocols ↦ pure (protocolOf v :: protocols)) (.refl _)
      rwa [List.append_nil] at hend

/-! ### Reading a packet back -/

/-- What `op_connect` asks for. -/
def connectRequest (cfg : Config) : Request :=
  .connect Op.attach.code 3 1 (Buffer.ofString cfg.DB)
    (userIdBlock cfg.USER "Srp256" "Srp256,Srp" (bigToHex cfg.A)) (offered.zipIdx.map protocolOf)

/-- What `op_cont_auth` asks for. -/
def contAuthRequest (M : Buffer) (plugin : String) : Request :=
  .contAuth (Buffer.ofString (String.ofList (bufToHex M))) (Buffer.ofString plugin)
    (Buffer.ofString "Srp256,Srp") (Buffer.ofString "")

/-- What `op_crypt` asks for. -/
def cryptRequest : Request :=
  .crypt (Buffer.ofString "Arc4") (Buffer.ofString "Symmetric")

/-- What `op_attach` asks for. -/
def attachRequest (cfg : Config) : Request :=
  .attach 0 (Buffer.ofString cfg.DB) (dpb cfg)

/-- The requests of a complete run. -/
def requestsOf (cfg : Config) (acc : Accepted) (handle : ℤ) : List Request :=
  [connectRequest cfg, contAuthRequest (clientProof cfg acc).M acc.plugin, cryptRequest,
    attachRequest cfg, .detach handle]

/-- A packet is read as a request, to its last byte. -/
def ReadAs (packet : Option Buffer) (r : Request) : Prop :=
  ∀ b, packet = some b → ∀ ρ : Type, Runs (readRequest : Async ρ Request) b [] (.done r)

/-- An opaque at the end of a packet. -/
theorem runs_bytes_last {α : Type} {b : Buffer} (hb : b.length < 2147483648)
    (f : Buffer → Async ρ α) {a : α} (hf : f b = pure a) :
    Runs (Await.bytes >>= f) (xdrBytes b) [] (.done a) := by
  have hend : Runs (f b) [] [] (.done a) := by
    rw [hf]
    exact .refl _
  have h := (runs_bytes hb).bind_done hend
  rwa [List.append_nil] at h

/-- **`op_connect` is read back.** -/
theorem readAs_connect (cfg : Config) : ReadAs (connectPacket cfg) (connectRequest cfg) := by
  intro b h ρ
  unfold connectPacket at h
  obtain ⟨w₁, h₁, h⟩ := Option.bind_eq_some_iff.1 h
  obtain ⟨w₂, h₂, h⟩ := Option.bind_eq_some_iff.1 h
  obtain ⟨w₃, h₃, h⟩ := Option.bind_eq_some_iff.1 h
  obtain ⟨w₄, h₄, h⟩ := Option.bind_eq_some_iff.1 h
  obtain ⟨w₅, h₅, h⟩ := Option.bind_eq_some_iff.1 h
  obtain ⟨w₆, h₆, h⟩ := Option.bind_eq_some_iff.1 h
  obtain ⟨w₇, h₇, h⟩ := Option.bind_eq_some_iff.1 h
  obtain ⟨w₈, h₈, h⟩ := Option.bind_eq_some_iff.1 h
  obtain rfl := Option.some.inj h
  obtain ⟨hop, hbuf₁⟩ := Writer.int_eq_some h₁
  obtain ⟨hoperation, hbuf₂⟩ := Writer.int_eq_some h₂
  obtain ⟨hversion, hbuf₃⟩ := Writer.int_eq_some h₃
  obtain ⟨harchitecture, hbuf₄⟩ := Writer.int_eq_some h₄
  obtain ⟨hdatabase, hbuf₅⟩ := Writer.bytes_eq_some h₅
  obtain ⟨hcount, hbuf₆⟩ := Writer.int_eq_some h₆
  obtain ⟨huserId, hbuf₇⟩ := Writer.bytes_eq_some h₇
  obtain ⟨hbuf₈, hprotocols⟩ := foldlM_offerProtocol (ρ := ρ) h₈
  rw [hbuf₈, hbuf₇, hbuf₆, hbuf₅, hbuf₄, hbuf₃, hbuf₂, hbuf₁, Writer.buf_new]
  simp only [List.nil_append, List.append_assoc]
  refine (runs_int hop).bind_done ?_
  rw [if_pos rfl]
  refine (runs_int hoperation).bind_done ((runs_int hversion).bind_done
    ((runs_int harchitecture).bind_done ((runs_bytes hdatabase).bind_done
      ((runs_int hcount).bind_done ((runs_bytes huserId).bind_done ?_)))))
  have hend := hprotocols.bind_done (f := fun protocols ↦ (pure (.connect Op.attach.code 3 1
    (Buffer.ofString cfg.DB) (userIdBlock cfg.USER "Srp256" "Srp256,Srp" (bigToHex cfg.A))
      protocols) : Async ρ Request)) (.refl _)
  rwa [List.append_nil] at hend

/-- **`op_cont_auth` is read back.** -/
theorem readAs_contAuth (M : Buffer) (plugin : String) :
    ReadAs (contAuthPacket M plugin) (contAuthRequest M plugin) := by
  intro b h ρ
  unfold contAuthPacket at h
  obtain ⟨w₁, h₁, h⟩ := Option.bind_eq_some_iff.1 h
  obtain ⟨w₂, h₂, h⟩ := Option.bind_eq_some_iff.1 h
  obtain ⟨w₃, h₃, h⟩ := Option.bind_eq_some_iff.1 h
  obtain ⟨w₄, h₄, h⟩ := Option.bind_eq_some_iff.1 h
  obtain ⟨w₅, h₅, h⟩ := Option.bind_eq_some_iff.1 h
  obtain rfl := Option.some.inj h
  obtain ⟨hop, hbuf₁⟩ := Writer.int_eq_some h₁
  obtain ⟨hdata, hbuf₂⟩ := Writer.bytes_eq_some h₂
  obtain ⟨hplugin, hbuf₃⟩ := Writer.bytes_eq_some h₃
  obtain ⟨hlist, hbuf₄⟩ := Writer.bytes_eq_some h₄
  obtain ⟨hkeys, hbuf₅⟩ := Writer.bytes_eq_some h₅
  rw [hbuf₅, hbuf₄, hbuf₃, hbuf₂, hbuf₁, Writer.buf_new]
  simp only [List.nil_append, List.append_assoc]
  refine (runs_int hop).bind_done ?_
  rw [if_neg (by decide), if_pos rfl]
  exact (runs_bytes hdata).bind_done ((runs_bytes hplugin).bind_done
    ((runs_bytes hlist).bind_done (runs_bytes_last hkeys _ rfl)))

/-- **`op_crypt` is read back.** -/
theorem readAs_crypt : ReadAs cryptPacket cryptRequest := by
  intro b h ρ
  unfold cryptPacket at h
  obtain ⟨w₁, h₁, h⟩ := Option.bind_eq_some_iff.1 h
  obtain ⟨w₂, h₂, h⟩ := Option.bind_eq_some_iff.1 h
  obtain ⟨w₃, h₃, h⟩ := Option.bind_eq_some_iff.1 h
  obtain rfl := Option.some.inj h
  obtain ⟨hop, hbuf₁⟩ := Writer.int_eq_some h₁
  obtain ⟨hplugin, hbuf₂⟩ := Writer.bytes_eq_some h₂
  obtain ⟨hkey, hbuf₃⟩ := Writer.bytes_eq_some h₃
  rw [hbuf₃, hbuf₂, hbuf₁, Writer.buf_new]
  simp only [List.nil_append, List.append_assoc]
  refine (runs_int hop).bind_done ?_
  rw [if_neg (by decide), if_neg (by decide), if_pos rfl]
  exact (runs_bytes hplugin).bind_done (runs_bytes_last hkey _ rfl)

/-- **`op_attach` is read back.** -/
theorem readAs_attach (cfg : Config) : ReadAs (attachPacket cfg) (attachRequest cfg) := by
  intro b h ρ
  unfold attachPacket at h
  obtain ⟨w₁, h₁, h⟩ := Option.bind_eq_some_iff.1 h
  obtain ⟨w₂, h₂, h⟩ := Option.bind_eq_some_iff.1 h
  obtain ⟨w₃, h₃, h⟩ := Option.bind_eq_some_iff.1 h
  obtain ⟨w₄, h₄, h⟩ := Option.bind_eq_some_iff.1 h
  obtain rfl := Option.some.inj h
  obtain ⟨hop, hbuf₁⟩ := Writer.int_eq_some h₁
  obtain ⟨hobject, hbuf₂⟩ := Writer.int_eq_some h₂
  obtain ⟨hdatabase, hbuf₃⟩ := Writer.bytes_eq_some h₃
  obtain ⟨hdpb, hbuf₄⟩ := Writer.bytes_eq_some h₄
  rw [hbuf₄, hbuf₃, hbuf₂, hbuf₁, Writer.buf_new]
  simp only [List.nil_append, List.append_assoc]
  refine (runs_int hop).bind_done ?_
  rw [if_neg (by decide), if_neg (by decide), if_neg (by decide), if_pos rfl]
  exact (runs_int hobject).bind_done ((runs_bytes hdatabase).bind_done
    (runs_bytes_last hdpb _ rfl))

/-- **`op_detach` is read back.** -/
theorem readAs_detach (handle : ℤ) : ReadAs (detachPacket handle) (.detach handle) := by
  intro b h ρ
  unfold detachPacket at h
  obtain ⟨w₁, h₁, h⟩ := Option.bind_eq_some_iff.1 h
  obtain ⟨w₂, h₂, h⟩ := Option.bind_eq_some_iff.1 h
  obtain rfl := Option.some.inj h
  obtain ⟨hop, hbuf₁⟩ := Writer.int_eq_some h₁
  obtain ⟨hobject, hbuf₂⟩ := Writer.int_eq_some h₂
  rw [hbuf₂, hbuf₁, Writer.buf_new, List.nil_append]
  refine (runs_int hop).bind_done ?_
  rw [if_neg (by decide), if_neg (by decide), if_neg (by decide), if_neg (by decide), if_pos rfl]
  have hend := (runs_int (ρ := ρ) hobject).bind_done
    (f := fun object ↦ (pure (.detach object) : Async ρ Request)) (.refl _)
  rwa [List.append_nil] at hend

/-- Every packet of a complete run is read as its request. -/
theorem forall₂_readAs (cfg : Config) (acc : Accepted) (handle : ℤ) :
    List.Forall₂ ReadAs (requests cfg acc handle) (requestsOf cfg acc handle) :=
  .cons (readAs_connect cfg) (.cons (readAs_contAuth _ _) (.cons readAs_crypt
    (.cons (readAs_attach cfg) (.cons (readAs_detach handle) .nil))))

/-! ### Reading what a client has sent -/

/-- The server reads the packets one after the other. -/
theorem runs_serve {packets : List (Option Buffer)} {rs : List Request} {sent : List Buffer}
    (h : List.Forall₂ ReadAs packets rs) (hsent : sent.map some <+: packets) :
    Runs (serve sent.length) sent.flatten ((rs.take sent.length).map .note) (.done ()) := by
  induction sent generalizing packets rs with
  | nil => exact .refl _
  | cons b sent ih =>
    rcases h with _ | ⟨hpacket, hrest⟩
    · exact absurd (List.prefix_nil.1 hsent) (List.cons_ne_nil _ _)
    · obtain ⟨hb, hsent⟩ := List.cons_prefix_cons.1 hsent
      refine (hpacket b hb.symm Request).bind_done ?_
      exact .act (ih hrest hsent)

/-- What the server makes of the bytes it has received: the first three packets are in clear. -/
def deciphered (K : Buffer) (writes : List Buffer) : Buffer :=
  (writes.take 3).flatten ++ ((Arc4.init K).transform (writes.drop 3).flatten).1

namespace Session

variable {cfg : Config} {fuel : ℕ} {K : Buffer} {C : Packet → Prop} {σ : Session}

/-- The server has received a part of what was written. -/
theorem Reaches.received_prefix (h : Reaches cfg fuel K C σ) :
    σ.received <+: σ.writes.flatten := by
  induction h with
  | refl => exact List.nil_prefix
  | @tail σ σ' _ hstep ih =>
    rcases hstep with hs | hs | hs | ⟨hC, hwritten, hreceived, hkey⟩
    · rename_i c
      have hlog : σ.client.log <+: c.log := by
        rcases Process.step_cases hs with ⟨n, k, -, rfl⟩ | ⟨w, k, -, rfl⟩
        · unfold Process.takeStep
          split_ifs
          · exact List.prefix_refl _
          · exact List.prefix_refl _
        · exact List.prefix_append _ _
      obtain ⟨t, ht⟩ := hlog
      refine ih.trans ?_
      show _ <+: (c.log.filterMap Effect.written).flatten
      rw [← ht, List.filterMap_append, List.flatten_append]
      exact List.prefix_append _ _
    · exact ih
    · exact hs
    · unfold reply
      split_ifs
      · exact ih
      · exact ih

end Session

/-- **The server reads the requests of one run.** In every state of a session whose replies are
readable, the bytes written so far, deciphered from the fourth packet on, are read as the first
requests of a complete run, to their last byte. The proof in the second is the one for the first
reply, and the handle in the fifth is the one in the fourth reply. What the server has received is
a part of these bytes. -/
theorem requests_read {cfg : Config} {fuel : ℕ} {K : Buffer} {σ : Session}
    (h : Session.Reaches cfg fuel K (Packet.Readable fuel) σ) :
    σ.received <+: σ.writes.flatten ∧ ∃ acc handle,
      Runs (serve σ.writes.length) (deciphered K σ.writes)
        (((requestsOf cfg acc handle).take σ.writes.length).map .note) (.done ()) ∧
      (2 ≤ σ.writes.length → ∃ r R, σ.replies = r :: R ∧ r.accepted = some acc) ∧
      (5 ≤ σ.writes.length → ∃ r ∈ σ.replies[3]?, r.handle = some handle) := by
  obtain ⟨plain, hinv⟩ := h.inv
  obtain ⟨cs, acc, handle, sent, armed, -, hloc, hwrites⟩ := hinv.located
  have hlength : σ.writes.length = sent.length := by rw [hwrites, Session.length_wire]
  have hdeciphered : deciphered K σ.writes = sent.flatten := by
    rw [deciphered, hwrites, Session.take_wire, Session.drop_wire, flatten_encipher,
      Arc4.transform_transform, ← List.flatten_append, List.take_append_drop]
  refine ⟨h.received_prefix, acc, handle, ?_, ?_, ?_⟩
  · rw [hdeciphered, hlength]
    exact runs_serve (forall₂_readAs cfg acc handle) hloc.sent_prefix
  · rw [hlength]
    exact hloc.accepted
  · rw [hlength]
    exact hloc.handle

/-- The first packet of a run. -/
theorem requests_read_connect : ∃ σ,
    Session.Reaches demoConfig 1 demoKey (Packet.Readable 1) σ ∧ σ.writes.length = 1 ∧
      Runs (serve 1) (deciphered demoKey σ.writes) [.note (connectRequest demoConfig)]
        (.done ()) := by
  obtain ⟨c, hc⟩ := connectPacket_demo
  have hconnect : Runs (handshake demoConfig 1) [] [.write c]
      (readAccept >>= authStep demoConfig 1 : Async Empty Unit) := by
    rw [handshake, writePacket, hc]
    exact .act (.refl _)
  obtain ⟨σ, h⟩ :=
    Session.exists_quiet_start (K := demoKey) (C := Packet.Readable 1) hconnect
  have hlength : σ.writes.length = 1 := by
    rw [Session.writes, h.log]
    rfl
  obtain ⟨-, acc, handle, hrun, -⟩ := requests_read h.reaches
  rw [hlength] at hrun
  exact ⟨σ, h.reaches, hlength, hrun⟩

end FirebirdSamples.Wire
