import FirebirdSamples.Srp.ClientProof
import FirebirdSamples.Wire.Response

/-!
# The handshake

The asynchronous function at the end of `samples/nodejs/srp-handshake.js`, from its first write on.
The packets the client writes are built with `Writer` and may throw (`connectPacket` to
`detachPacket`); what it reads is one reply after each of them (`readAccept`, `readReply`,
`readDetachReply`). Arming the decryptor and writing are effects of the program; what the script
prints is left out.

The steps are cut where the client switches from writing to reading, and each step but the first is
a program of its own, so that a position in the run is a position in one of them.
-/

namespace FirebirdSamples.Wire

open StreamProgram Srp

variable {ρ : Type}

/-! ### Opcodes and tags -/

/-- The wire opcodes used. -/
inductive Op where
  | connect
  | reject
  | response
  | attach
  | detach
  | contAuth
  | crypt
  | acceptData
  | condAccept
  deriving DecidableEq

/-- Their numbers. -/
def Op.code : Op → ℤ
  | .connect => 1
  | .reject => 4
  | .response => 9
  | .attach => 19
  | .detach => 21
  | .contAuth => 92
  | .crypt => 96
  | .acceptData => 94
  | .condAccept => 98

/-- The tags of the user identification block. -/
inductive Cnct where
  | user
  | host
  | userVerification
  | specificData
  | pluginName
  | login
  | pluginList
  | clientCrypt

/-- Their bytes. -/
def Cnct.code : Cnct → UInt8
  | .user => 1
  | .host => 4
  | .userVerification => 6
  | .specificData => 7
  | .pluginName => 8
  | .login => 9
  | .pluginList => 10
  | .clientCrypt => 11

/-- `WIRE_CRYPT_ENABLED`. -/
def wireCryptEnabled : UInt8 := 1

/-! ### What the client writes -/

/-- The command line and the private key drawn by the run. -/
structure Config where
  /-- The hash functions. -/
  hashes : Hashes
  /-- The database. -/
  DB : String
  /-- The user, in upper case. -/
  USER : String
  /-- The password. -/
  PASS : String
  /-- The private key. -/
  a : ℤ

namespace Config

/-- The public key `A`. -/
def A (cfg : Config) : ℤ :=
  modPow g cfg.a N

end Config

/-- `tlv(tag, data)`; the length is stored into a byte. -/
def tlv (tag : Cnct) (data : String) : Buffer :=
  let data := Buffer.ofString data
  [tag.code, UInt8.ofNat data.length] ++ data

/-- The client key in numbered blocks of at most 254 characters. -/
def specificDataBlocks (specificData : List Char) : Buffer :=
  (List.range ((specificData.length + 253) / 254)).flatMap fun i ↦
    let c := Buffer.ofString (String.ofList ((specificData.drop (i * 254)).take 254))
    [Cnct.specificData.code, UInt8.ofNat (c.length + 1), UInt8.ofNat i] ++ c

/-- `userIdBlock(login, pluginName, pluginList, specificData)`. -/
def userIdBlock (login pluginName pluginList : String) (specificData : List Char) : Buffer :=
  tlv .login login ++ tlv .pluginName pluginName ++ tlv .pluginList pluginList ++
    specificDataBlocks specificData ++
    [Cnct.clientCrypt.code, 4, wireCryptEnabled, 0, 0, 0] ++
    tlv .user "demo" ++ tlv .host "localhost" ++ [Cnct.userVerification.code, 0]

/-- The protocol versions offered. -/
def offered : List ℕ := [13, 16, 17, 18, 19, 20]

/-- One offered protocol: version, architecture, packet types and weight. -/
def offerProtocol (w : Writer) (v : ℕ × ℕ) : Option Writer := do
  let w ← w.int (v.1 ||| 0x8000 : ℕ)
  let w ← w.int 1
  let w ← w.int 3
  let w ← w.int 3
  w.int (v.2 + 2)

/-- `op_connect`. -/
def connectPacket (cfg : Config) : Option Buffer := do
  let w ← Writer.new.int Op.connect.code
  let w ← w.int Op.attach.code
  let w ← w.int 3
  let w ← w.int 1
  let w ← w.str cfg.DB
  let w ← w.int offered.length
  let w ← w.bytes (userIdBlock cfg.USER "Srp256" "Srp256,Srp" (bigToHex cfg.A))
  let w ← offered.zipIdx.foldlM offerProtocol w
  pure w.buf

/-- `op_cont_auth`. -/
def contAuthPacket (M : Buffer) (plugin : String) : Option Buffer := do
  let w ← Writer.new.int Op.contAuth.code
  let w ← w.str (String.ofList (bufToHex M))
  let w ← w.str plugin
  let w ← w.str "Srp256,Srp"
  let w ← w.str ""
  pure w.buf

/-- `op_crypt`. -/
def cryptPacket : Option Buffer := do
  let w ← Writer.new.int Op.crypt.code
  let w ← w.str "Arc4"
  let w ← w.str "Symmetric"
  pure w.buf

/-- The database parameters of the attachment. -/
def dpb (cfg : Config) : Buffer :=
  let lc := Buffer.ofString "NONE"
  let un := Buffer.ofString cfg.USER
  [1] ++ [48, UInt8.ofNat lc.length] ++ lc ++ [28, UInt8.ofNat un.length] ++ un

/-- `op_attach`. -/
def attachPacket (cfg : Config) : Option Buffer := do
  let w ← Writer.new.int Op.attach.code
  let w ← w.int 0
  let w ← w.str cfg.DB
  let w ← w.bytes (dpb cfg)
  pure w.buf

/-- `op_detach`. -/
def detachPacket (handle : ℤ) : Option Buffer := do
  let w ← Writer.new.int Op.detach.code
  let w ← w.int handle
  pure w.buf

/-! ### What the client reads -/

/-- What the client keeps of the reply to `op_connect`. -/
structure Accepted where
  /-- The salt. -/
  salt : Buffer
  /-- The server's public key. -/
  B : ℤ
  /-- The plugin. -/
  plugin : String
  deriving Inhabited

/-- Salt and public key in the plugin data: two texts behind little-endian lengths. -/
def authData (data : Buffer) : Except JsError (Buffer × ℤ) := do
  let saltLen ← (Buffer.readUInt16LE data 0).elim (.error .rangeError) .ok
  let salt := Buffer.subarray data 2 (2 + saltLen)
  let keyLen ← (Buffer.readUInt16LE data (2 + saltLen)).elim (.error .rangeError) .ok
  let key := Buffer.toText (Buffer.subarray data (4 + saltLen) (4 + saltLen + keyLen))
  let B ← (bigIntFromHex key.toList).elim (.error .syntaxError) .ok
  pure (salt, B)

/-- What the client keeps of the data and the plugin name it received. -/
def accepted (data plugin : Buffer) : Except JsError Accepted :=
  (authData data).map fun (salt, B) ↦ { salt, B, plugin := Buffer.toText plugin }

/-- The reply to `op_connect`. -/
def readAccept : Async ρ Accepted := do
  let reply ← Await.int
  if reply = Op.reject.code then
    fail (.error "op_reject: no protocol/plugin in common")
  else
    let _version ← Await.int
    let _arch ← Await.int
    let _ptype ← Await.int
    if reply ≠ Op.condAccept.code ∧ reply ≠ Op.acceptData.code then
      fail (.error ("unexpected opcode " ++ toString reply))
    else
      let data ← Await.bytes
      let plugin ← Await.bytes
      let _authenticated ← Await.int
      let _keys ← Await.bytes
      ended (accepted data plugin)

/-- A reply that must be an `op_response`. -/
def readReply (fuel : ℕ) (message : String) : Async ρ ℤ := do
  let reply ← Await.int
  if reply ≠ Op.response.code then
    fail (.error message)
  else
    readResponse fuel

/-- The reply to `op_detach`, which may be anything. -/
def readDetachReply (fuel : ℕ) : Async ρ Unit := do
  let reply ← Await.int
  if reply = Op.response.code then
    let _ ← readResponse fuel
    pure ()
  else
    pure ()

/-! ### The run -/

/-- The proof the client computes from the server's reply. -/
def clientProof (cfg : Config) (acc : Accepted) : ClientProof :=
  clientProofSrp256 cfg.hashes cfg.PASS cfg.USER acc.salt cfg.A acc.B cfg.a

/-- `socket.write` of a packet whose serialisation may have thrown. -/
def writePacket (packet : Option Buffer) : Async ρ Buffer := do
  let buf ← Await.orThrow .rangeError packet
  perform (.write buf)
  pure buf

/-- `send`: enciphers a packet and writes it; returns the cipher after it. -/
def sendPacket (enc : Arc4) (packet : Option Buffer) : Async ρ Arc4 := do
  let buf ← Await.orThrow .rangeError packet
  perform (.write (enc.transform buf).1)
  pure (enc.transform buf).2

/-- The last step: detach and read the reply. -/
def detachStep (fuel : ℕ) (enc : Arc4) (handle : ℤ) : Async ρ Unit := do
  let _ ← sendPacket enc (detachPacket handle)
  readDetachReply fuel

/-- The step before: attach over the encrypted channel. -/
def attachStep (cfg : Config) (fuel : ℕ) (enc : Arc4) : Async ρ Unit := do
  let enc ← sendPacket enc (attachPacket cfg)
  let handle ← readReply fuel "expected op_response to op_attach"
  detachStep fuel enc handle

/-- Arm the decryptor, and ask for encryption in clear. -/
def cryptStep (cfg : Config) (fuel : ℕ) (K : Buffer) : Async ρ Unit := do
  let enc := Arc4.init K
  let dec := Arc4.init K
  perform (.enableDecryption dec)
  let _ ← writePacket cryptPacket
  let _ ← readReply fuel "expected op_response to op_crypt"
  attachStep cfg fuel enc

/-- Send the proof. -/
def authStep (cfg : Config) (fuel : ℕ) (acc : Accepted) : Async ρ Unit := do
  let proof := clientProof cfg acc
  let _ ← writePacket (contAuthPacket proof.M acc.plugin)
  let _ ← readReply fuel "expected op_response"
  cryptStep cfg fuel proof.K

/-- **The handshake.** -/
def handshake (cfg : Config) (fuel : ℕ) : Async ρ Unit := do
  let _ ← writePacket (connectPacket cfg)
  let acc ← readAccept
  authStep cfg fuel acc

end FirebirdSamples.Wire
