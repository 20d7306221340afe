import ElectrumZ.Bitcoin.Sha256
import ElectrumZ.Blockchain.TXODB
import ElectrumZ.Electrum.Commands
import ElectrumZ.Foundations.Action

/-!
# Handling a command

`JsonRPCServer::HandleCommand`, as an action on what a connection shares with the rest of the
server: the database, the link to the node, and the writes handed to libuv. The JSON parser, the
encoder of the responses and the digest are parameters (`Env`); so is libuv's answer to a write.
-/

namespace ElectrumZ.Net

open Foundations Bitcoin Blockchain Commands

/-! ## The surroundings of a connection -/

/-- The assertions of the server: the one at the entry of `HandleRead`, and the one of `base_blob`
about the length of the vector. -/
inductive Assertion
  | sslBuf
  | blobSize
  deriving DecidableEq, Repr

/-- How a handler fails to return: with an exception of the JSON library or of a stream, in an
assertion, on a null pointer, or waiting for ever. -/
inductive Fault
  | json
  | stream (f : Failure)
  | assertion (a : Assertion)
  | null
  | blocked
  deriving DecidableEq, Repr

/-- `Stop` as `GetTXOs` meets it; it stops in no other way. -/
def Fault.ofStop : Stop → Fault
  | .thrown f => .stream f
  | .blocked | .again | .err _ => .blocked

/-- The RPC client: none is configured, its socket is not there yet, or it has one. -/
inductive RpcLink
  | absent
  | unconnected
  | connected
  deriving DecidableEq, Repr

/-- Where a write comes from: a JSON response, the send callback of mbedtls, or a plain `Write`. -/
inductive Source
  | json (data : Json)
  | bio
  | plain

/-- A byte string handed to `uv_write`. -/
structure UvWrite where
  bytes : Bytes
  source : Source

/-- What the handling of a command may read and change. -/
structure Session where
  store : Store
  rpc : RpcLink
  /-- The queries sent to the node. -/
  queries : List Json
  /-- The writes so far. -/
  wire : List UvWrite

/-- What the server takes from libraries. `uvWrite` tells whether libuv accepts a write after
others. The parser refuses the empty text, one that begins with a capital letter, and one that has a
control character below the tab in it. `getInt` is `get<int>()`: it casts an integer, converts every
other number in some way, and throws on what is neither a number nor a truth value. -/
structure Env where
  sha256 : Bytes → UInt256
  parse : Bytes → Option Json
  parse_nil : parse [] = none
  parse_capital : ∀ c text, 0x41 ≤ c → c ≤ 0x5a → parse (c :: text) = none
  parse_control : ∀ c text, c < 0x09 → c ∈ text → parse text = none
  getInt : Json → Option ℤ
  getInt_int : ∀ n, getInt (.int n) = some (Json.toInt32 n)
  getInt_number : ∀ j, j.isNumber = true → (getInt j).isSome = true
  getInt_other : ∀ j, j.isNumber = false → j.isBool = false → getInt j = none
  dump : Json → Bytes
  uvWrite : List UvWrite → Bytes → Bool

namespace Session

/-- A session on a new database, without a node. -/
def fresh : Session := ⟨.fresh, .absent, [], []⟩

end Session

/-- A parser that knows one text, which is a JSON text. -/
def parseOnly (known : Bytes) (value : Json) (text : Bytes) : Option Json :=
  if text = known then some value else none

/-- Libraries for runs in which one text is parsed and one response is sent. -/
def Env.answering (known : Bytes) (value : Json) (reply : Bytes) (hne : known ≠ [])
    (hcapital : ∀ c ∈ known.head?, ¬ (0x41 ≤ c ∧ c ≤ 0x5a)) (hcontrol : ∀ c ∈ known, ¬ c < 0x09) :
    Env where
  sha256 := Sha256.digest
  parse := parseOnly known value
  parse_nil := if_neg (Ne.symm hne)
  parse_capital c text h₁ h₂ := by
    refine if_neg ?_
    rintro rfl
    exact hcapital c rfl ⟨h₁, h₂⟩
  parse_control c text h₁ h₂ := by
    refine if_neg ?_
    rintro rfl
    exact hcontrol c h₂ h₁
  getInt := Json.getInt
  getInt_int := Json.getInt_int
  getInt_number j h := by rw [Json.getInt_isSome, h, Bool.true_or]
  getInt_other j h₁ h₂ := by
    rw [← Option.not_isSome_iff_eq_none, Json.getInt_isSome, h₁, h₂]
    exact Bool.false_ne_true
  dump _ := reply
  uvWrite _ _ := true

/-- A part of the handling of a command. -/
abbrev CmdM := Action Fault Session

/-- `JSONRPC_DELIM`. -/
def JSONRPC_DELIM : UInt8 := 0x0a

/-! ## Writing -/

variable (env : Env)

/-- `WriteInternal` on bytes. -/
def writeInternal (source : Source) (buf : Bytes) : CmdM ℤ := fun s =>
  (.ok (if env.uvWrite s.wire buf then buf.length else 0),
    { s with wire := s.wire ++ [⟨buf, source⟩] })

/-- `WriteInternal` on JSON. -/
def writeInternalJson (data : Json) : CmdM Unit := do
  let _ ← writeInternal env (.json data) (env.dump data ++ [JSONRPC_DELIM])

/-- `CommandSuccess`. -/
def commandSuccess (id : ℤ) (result : Json) : Json :=
  .obj [("id", .int id), ("jsonrpc", .str "2.0"), ("result", result)]

/-- `CommandError`. -/
def commandError (id : ℤ) (msg : String) (err : ℤ) : Json :=
  .obj [("id", .int id), ("jsonrpc", .str "2.0"),
    ("error", .obj [("message", .str msg), ("code", .int err)])]

/-- Answer with the encoding of a response. -/
def succeed (id : ℤ) (result : Json) : CmdM Unit := writeInternalJson env (commandSuccess id result)

/-- Answer with an error. -/
def reject (id : ℤ) (msg : String) (err : ℤ) : CmdM Unit :=
  writeInternalJson env (commandError id msg err)

/-! ## Reading the request, and the services -/

variable {env} in
/-- An access to a JSON value, which may throw. -/
def access {α : Type} (x : Option α) : CmdM α :=
  match x with
  | some a => pure a
  | none => Action.fail .json

/-- `uint256(vch)`. -/
def blob (vch : Bytes) : CmdM UInt256 :=
  if h : vch.length = 32 then pure ⟨vch, h⟩ else Action.fail (.assertion .blobSize)

/-- Run a program on the database. -/
def onStore {α : Type} (p : Prog α) : CmdM α := fun s =>
  match p.run lmdb s.store with
  | (.ok a, store) => (.ok a, { s with store })
  | (.error stop, store) => (.error (.ofStop stop), { s with store })

/-- `rpc->Query`: without a client or a socket it goes through a null pointer. -/
def rpcQuery (method : String) (params : Json) : CmdM Unit := fun s =>
  match s.rpc with
  | .connected =>
    (.ok (), { s with
      queries := s.queries ++ [.obj [("method", .str method), ("params", params)]] })
  | .absent | .unconnected => (.error .null, s)

/-! ## The commands -/

/-- The two heights that are read if they are numbers are not used. -/
def bcBlockHeader (cmd : Json) (id : ℤ) : CmdM Unit := do
  let params ← access (cmd.member "params")
  if params.isArray then do
    let first ← access (params.item 0)
    let h ← access (env.getInt first)
    rpcQuery "getblockhash" (.ofBraces [.int h, .str "test"])
    succeed env id BCBlockHeaderResponse.toJson
  else reject env id "Invalid params" (-32602)

/-- The numbers that are read are not used. -/
def bcBlockHeaders (cmd : Json) (id : ℤ) : CmdM Unit := do
  let params ← access (cmd.member "params")
  if params.isArray then succeed env id BCBlockHeadersResponse.toJson
  else reject env id "Invalid params" (-32602)

/-- The key a script hash is looked up under: the decoded bytes, reversed. -/
def scriptHashBytes (hash : String) : Bytes := (parseHex (utf8 hash)).reverse

/-- What `GetTXOs` finds is dropped, and the status is that of an empty history. -/
def shSubscribe (cmd : Json) (id : ℤ) : CmdM Unit := do
  let params ← access (cmd.member "params")
  if params.isArray then do
    let first ← access (params.item 0)
    let hexHash := scriptHashBytes (first.getString.getD "")
    let scriptHash ← blob hexHash
    let _ ← onStore (getTXOs scriptHash [])
    succeed env id (SHSubscribeResponse.toJson env.sha256 ⟨⟨[]⟩⟩)
  else reject env id "Invalid params" (-32602)

/-- The rpc response that is forwarded is empty. -/
def txGet (id : ℤ) : CmdM Unit := do
  let result ← access (TXGetResponse.toJson env.parse ⟨[]⟩)
  succeed env id result

/-- The header `blockchain.headers.subscribe` reports. -/
def headerHex : String :=
  "01000030c306405f586ae1ae2330cb3f8a1ecf5e8f50192682656ddb5fa000fb486af66f4d304c05be48e86a" ++
  "d3f56d8f639d5c124f3cedb3a08d539ef5aabbdba9582708f32e975dffff7f2006000000"

/-- The `switch` over the commands. -/
def dispatch (cmd : Json) (id : ℤ) : ElectrumCommands → CmdM Unit
  | .bcBlockHeader => bcBlockHeader env cmd id
  | .bcBlockHeaders => bcBlockHeaders env cmd id
  | .bcEstimatefee => succeed env id (BCEstimatefeeResponse.toJson ⟨1⟩)
  | .bcHeadersSubscribe =>
    succeed env id (BCHeadersSubscribeResponse.toJson ⟨10, parseHex (utf8 headerHex)⟩)
  | .bcRelayfee => succeed env id (BCRelayfeeResponse.toJson ⟨1⟩)
  | .shGetBalance => succeed env id (SHGetBalanceResponse.toJson ⟨"", ""⟩)
  | .shGetHistory => succeed env id (SHGetHistoryResponse.toJson ⟨[]⟩)
  | .shGetMempool => succeed env id (SHGetMempoolResponse.toJson ⟨[]⟩)
  | .shHistory => succeed env id SHHistoryResponse.toJson
  | .shListUnspent => succeed env id (SHListUnspentResponse.toJson ⟨[]⟩)
  | .shSubscribe => shSubscribe env cmd id
  | .shUTXOS => succeed env id SHUTXOSResponse.toJson
  | .txBroadcast => succeed env id (TXBroadcastResponse.toJson ⟨""⟩)
  | .txGet => txGet env id
  | .txGetMerkle => succeed env id (TXGetMerkleResponse.toJson ⟨[], 0, 0⟩)
  | .txIdFromPos => succeed env id (TXIdFromPosResponse.toJson ⟨""⟩)
  | .mpChanges => succeed env id MPChangesResponse.toJson
  | .mpGetFeeHistogram => succeed env id (MPGetFeeHistogramResponse.toJson ⟨[]⟩)
  | .svAddPeer => succeed env id (SVAddPeerResponse.toJson ⟨false⟩)
  | .svBanner => succeed env id (SVBannerResponse.toJson ⟨""⟩)
  | .svDonationAddress => succeed env id (.str "2MzwLdkKRKqHtmpbXoYpXjm7SKT8LeGXriM")
  | .svFeatures => succeed env id (SVFeaturesResponse.toJson ⟨"", "", "", 0, 0, []⟩)
  | .svPeersSubscribe => succeed env id (SVPeersSubscribeResponse.toJson ⟨[]⟩)
  | .svPing => succeed env id SVPingResponse.toJson
  | .svVersion => succeed env id (SVVersionResponse.toJson ⟨"ElectrumZ", "1.4.1"⟩)

/-- `HandleCommand`. -/
def handleCommand (cmd : Json) : CmdM Unit :=
  if cmd.isNull then reject env 0 "Parser error" (-32700)
  else do
    let method ← access (cmd.member "method")
    let method ← access method.getString
    let id ← access (cmd.member "id")
    let id ← access (env.getInt id)
    match commandMap.lookup method with
    | some method_mapped => dispatch env cmd id method_mapped
    | none => reject env id "Method not found" (-32601)

end ElectrumZ.Net
