import ElectrumZ.Bitcoin.Hash
import ElectrumZ.Bitcoin.StrEncodings
import ElectrumZ.Foundations.Json

/-!
# The commands of the Electrum protocol

The method names the server knows (`commandMap`), and for each response its `to_json`. A response
whose encoder reads none of its fields has no fields here.
-/

namespace ElectrumZ.Commands

open Foundations Bitcoin

/-- The commands that have a name. -/
inductive ElectrumCommands
  | bcBlockHeader
  | bcBlockHeaders
  | bcEstimatefee
  | bcHeadersSubscribe
  | bcRelayfee
  | shGetBalance
  | shGetHistory
  | shGetMempool
  | shHistory
  | shListUnspent
  | shSubscribe
  | shUTXOS
  | txBroadcast
  | txGet
  | txGetMerkle
  | txIdFromPos
  | mpChanges
  | mpGetFeeHistogram
  | svAddPeer
  | svBanner
  | svDonationAddress
  | svFeatures
  | svPeersSubscribe
  | svPing
  | svVersion
  deriving DecidableEq, Repr

/-- `CommandMap`. -/
def commandMap : List (String × ElectrumCommands) := [
  ("blockchain.block.header", .bcBlockHeader),
  ("blockchain.block.headers", .bcBlockHeaders),
  ("blockchain.estimatefee", .bcEstimatefee),
  ("blockchain.headers.subscribe", .bcHeadersSubscribe),
  ("blockchain.relayfee", .bcRelayfee),
  ("blockchain.scripthash.get_balance", .shGetBalance),
  ("blockchain.scripthash.get_history", .shGetHistory),
  ("blockchain.scripthash.get_mempool", .shGetMempool),
  ("blockchain.scripthash.history", .shHistory),
  ("blockchain.scripthash.listunspent", .shListUnspent),
  ("blockchain.scripthash.subscribe", .shSubscribe),
  ("blockchain.scripthash.utxos", .shUTXOS),
  ("blockchain.transaction.broadcast", .txBroadcast),
  ("blockchain.transaction.get", .txGet),
  ("blockchain.transaction.get_merkle", .txGetMerkle),
  ("blockchain.transaction.id_from_pos", .txIdFromPos),
  ("mempool.changes", .mpChanges),
  ("mempool.get_fee_histogram", .mpGetFeeHistogram),
  ("server.add_peer", .svAddPeer),
  ("server.banner", .svBanner),
  ("server.donation_address", .svDonationAddress),
  ("server.features", .svFeatures),
  ("server.peers.subscribe", .svPeersSubscribe),
  ("server.ping", .svPing),
  ("server.version", .svVersion)]

/-! ## Parts of responses -/

/-- A transaction, with its fee and the height of its block. -/
structure TxInfo where
  fee : ℤ
  height : ℤ
  hash : String

/-- An unspent output. -/
structure TxOut where
  pos : ℤ
  value : ℤ
  hash : String
  height : ℤ

/-- Another server, with the ports and the pruning limit that it may have told. -/
structure PeerInfo where
  ip : String
  hostname : String
  protocol_max : ℚ
  pruning_limit : Option ℤ
  tcp_port : Option ℤ
  ssl_port : Option ℤ

/-- The status of a script: the transactions in its history. -/
structure ScriptStatus where
  txn : List TxInfo

namespace PeerInfo

/-- A feature of a peer: a letter and a number. -/
def feature (letter : String) (value : Option ℤ) : List Json :=
  value.toList.map fun n => .str (letter ++ toString n)

/-- An array of address, name and features. The features begin with the protocol version. -/
def toJson (r : PeerInfo) : Json :=
  .ofBraces [.str r.ip, .str r.hostname,
    .arr (.float r.protocol_max ::
      (feature "p" r.pruning_limit ++ feature "t" r.tcp_port ++ feature "s" r.ssl_port))]

end PeerInfo

/-- An object of the four fields. -/
def TxOut.toJson (r : TxOut) : Json :=
  .ofBraces [.field "tx_pos" (.int r.pos), .field "value" (.int r.value),
    .field "tx_hash" (.str r.hash), .field "height" (.int r.height)]

namespace ScriptStatus

/-- The string `GetStatusHash` hashes. -/
def statusString (r : ScriptStatus) : String :=
  String.join (r.txn.map fun tx => tx.hash ++ ":" ++ toString tx.height)

/-- `GetStatusHash`, with the double hash of blocks and transactions. -/
def getStatusHash (sha256 : Bytes → UInt256) (r : ScriptStatus) : UInt256 :=
  Hash sha256 (utf8 r.statusString)

/-- The status is sent as the hash, in the order its bytes are in. -/
def toJson (sha256 : Bytes → UInt256) (r : ScriptStatus) : Json :=
  .str (hexStr (r.getStatusHash sha256).data)

end ScriptStatus

/-! ## Responses -/

/-- For `blockchain.block.header`. Nothing is written to the value. -/
def BCBlockHeaderResponse.toJson : Json := .null

/-- For `blockchain.block.headers`. Nothing is written to the value. -/
def BCBlockHeadersResponse.toJson : Json := .null

/-- For `blockchain.estimatefee`. -/
structure BCEstimatefeeResponse where
  value : ℚ

/-- The fee as a number. -/
def BCEstimatefeeResponse.toJson (r : BCEstimatefeeResponse) : Json := .float r.value

/-- For `blockchain.headers.subscribe`: the tip, and its header. -/
structure BCHeadersSubscribeResponse where
  height : ℤ
  hex : Bytes

/-- An object of the height and the header in hexadecimal digits. -/
def BCHeadersSubscribeResponse.toJson (r : BCHeadersSubscribeResponse) : Json :=
  .ofBraces [.field "height" (.int r.height), .field "hex" (.str (hexStr r.hex))]

/-- For `blockchain.relayfee`. -/
structure BCRelayfeeResponse where
  value : ℚ

/-- The fee as a number. -/
def BCRelayfeeResponse.toJson (r : BCRelayfeeResponse) : Json := .float r.value

/-- For `blockchain.scripthash.get_balance`. -/
structure SHGetBalanceResponse where
  confirmed : String
  unconfirmed : String

/-- An object of both balances. The second key is spelt as in the source. -/
def SHGetBalanceResponse.toJson (r : SHGetBalanceResponse) : Json :=
  .ofBraces [.field "confirmed" (.str r.confirmed), .field "unconfiemd" (.str r.unconfirmed)]

/-- For `blockchain.scripthash.get_history`. -/
structure SHGetHistoryResponse where
  history : List TxInfo

/-- One object a transaction, without its fee. -/
def SHGetHistoryResponse.toJson (r : SHGetHistoryResponse) : Json :=
  .pushAll (r.history.map fun h =>
    .ofBraces [.field "height" (.int h.height), .field "tx_hash" (.str h.hash)])

/-- For `blockchain.scripthash.get_mempool`. -/
structure SHGetMempoolResponse where
  result : List TxInfo

/-- One object a transaction, with its fee. -/
def SHGetMempoolResponse.toJson (r : SHGetMempoolResponse) : Json :=
  .pushAll (r.result.map fun h =>
    .ofBraces [.field "height" (.int h.height), .field "tx_hash" (.str h.hash),
      .field "fee" (.int h.fee)])

/-- For `blockchain.scripthash.history`. The encoder leaves the value as it was declared. -/
def SHHistoryResponse.toJson : Json := .null

/-- For `blockchain.scripthash.listunspent`. -/
structure SHListUnspentResponse where
  utxos : List TxOut

/-- One object an output. -/
def SHListUnspentResponse.toJson (r : SHListUnspentResponse) : Json :=
  .pushAll (r.utxos.map TxOut.toJson)

/-- For `blockchain.scripthash.subscribe`. -/
structure SHSubscribeResponse where
  status : ScriptStatus

/-- The status of the script. -/
def SHSubscribeResponse.toJson (sha256 : Bytes → UInt256) (r : SHSubscribeResponse) : Json :=
  r.status.toJson sha256

/-- For `blockchain.scripthash.utxos`. The encoder leaves the value as it was declared. -/
def SHUTXOSResponse.toJson : Json := .null

/-- For `blockchain.transaction.broadcast`. -/
structure TXBroadcastResponse where
  result : String

/-- The result as a string. -/
def TXBroadcastResponse.toJson (r : TXBroadcastResponse) : Json := .str r.result

/-- For `blockchain.transaction.get`: what the node has answered. -/
structure TXGetResponse where
  hex_or_rpc_response : Bytes

/-- The node's answer, parsed. The only encoder that may throw. -/
def TXGetResponse.toJson (parse : Bytes → Option Json) (r : TXGetResponse) : Option Json :=
  parse r.hex_or_rpc_response

/-- For `blockchain.transaction.get_merkle`: the branch, and where the transaction stands. -/
structure TXGetMerkleResponse where
  merkle : List String
  block_height : ℤ
  pos : ℤ

/-- Two named fields, and the branch without a name. -/
def TXGetMerkleResponse.toJson (r : TXGetMerkleResponse) : Json :=
  .ofBraces [.field "pos" (.int r.pos), .field "block_height" (.int r.block_height),
    .arr (r.merkle.map .str)]

/-- For `blockchain.transaction.id_from_pos`. -/
structure TXIdFromPosResponse where
  tx_hash : String

/-- An object of the hash. The branch is left out. -/
def TXIdFromPosResponse.toJson (r : TXIdFromPosResponse) : Json :=
  .ofBraces [.field "tx_hash" (.str r.tx_hash)]

/-- For `mempool.changes`, which has no fields. -/
def MPChangesResponse.toJson : Json := .null

/-- For `mempool.get_fee_histogram`. -/
structure MPGetFeeHistogramResponse where
  history : List (ℤ × ℤ)

/-- One array of two numbers a pair. -/
def MPGetFeeHistogramResponse.toJson (r : MPGetFeeHistogramResponse) : Json :=
  .pushAll (r.history.map fun x => .arr [.int x.1, .int x.2])

/-- For `server.add_peer`. -/
structure SVAddPeerResponse where
  response : Bool

/-- The response as it is. -/
def SVAddPeerResponse.toJson (r : SVAddPeerResponse) : Json := .bool r.response

/-- For `server.banner`. -/
structure SVBannerResponse where
  banner : String

/-- The banner as a string. -/
def SVBannerResponse.toJson (r : SVBannerResponse) : Json := .str r.banner

/-- For `server.features`. A host has a name and two ports. -/
structure SVFeaturesResponse where
  genesis_hash : String
  server_version : String
  hash_function : String
  protocol_max : ℚ
  protocol_min : ℚ
  hosts : List (String × ℤ × ℤ)

/-- An object of the six fields, a host as an array. -/
def SVFeaturesResponse.toJson (r : SVFeaturesResponse) : Json :=
  .ofBraces [.field "genesis_hash" (.str r.genesis_hash),
    .field "server_version" (.str r.server_version),
    .field "hash_function" (.str r.hash_function),
    .field "protocol_max" (.float r.protocol_max),
    .field "protocol_min" (.float r.protocol_min),
    .field "hosts" (.arr (r.hosts.map fun x => .arr [.str x.1, .int x.2.1, .int x.2.2]))]

/-- For `server.peers.subscribe`. -/
structure SVPeersSubscribeResponse where
  peers : List PeerInfo

/-- One array a peer. -/
def SVPeersSubscribeResponse.toJson (r : SVPeersSubscribeResponse) : Json :=
  .pushAll (r.peers.map PeerInfo.toJson)

/-- For `server.ping`, which has no fields. -/
def SVPingResponse.toJson : Json := .null

/-- For `server.version`. -/
structure SVVersionResponse where
  software_version : String
  protocol_version : String

/-- An object of both versions. -/
def SVVersionResponse.toJson (r : SVVersionResponse) : Json :=
  .ofBraces [.field "software_version" (.str r.software_version),
    .field "protocol_version" (.str r.protocol_version)]

end ElectrumZ.Commands
