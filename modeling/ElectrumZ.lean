import ElectrumZ.Foundations.Bytes
import ElectrumZ.Foundations.Dialog
import ElectrumZ.Foundations.Action
import ElectrumZ.Foundations.Loop
import ElectrumZ.Bitcoin.Serialize
import ElectrumZ.Bitcoin.Transaction
import ElectrumZ.Bitcoin.Streams
import ElectrumZ.Blockchain.Scan
import ElectrumZ.Foundations.Table
import ElectrumZ.Bitcoin.Hash
import ElectrumZ.Bitcoin.Sha256
import ElectrumZ.Blockchain.Lmdb
import ElectrumZ.Blockchain.TXODB
import ElectrumZ.Blockchain.Preload
import ElectrumZ.Blockchain.Consistency
import ElectrumZ.Blockchain.Completeness
import ElectrumZ.Bitcoin.StrEncodings
import ElectrumZ.Foundations.Trace
import ElectrumZ.Foundations.Pieces
import ElectrumZ.Foundations.Runs
import ElectrumZ.Foundations.Digest
import ElectrumZ.Bitcoin.Hashers
import ElectrumZ.Blockchain.Lookup
import ElectrumZ.Blockchain.Search
import ElectrumZ.Blockchain.ReturnCodes
import ElectrumZ.Blockchain.Closing
import ElectrumZ.Blockchain.Retry
import ElectrumZ.Blockchain.Failing
import ElectrumZ.Blockchain.Attempt
import ElectrumZ.Blockchain.Failures
import ElectrumZ.Foundations.Json
import ElectrumZ.Foundations.Base64
import ElectrumZ.Foundations.Http
import ElectrumZ.Electrum.Commands
import ElectrumZ.Electrum.Lists
import ElectrumZ.Electrum.Merkle
import ElectrumZ.Electrum.Status
import ElectrumZ.Net.HandleCommand
import ElectrumZ.Net.Answers
import ElectrumZ.Net.Mbedtls
import ElectrumZ.Net.JsonRPCServer
import ElectrumZ.Net.Lines
import ElectrumZ.Net.Framing
import ElectrumZ.Net.Plaintext
import ElectrumZ.Net.Transparency
import ElectrumZ.Net.Buffering
import ElectrumZ.Net.RPCClient
import ElectrumZ.Net.Requests
import ElectrumZ.Net.Queries
import ElectrumZ.Net.Correlation
import ElectrumZ.Net.Retirement
import ElectrumZ.Net.Connection
import ElectrumZ.Net.Reassembly
import ElectrumZ.Net.Subscription
import ElectrumZ.Net.Mode
import ElectrumZ.Blockchain.Passes
import ElectrumZ.Blockchain.Termination
import ElectrumZ.Blockchain.Damage
import ElectrumZ.Blockchain.IoFailure
import ElectrumZ.Blockchain.Workers
import ElectrumZ.Blockchain.Interleaving
import ElectrumZ.Blockchain.Lossless
import ElectrumZ.Blockchain.Index
import ElectrumZ.Blockchain.Atomicity
import ElectrumZ.Blockchain.Recovery
import ElectrumZ.Blockchain.Overwriting
import ElectrumZ.Foundations.Discipline
import ElectrumZ.Blockchain.Progress
import ElectrumZ.Net.Sharing
import ElectrumZ.Net.NetWorker
import ElectrumZ.Net.Service
import ElectrumZ.Foundations.Formats
import ElectrumZ.Bitcoin.Formats
import ElectrumZ.Blockchain.Provenance
import ElectrumZ.Foundations.Bits
import ElectrumZ.Bitcoin.BaseEncodings
import ElectrumZ.Foundations.Memory
import ElectrumZ.Bitcoin.Prevector
import ElectrumZ.Bitcoin.DataStream
