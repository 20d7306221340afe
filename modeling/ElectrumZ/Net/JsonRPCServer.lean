import ElectrumZ.Net.HandleCommand
import ElectrumZ.Net.Mbedtls

/-!
# A client connection

`JsonRPCServer`, from the read callback on: `HandleRead` with the handshake, the two buffers and
the loop over the lines of what has been read. The fields of the class are those of the source,
with what the properties are about recorded besides: the commands that were handled, whether a
byte that was not received has been looked at, and what the receive callback has returned.

Memory behind the bytes that were received is not the server's. What stands there is part of a
read, and the string functions of C, which know no length, run into it.
-/

namespace ElectrumZ.Net

open Foundations Bitcoin Blockchain

/-! ## The connection -/

def JSONRPC_BUFF_LEN : ℕ := 1024

def JSONRPC_MAX_BUFFER : ℕ := 16384

namespace JsonRPCState

def START : ℕ := 1

def NORMAL : ℕ := 2

def SSL_NORMAL : ℕ := 4

def SSL_HANDSHAKE : ℕ := 8

end JsonRPCState

/-- A connection to a client. -/
structure JsonRPCServer (lib : Mbedtls) where
  /-- A word of flags. -/
  state : ℕ
  /-- TLS is configured. -/
  ssl_config : Bool
  ssl : Option lib.Ctx
  /-- The libuv buffer mbedtls reads from, unless it is null. -/
  ssl_buf : Option Bytes
  ssl_buf_len : ℕ
  ssl_buf_offset : ℕ
  /-- The first `offset` bytes are kept from the reads before. -/
  buf : Bytes
  offset : ℕ
  /-- The size of the allocation. -/
  len : ℕ
  session : Session
  /-- The commands that were passed to `HandleCommand`. -/
  commands : List Json
  /-- A byte behind those that were received has been looked at. -/
  overread : Bool
  /-- What the receive callback has returned. -/
  pulled : Bytes

/-- One call of the read callback. -/
structure Read where
  /-- The bytes received; there are none at an error or the end of the stream. -/
  base : Bytes
  /-- What memory holds behind the bytes that are searched, up to a zero byte. -/
  after : Bytes
  /-- The database, and the link to the node, at the time of the read. -/
  store : Store
  rpc : RpcLink

/-- A read of some bytes, by a server without data and without a node. -/
def Read.ofBytes (base : Bytes) : Read := ⟨base, [], .fresh, .absent⟩

variable {lib : Mbedtls}

/-- A part of the handling of a read. -/
abbrev ServerM (lib : Mbedtls) := Action Fault (JsonRPCServer lib)

namespace JsonRPCServer

/-- A connection that has been accepted. -/
def accepted (lib : Mbedtls) (ssl_config : Bool) (session : Session) : JsonRPCServer lib where
  state := JsonRPCState.START
  ssl_config := ssl_config
  ssl := none
  ssl_buf := none
  ssl_buf_len := 0
  ssl_buf_offset := 0
  buf := []
  offset := 0
  len := 0
  session := session
  commands := []
  overread := false
  pulled := []

/-- Some of the flags are set. -/
def has (srv : JsonRPCServer lib) (flag : ℕ) : Bool := srv.state &&& flag != 0

/-- Set flags. -/
def set (srv : JsonRPCServer lib) (flag : ℕ) : JsonRPCServer lib :=
  { srv with state := srv.state ||| flag }

/-- Toggle flags. -/
def toggle (srv : JsonRPCServer lib) (flag : ℕ) : JsonRPCServer lib :=
  { srv with state := srv.state ^^^ flag }

/-- Append to the internal buffer. -/
def append (srv : JsonRPCServer lib) (data : Bytes) : JsonRPCServer lib :=
  { srv with buf := srv.buf.take srv.offset ++ data, offset := srv.offset + data.length }

end JsonRPCServer

/-- Act on the session of the connection. -/
def onSession {α : Type} (x : CmdM α) : ServerM lib α :=
  Action.zoom JsonRPCServer.session (fun session srv => { srv with session }) x

/-! ## mbedtls -/

variable (env : Env)

/-- The receive callback: from the libuv buffer, which is let go when it has been read. -/
def recvCallback (len : ℕ) (srv : JsonRPCServer lib) :
    Except Fault (Option Bytes) × JsonRPCServer lib :=
  if srv.ssl_buf_len = 0 then (.ok none, srv)
  else
    match srv.ssl_buf with
    | none => (.error .null, srv)
    | some ssl_buf =>
      let rlen := min (srv.ssl_buf_len - srv.ssl_buf_offset) len
      let bytes := (ssl_buf.drop srv.ssl_buf_offset).take rlen
      let srv := { srv with pulled := srv.pulled ++ bytes }
      if rlen = srv.ssl_buf_len - srv.ssl_buf_offset then
        (.ok (some bytes), { srv with ssl_buf := none, ssl_buf_len := 0, ssl_buf_offset := 0 })
      else (.ok (some bytes), { srv with ssl_buf_offset := srv.ssl_buf_offset + rlen })

/-- The send callback. -/
def sendCallback : Dialog.Handler Bytes (fun _ => ℤ) Fault (JsonRPCServer lib) := fun buf =>
  onSession (writeInternal env .bio buf)

/-- The callbacks `InitTLSContext` installs. -/
def bio : Dialog.Handler Bio Bio.Answer Fault (JsonRPCServer lib)
  | .recv len => recvCallback len
  | .send buf => sendCallback env buf

/-- Call the library on the context of the connection, with a handler for its callbacks. -/
def sslCall {Q : Type} {A : Q → Type} {α : Type} (h : Dialog.Handler Q A Fault (JsonRPCServer lib))
    (f : lib.Ctx → Dialog Q A Empty (α × lib.Ctx)) : ServerM lib α := fun srv =>
  match srv.ssl with
  | none => (.error .null, srv)
  | some ctx =>
    match (f ctx).weaken.run h srv with
    | (.ok (a, ctx), srv) => (.ok a, { srv with ssl := some ctx })
    | (.error e, srv) => (.error e, srv)

/-- `InitTLSContext`. -/
def initTLSContext (srv : JsonRPCServer lib) : JsonRPCServer lib :=
  { srv.set JsonRPCState.SSL_NORMAL with ssl := some lib.setup }

/-- Reset the session, and let the buffer go if it was not used up. -/
def resetSession (srv : JsonRPCServer lib) : JsonRPCServer lib :=
  { srv with
    ssl := srv.ssl.map lib.sessionReset
    ssl_buf_offset := 0
    ssl_buf_len := 0
    ssl_buf := none }

/-- `TryHandshake`: 2 when the handshake is over, 1 while it needs more, and 0 when it failed. -/
def tryHandshake : ServerM lib ℤ := do
  let hsr ← sslCall (bio env) lib.handshake
  if hsr = 0 then do
    Action.update fun srv => srv.toggle JsonRPCState.SSL_HANDSHAKE
    return 2
  else if hsr = MBEDTLS_ERR_SSL_WANT_READ ∨ hsr = MBEDTLS_ERR_SSL_WANT_WRITE then return 1
  else do
    Action.update resetSession
    return 0

/-! ## Writing and buffering -/

/-- `Write`, through TLS if the connection has it. -/
def write (buf : Bytes) : ServerM lib ℤ := do
  let srv ← Action.look id
  if srv.has JsonRPCState.SSL_NORMAL then
    sslCall (sendCallback env) fun ctx => lib.write ctx buf
  else if srv.has JsonRPCState.NORMAL then onSession (writeInternal env .plain buf)
  else return 0

/-- `AppendBuffer`: the limit is checked when the allocation has to grow. -/
def appendBuffer (nread : ℤ) (data : Bytes) : ServerM lib ℤ := fun srv =>
  if nread ≤ 0 then (.ok 0, srv)
  else if (srv.len : ℤ) < nread + srv.offset then
    let min_size := (srv.offset + nread + 1).toNat
    if JSONRPC_MAX_BUFFER < min_size then (.ok 0, srv)
    else (.ok 1, { srv.append data with len := min_size + min_size % JSONRPC_BUFF_LEN })
  else (.ok 1, srv.append data)

/-- Put the internal buffer before what was read. A negative length makes the copy of the new bytes
go astray. -/
def mergeBuffer (buf_len : ℤ) (data : Bytes) : ServerM lib (ℤ × Bytes) := fun srv =>
  if srv.offset = 0 then (.ok (buf_len, data), srv)
  else if buf_len < 0 then (.error .null, srv)
  else (.ok (buf_len + srv.offset, srv.buf.take srv.offset ++ data), { srv with offset := 0 })

/-! ## The string functions -/

/-- `strchr`: the string before the character and the memory behind it. -/
def strchr (c : UInt8) : Bytes → Option (Bytes × Bytes)
  | [] => none
  | b :: mem =>
    if b = c then some ([], mem)
    else if b = 0 then none
    else (strchr c mem).map fun (text, rest) => (b :: text, rest)

/-- The number of bytes `strchr` looks at. -/
def strchrScan (c : UInt8) : Bytes → ℕ
  | [] => 1
  | b :: mem => if b = c ∨ b = 0 then 1 else strchrScan c mem + 1

/-- What an HTTP request begins with. -/
def GET : Bytes := ascii "GET"

/-- The number of bytes `strstr` looks at to find it. -/
def strstrScan : Bytes → ℕ
  | [] => 1
  | b :: mem =>
    if GET <+: b :: mem then 3 else if b = 0 then 1 else strstrScan mem + 1

/-- Note whether a search has left the `buf_len` bytes it was meant for. -/
def inspect (scanned : ℕ) (buf_len : ℤ) : ServerM lib Unit :=
  Action.update fun srv => { srv with overread := srv.overread || decide (buf_len < scanned) }

theorem length_lt_of_strchr {c : UInt8} {mem text rest : Bytes}
    (h : strchr c mem = some (text, rest)) : rest.length < mem.length := by
  induction mem generalizing text with
  | nil => simp [strchr] at h
  | cons b mem ih =>
    rw [strchr] at h
    split_ifs at h
    · simp_all
    · obtain ⟨⟨text', rest'⟩, h', heq⟩ := Option.map_eq_some_iff.mp h
      obtain ⟨-, rfl⟩ := Prod.mk.inj heq
      exact (ih h').trans (Nat.lt_succ_self _)

/-! ## Handling what was read -/

/-- The `try` around a line. It tells whether no exception of the JSON library was caught; any other
leaves `HandleRead`. -/
def handleLine (text : Bytes) : ServerM lib Bool := fun srv =>
  match env.parse text with
  | none => (.ok false, srv)
  | some req =>
    match onSession (handleCommand env req) { srv with commands := srv.commands ++ [req] } with
    | (.ok (), srv) => (.ok true, srv)
    | (.error .json, srv) => (.ok false, srv)
    | (.error e, srv) => (.error e, srv)

/-- The loop at `parse_again`, over the memory from `readOffset` on. -/
def parseAgain (nread : ℕ) (buf_len : ℤ) (mem : Bytes) : ServerM lib ℤ := do
  inspect (strchrScan JSONRPC_DELIM mem) buf_len
  match h : strchr JSONRPC_DELIM mem with
  | none => appendBuffer buf_len (mem.take buf_len.toNat)
  | some (text, rest) => do
    let handled ← handleLine env text
    if handled = false then return 0
    else if (text.length : ℤ) < nread - 1 then
      parseAgain nread (buf_len - (text.length + 1)) rest
    else return 1
termination_by mem.length
decreasing_by exact length_lt_of_strchr h

/-- The response to an HTTP request. -/
def http_rsp : Bytes :=
  ascii <| "HTTP/1.1 200 OK\r\nContent-Type: text/html\r\nContent-Length: 23\r\n\r\n" ++
    "<h2>ElectrumZ 1.0!</h2>"

/-- Handle `buf_len` bytes of a connection, behind those that were kept. -/
def handleBytes (r : Read) (buf_len : ℤ) (data : Bytes) : ServerM lib ℤ := do
  let (buf_len, buf_check) ← mergeBuffer buf_len data
  let mem := buf_check ++ r.after
  inspect (strstrScan mem) buf_len
  if GET <+: mem then do
    let _ ← write env http_rsp
    return 1
  else parseAgain env r.base.length buf_len mem

/-- Handle what mbedtls has decrypted. -/
def handleDecrypted (r : Read) (d : SslRead) : ServerM lib ℤ :=
  if d.code = 0 ∨ (d.code < 0 ∧ d.code ≠ MBEDTLS_ERR_SSL_WANT_READ ∧
      d.code ≠ MBEDTLS_ERR_SSL_WANT_WRITE) then return 0
  else if d.code = MBEDTLS_ERR_SSL_WANT_READ then appendBuffer d.code d.data
  else handleBytes env r d.code d.data

/-- What follows the handshake and the first read. -/
def readBuffer (r : Read) : ServerM lib ℤ := do
  let srv ← Action.look id
  if srv.has JsonRPCState.SSL_NORMAL then do
    let buf_len := srv.ssl_buf_len + (JSONRPC_BUFF_LEN - srv.ssl_buf_len % JSONRPC_BUFF_LEN)
    let d ← sslCall (bio env) fun ctx => lib.read ctx buf_len
    handleDecrypted env r d
  else handleBytes env r r.base.length r.base

/-- Hand the libuv buffer to mbedtls. -/
def takeBuffer (r : Read) : ServerM lib Unit := fun srv =>
  match srv.ssl_buf with
  | some _ => (.error (.assertion .sslBuf), srv)
  | none =>
    (.ok (), { srv with ssl_buf := some r.base, ssl_buf_len := r.base.length, ssl_buf_offset := 0 })

/-- `IsTLSClientHello`, which looks at the first three bytes. -/
def isTLSClientHello (buf : Bytes) : Bool :=
  4 < buf.length && buf.getD 0 0 == 0x16 && buf.getD 1 0 == 0x03 && decide (buf.getD 2 0 ≤ 0x03)

/-- The first read decides between TLS and plain text. -/
def firstRead (r : Read) : ServerM lib ℤ := do
  Action.update fun srv => srv.toggle JsonRPCState.START
  if isTLSClientHello r.base then do
    let srv ← Action.look id
    if srv.ssl_config = false then return 0
    else do
      takeBuffer r
      Action.update initTLSContext
      Action.update fun srv => srv.set JsonRPCState.SSL_HANDSHAKE
      tryHandshake env
  else do
    Action.update fun srv => srv.set JsonRPCState.NORMAL
    readBuffer env r

/-- A read in TLS mode first hands over its buffer. -/
def enterRead (r : Read) : ServerM lib Unit := do
  let srv ← Action.look id
  if srv.has JsonRPCState.SSL_NORMAL then takeBuffer r else pure ()

/-- `HandleRead` after the test of `nread`. -/
def handleReceived (r : Read) : ServerM lib ℤ := do
  enterRead r
  let srv ← Action.look id
  if srv.has JsonRPCState.START then firstRead env r
  else if srv.has JsonRPCState.SSL_HANDSHAKE then tryHandshake env
  else readBuffer env r

/-- The server as a read finds it. -/
def JsonRPCServer.meet (srv : JsonRPCServer lib) (r : Read) : JsonRPCServer lib :=
  { srv with session := { srv.session with store := r.store, rpc := r.rpc } }

/-- `HandleRead`. What it returns tells whether the connection stays open. -/
def handleRead (r : Read) : ServerM lib ℤ := do
  Action.update fun srv => srv.meet r
  if r.base = [] then return 0 else handleReceived env r

/-- The reads of a connection, until one of them ends it. -/
def serve : List Read → ServerM lib Bool
  | [] => pure true
  | r :: reads => do
    let ret ← handleRead env r
    if ret = 0 then return false else serve reads

end ElectrumZ.Net
