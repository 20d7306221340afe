import ElectrumZ.Foundations.Dialog

/-!
# The TLS library

mbedtls as the server sees it. Its calls are dialogues with the transport, which is asked for bytes
and given bytes to send through the callbacks of `mbedtls_ssl_set_bio`.

`nullCipher` is a library that does all of this but the cryptography: a record is five bytes of
header and its body in clear, and a handshake takes two records of the client.
-/

namespace ElectrumZ.Net

open Foundations

def MBEDTLS_ERR_SSL_WANT_READ : ℤ := -0x6900

def MBEDTLS_ERR_SSL_WANT_WRITE : ℤ := -0x6880

/-- A call of a callback: receive up to `len` bytes, or send some. -/
inductive Bio
  | recv (len : ℕ)
  | send (buf : Bytes)

/-- The receive callback returns bytes, or `MBEDTLS_ERR_SSL_WANT_READ`; the send callback a
number. -/
def Bio.Answer : Bio → Type
  | recv _ => Option Bytes
  | send _ => ℤ

/-- A call of the library that may use both callbacks. -/
abbrev SslCall (α : Type) := Dialog Bio Bio.Answer Empty α

/-- A call of the library that only sends. -/
abbrev SslSend (α : Type) := Dialog Bytes (fun _ => ℤ) Empty α

/-- What `mbedtls_ssl_read` returns: the number of bytes it has put into the buffer, or an error
code. -/
structure SslRead where
  code : ℤ
  data : Bytes
  length_eq : data.length = code.toNat

namespace SslRead

/-- Some bytes have been read. -/
def ofData (data : Bytes) : SslRead := ⟨data.length, data, by simp⟩

theorem ofData_pos {data : Bytes} (h : data ≠ []) : 0 < (ofData data).code :=
  Int.natCast_pos.mpr (List.length_pos_of_ne_nil h)

/-- The callback had nothing to give. -/
def wantRead : SslRead := ⟨MBEDTLS_ERR_SSL_WANT_READ, [], rfl⟩

end SslRead

/-- The library: contexts and the calls on them. -/
structure Mbedtls where
  Ctx : Type
  /-- A context that has been set up. -/
  setup : Ctx
  handshake : Ctx → SslCall (ℤ × Ctx)
  read : Ctx → ℕ → SslCall (SslRead × Ctx)
  write : Ctx → Bytes → SslSend (ℤ × Ctx)
  sessionReset : Ctx → Ctx

/-! ## A library without cryptography -/

namespace NullCipher

/-- A session. -/
structure Ctx where
  /-- The records of the handshake still to come. -/
  flights : ℕ
  /-- The part of a record that has arrived. -/
  arrived : Bytes
  /-- What has not been read yet of the record that arrived last. -/
  plain : Bytes

/-- A context in which nothing has happened. -/
def Ctx.initial : Ctx := ⟨2, [], []⟩

/-- A record: type, version, length, and body. -/
def record (type : UInt8) (body : Bytes) : Bytes :=
  [type, 0x03, 0x03, UInt8.ofNat (body.length / 256), UInt8.ofNat body.length] ++ body

/-- Ask for bytes until `need` of them have arrived, at most so many times. The answer tells whether
they have. -/
def fetch (need : ℕ) : ℕ → Bytes → SslCall (Bool × Bytes)
  | 0, arrived => return (decide (need ≤ arrived.length), arrived)
  | times + 1, arrived =>
    if need ≤ arrived.length then return (true, arrived)
    else .ask (.recv (need - arrived.length)) fun
      | none => return (false, arrived)
      | some bytes => fetch need times (arrived ++ bytes)

/-- The header, and then the body it announces. -/
def nextRecord (arrived : Bytes) : SslCall (Bool × Bytes) := do
  let (whole, arrived) ← fetch 5 5 arrived
  if whole then
    let len := (arrived.getD 3 0).toNat * 256 + (arrived.getD 4 0).toNat
    fetch (5 + len) (5 + len) arrived
  else return (false, arrived)

/-- Every record of the client is answered by an empty one. -/
def handshake : ℕ → Bytes → SslCall (ℤ × Ctx)
  | 0, arrived => return (0, ⟨0, arrived, []⟩)
  | flights + 1, arrived => do
    let (whole, arrived) ← nextRecord arrived
    if whole then .ask (.send (record 0x16 [])) fun _ => handshake flights []
    else return (MBEDTLS_ERR_SSL_WANT_READ, ⟨flights + 1, arrived, []⟩)

/-- What is left of the last record, or the next one. -/
def read (ctx : Ctx) (len : ℕ) : SslCall (SslRead × Ctx) :=
  if ctx.plain = [] then do
    let (whole, arrived) ← nextRecord ctx.arrived
    if whole then
      let body := arrived.drop 5
      return (.ofData (body.take len), { ctx with arrived := [], plain := body.drop len })
    else return (.wantRead, { ctx with arrived })
  else return (.ofData (ctx.plain.take len), { ctx with plain := ctx.plain.drop len })

/-- One record. -/
def write (ctx : Ctx) (buf : Bytes) : SslSend (ℤ × Ctx) :=
  .ask (record 0x17 buf) fun _ => return (buf.length, ctx)

end NullCipher

/-- The library without cryptography. -/
def nullCipher : Mbedtls where
  Ctx := NullCipher.Ctx
  setup := .initial
  handshake ctx := NullCipher.handshake ctx.flights ctx.arrived
  read := NullCipher.read
  write := NullCipher.write
  sessionReset _ := .initial

end ElectrumZ.Net
