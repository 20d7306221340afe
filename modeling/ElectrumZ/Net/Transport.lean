import ElectrumZ.Net.Lines

/-!
# The transport under mbedtls

The server keeps the bytes it has received for mbedtls as a pointer, a length and an offset, and
gives them out through the receive callback. To the library this is a queue.

* `bio_queue`: the callbacks answer like those of the queue, and leave the rest of the server alone.
* `sslCall_bio`: so a call of the library on a connection is its run on a queue.
* `play_received`, `play_metBy`, `play_bio`: such a run only moves bytes from those that wait to
  those that were pulled, and writes only what the send callback is asked to.
* `tryHandshake_run`, `readBuffer_run`: what a read comes to, given the run of its call.
-/

namespace ElectrumZ.Net

open Foundations Blockchain

/-! ## The queue -/

/-- What a call of the library sees of a connection: the bytes that wait for it, those it has
pulled, and the session it writes on. -/
structure Queue where
  bytes : Bytes
  pulled : Bytes
  session : Session

/-- The callbacks, on a queue. -/
def queue (env : Env) : (c : Bio) → Queue → c.Answer × Queue
  | .recv len, q =>
    if q.bytes = [] then (none, q)
    else (some (q.bytes.take len),
      { q with bytes := q.bytes.drop len, pulled := q.pulled ++ q.bytes.take len })
  | .send buf, q =>
    (show ℤ from if env.uvWrite q.session.wire buf then buf.length else 0,
      { q with session := { q.session with wire := q.session.wire ++ [⟨buf, .bio⟩] } })

/-- A pointer, a length and an offset that hold these bytes. -/
inductive Waits : Option Bytes → ℕ → ℕ → Bytes → Prop
  | nothing : Waits none 0 0 []
  | held (b : Bytes) (offset : ℕ) (h : offset < b.length) :
    Waits (some b) b.length offset (b.drop offset)

variable {lib : Mbedtls} {env : Env} {r : Read} {srv srv' : JsonRPCServer lib} {q : Queue}

/-- `srv'` is `srv`, but for what the queue accounts for. -/
def Presents (srv srv' : JsonRPCServer lib) (q : Queue) : Prop :=
  ∃ ssl_buf ssl_buf_len ssl_buf_offset, Waits ssl_buf ssl_buf_len ssl_buf_offset q.bytes ∧
    srv' = { srv with
      ssl_buf, ssl_buf_len, ssl_buf_offset, pulled := q.pulled, session := q.session }

theorem recvCallback_queue (len : ℕ) (h : Presents srv srv' q) :
    ∃ srv'', recvCallback len srv' = (.ok (queue env (.recv len) q).1, srv'') ∧
      Presents srv srv'' (queue env (.recv len) q).2 := by
  obtain ⟨bytes, pulled, session⟩ := q
  obtain ⟨ssl_buf, ssl_buf_len, ssl_buf_offset, hw, rfl⟩ := h
  simp only at hw
  cases hw with
  | nothing => exact ⟨_, rfl, none, 0, 0, .nothing, rfl⟩
  | held b _ h =>
    have hne : b.drop ssl_buf_offset ≠ [] := by
      rw [Ne, List.drop_eq_nil_iff]
      omega
    have htake : (b.drop ssl_buf_offset).take (min (b.length - ssl_buf_offset) len) =
        (b.drop ssl_buf_offset).take len := by
      rw [← List.length_drop, min_comm]
      exact List.take_eq_take_min.symm
    simp only [recvCallback, queue, if_neg hne, if_neg (show b.length ≠ 0 by omega), htake]
    split_ifs with hall
    · -- the buffer is used up
      have hdrop : (b.drop ssl_buf_offset).drop len = [] := by
        rw [List.drop_eq_nil_iff, List.length_drop]
        omega
      exact ⟨_, rfl, none, 0, 0, hdrop ▸ .nothing, rfl⟩
    · have hmin : min (b.length - ssl_buf_offset) len = len := by omega
      refine ⟨_, rfl, some b, b.length, ssl_buf_offset + len, ?_, by rw [hmin]⟩
      rw [List.drop_drop]
      exact .held b (ssl_buf_offset + len) (by omega)

/-- **The callbacks are those of a queue.** -/
theorem bio_queue (c : Bio) (h : Presents srv srv' q) :
    ∃ srv'', bio env c srv' = (.ok (queue env c q).1, srv'') ∧
      Presents srv srv'' (queue env c q).2 := by
  cases c with
  | recv len => exact recvCallback_queue len h
  | send buf =>
    obtain ⟨ssl_buf, ssl_buf_len, ssl_buf_offset, hw, rfl⟩ := h
    exact ⟨_, rfl, ssl_buf, ssl_buf_len, ssl_buf_offset, hw, rfl⟩

/-- The queue of a connection on which these bytes wait. -/
def JsonRPCServer.queue (srv : JsonRPCServer lib) (bytes : Bytes) : Queue :=
  ⟨bytes, srv.pulled, srv.session⟩

/-- A call of the library on a connection is its run on the queue. -/
theorem sslCall_bio {α : Type} {ctx : lib.Ctx} {waiting : Bytes} (env : Env)
    (f : lib.Ctx → SslCall (α × lib.Ctx)) (hssl : srv.ssl = some ctx)
    (hw : Waits srv.ssl_buf srv.ssl_buf_len srv.ssl_buf_offset waiting) :
    ∃ srv', sslCall (bio env) f srv =
      (.ok ((f ctx).play (Net.queue env) (srv.queue waiting)).1.1, srv') ∧
      Presents { srv with ssl := some ((f ctx).play (Net.queue env) (srv.queue waiting)).1.2 } srv'
        ((f ctx).play (Net.queue env) (srv.queue waiting)).2 := by
  have hpresents : Presents srv srv (srv.queue waiting) :=
    ⟨srv.ssl_buf, srv.ssl_buf_len, srv.ssl_buf_offset, hw, rfl⟩
  obtain ⟨srv', hrun, ssl_buf, ssl_buf_len, ssl_buf_offset, hw', rfl⟩ :=
    (f ctx).run_weaken_sim (g := bio env) (Presents srv) (fun c _ _ h => bio_queue c h) hpresents
  rcases hplay : (f ctx).play (Net.queue env) (srv.queue waiting) with ⟨⟨a, ctx'⟩, q⟩
  rw [hplay] at hrun hw'
  refine ⟨_, ?_, ssl_buf, ssl_buf_len, ssl_buf_offset, hw', rfl⟩
  simp only [sslCall, hssl, hrun]

/-! ## What a run on a queue preserves -/

variable {α : Type} (d : SslCall α)

/-- Nothing is lost, duplicated or reordered. -/
theorem play_received (q : Queue) :
    (d.play (queue env) q).2.pulled ++ (d.play (queue env) q).2.bytes = q.pulled ++ q.bytes := by
  refine d.play_invariant
    (I := fun q' : Queue => q'.pulled ++ q'.bytes = q.pulled ++ q.bytes) ?_ rfl
  intro c q' h
  cases c with
  | recv len =>
    rw [queue]
    split_ifs
    · exact h
    · rw [← h, List.append_assoc, List.take_append_drop]
  | send buf => exact h

/-- The database and the node are not touched. -/
theorem play_metBy (h : MetBy r q.session) : MetBy r (d.play (queue env) q).2.session := by
  refine d.play_invariant (I := fun q' : Queue => MetBy r q'.session) ?_ h
  intro c q' h
  cases c with
  | recv len => rw [queue]; split_ifs <;> exact h
  | send buf => exact h

/-- Every write so far comes from the send callback. -/
def Session.Sealed (s : Session) : Prop := ∀ w ∈ s.wire, w.source = .bio

theorem sealed_append {s : Session} (h : s.Sealed) (buf : Bytes) :
    ({ s with wire := s.wire ++ [⟨buf, .bio⟩] } : Session).Sealed := by
  intro w hw
  obtain hw | hw := List.mem_append.mp hw
  · exact h w hw
  · rw [List.mem_singleton.mp hw]

/-- The library writes through the send callback. -/
theorem play_sealed (h : q.session.Sealed) : (d.play (queue env) q).2.session.Sealed := by
  refine d.play_invariant (I := fun q' : Queue => q'.session.Sealed) ?_ h
  intro c q' h
  cases c with
  | recv len => rw [queue]; split_ifs <;> exact h
  | send buf => exact sealed_append h buf

/-! ## A read of a TLS connection -/

namespace JsonRPCServer

/-- The flags of a connection that shakes hands. -/
def shaking : ℕ := JsonRPCState.SSL_NORMAL ||| JsonRPCState.SSL_HANDSHAKE

/-- The server when it has handed the buffer of a read to mbedtls. -/
def receive (srv : JsonRPCServer lib) (r : Read) : JsonRPCServer lib :=
  { srv.meet r with ssl_buf := some r.base, ssl_buf_len := r.base.length, ssl_buf_offset := 0 }

end JsonRPCServer

open JsonRPCServer

theorem waits_receive (srv : JsonRPCServer lib) (hr : r.base ≠ []) :
    Waits (srv.receive r).ssl_buf (srv.receive r).ssl_buf_len (srv.receive r).ssl_buf_offset
      r.base :=
  .held r.base 0 (List.length_pos_of_ne_nil hr)

/-- The connection is in TLS mode. -/
def InTLS (srv : JsonRPCServer lib) : Prop :=
  srv.state = shaking ∨ srv.state = JsonRPCState.SSL_NORMAL

theorem InTLS.has (h : InTLS srv) : srv.has JsonRPCState.SSL_NORMAL = true := by
  obtain h | h := h <;> exact has_eq h (by decide)

theorem InTLS.not_start (h : InTLS srv) : srv.has JsonRPCState.START = false := by
  obtain h | h := h <;> exact has_eq h (by decide)

/-- **A read on a connection whose buffer is still there** fails the assertion. -/
theorem handleRead_asserts {b : Bytes} (h : InTLS srv) (hbuf : srv.ssl_buf = some b)
    (hr : r.base ≠ []) : handleRead env r srv = (.error (.assertion .sslBuf), srv.meet r) := by
  have hmeet : InTLS (srv.meet r) := h
  have htake : takeBuffer r (srv.meet r) = (.error (.assertion .sslBuf), srv.meet r) := by
    simp only [takeBuffer, show (srv.meet r).ssl_buf = some b from hbuf]
  rw [handleRead, Action.bind_of_ok (Action.run_update _ _), if_neg hr, handleReceived]
  refine Action.bind_of_error ?_
  rw [enterRead, Action.bind_of_ok (Action.run_look _ _), id, hmeet.has, if_pos rfl, htake]

/-- A read in TLS mode goes to the handshake or to mbedtls. -/
theorem handleRead_tls (h : InTLS srv) (hbuf : srv.ssl_buf = none) (hr : r.base ≠ []) :
    handleRead env r srv =
      (if (srv.receive r).has JsonRPCState.SSL_HANDSHAKE then tryHandshake env
        else readBuffer env r) (srv.receive r) := by
  have hmeet : InTLS (srv.meet r) := h
  have hreceive : InTLS (srv.receive r) := h
  have htake : enterRead r (srv.meet r) = (.ok (), srv.receive r) := by
    rw [enterRead, Action.bind_of_ok (Action.run_look _ _), id, hmeet.has, if_pos rfl]
    simp only [takeBuffer, show (srv.meet r).ssl_buf = none from hbuf]
    rfl
  rw [handleRead, Action.bind_of_ok (Action.run_update _ _), if_neg hr, handleReceived,
    Action.bind_of_ok htake, Action.bind_of_ok (Action.run_look _ _), id, hreceive.not_start,
    if_neg Bool.false_ne_true]

theorem handleRead_shaking (h : srv.state = shaking) (hbuf : srv.ssl_buf = none)
    (hr : r.base ≠ []) : handleRead env r srv = tryHandshake env (srv.receive r) := by
  have hstate : (srv.receive r).state = shaking := h
  rw [handleRead_tls (.inl h) hbuf hr, has_eq hstate rfl, if_pos (by decide)]

theorem handleRead_decrypts (h : srv.state = JsonRPCState.SSL_NORMAL) (hbuf : srv.ssl_buf = none)
    (hr : r.base ≠ []) : handleRead env r srv = readBuffer env r (srv.receive r) := by
  have hstate : (srv.receive r).state = JsonRPCState.SSL_NORMAL := h
  rw [handleRead_tls (.inr h) hbuf hr, has_eq hstate rfl, if_neg (by decide)]

/-- The server that starts to shake hands. -/
def JsonRPCServer.hello (srv : JsonRPCServer lib) (r : Read) : JsonRPCServer lib :=
  { srv.receive r with state := shaking, ssl := some lib.setup }

theorem toggle_start (h : srv.state = JsonRPCState.START) :
    (srv.meet r).toggle JsonRPCState.START = { srv.meet r with state := 0 } := by
  show { srv.meet r with state := srv.state ^^^ JsonRPCState.START } = _
  rw [h]
  rfl

theorem initTLSContext_hello : (initTLSContext { srv.receive r with state := 0 }).set
    JsonRPCState.SSL_HANDSHAKE = srv.hello r := by
  have hflags : 0 ||| JsonRPCState.SSL_NORMAL ||| JsonRPCState.SSL_HANDSHAKE = shaking := by decide
  rw [JsonRPCServer.hello, ← hflags]
  rfl

/-- The first read of a TLS connection. -/
theorem handleRead_hello (h : srv.state = JsonRPCState.START) (hbuf : srv.ssl_buf = none)
    (hhello : isTLSClientHello r.base = true) (hconfig : srv.ssl_config = true) (hr : r.base ≠ []) :
    handleRead env r srv = tryHandshake env (srv.hello r) := by
  have htake : takeBuffer r ({ srv.meet r with state := 0 } : JsonRPCServer lib) =
      (.ok (), { srv.receive r with state := 0 }) := by
    simp only [takeBuffer, show (srv.meet r).ssl_buf = none from hbuf]
    rfl
  have hconfig' : ({ srv.meet r with state := 0 } : JsonRPCServer lib).ssl_config = true := hconfig
  rw [handleRead_first h hr, firstRead, Action.bind_of_ok (Action.run_update _ _), hhello,
    if_pos rfl, toggle_start h, Action.bind_of_ok (Action.run_look _ _), id, hconfig',
    if_neg (by decide), Action.bind_of_ok htake, Action.bind_of_ok (Action.run_update _ _),
    Action.bind_of_ok (Action.run_update _ _), initTLSContext_hello]

/-- Without a configuration a TLS client is turned away. -/
theorem handleRead_refused (h : srv.state = JsonRPCState.START)
    (hhello : isTLSClientHello r.base = true) (hconfig : srv.ssl_config = false)
    (hr : r.base ≠ []) : handleRead env r srv = (.ok 0, { srv.meet r with state := 0 }) := by
  have hconfig' : ({ srv.meet r with state := 0 } : JsonRPCServer lib).ssl_config = false := hconfig
  rw [handleRead_first h hr, firstRead, Action.bind_of_ok (Action.run_update _ _), hhello,
    if_pos rfl, toggle_start h, Action.bind_of_ok (Action.run_look _ _), id, hconfig', if_pos rfl]
  rfl

/-! ## The call of a read -/

variable (env)

/-- The handshake, while these bytes wait. -/
def shake (srv : JsonRPCServer lib) (ctx : lib.Ctx) (waiting : Bytes) : (ℤ × lib.Ctx) × Queue :=
  (lib.handshake ctx).play (Net.queue env) (srv.queue waiting)

/-- The size of the local buffer, which is larger than what was received. -/
def readLen (received : ℕ) : ℕ := received + (JSONRPC_BUFF_LEN - received % JSONRPC_BUFF_LEN)

theorem le_readLen (received : ℕ) : received ≤ readLen received := Nat.le_add_right _ _

/-- The read, while these bytes wait. -/
def decrypt (srv : JsonRPCServer lib) (ctx : lib.Ctx) (waiting : Bytes) :
    (SslRead × lib.Ctx) × Queue :=
  (lib.read ctx (readLen srv.ssl_buf_len)).play (Net.queue env) (srv.queue waiting)

variable {ctx : lib.Ctx} {waiting : Bytes}

theorem tryHandshake_run (hssl : srv.ssl = some ctx)
    (hw : Waits srv.ssl_buf srv.ssl_buf_len srv.ssl_buf_offset waiting) :
    ∃ srv', Presents { srv with ssl := some (shake env srv ctx waiting).1.2 } srv'
        (shake env srv ctx waiting).2 ∧
      tryHandshake env srv =
        if (shake env srv ctx waiting).1.1 = 0 then
          (.ok 2, srv'.toggle JsonRPCState.SSL_HANDSHAKE)
        else if (shake env srv ctx waiting).1.1 = MBEDTLS_ERR_SSL_WANT_READ ∨
          (shake env srv ctx waiting).1.1 = MBEDTLS_ERR_SSL_WANT_WRITE then (.ok 1, srv')
        else (.ok 0, resetSession srv') := by
  obtain ⟨srv', hrun, hpresents⟩ := sslCall_bio env lib.handshake hssl hw
  refine ⟨srv', hpresents, ?_⟩
  rw [tryHandshake, Action.bind_of_ok hrun, shake]
  split_ifs <;> rfl

theorem readBuffer_run (hstate : srv.has JsonRPCState.SSL_NORMAL = true) (hssl : srv.ssl = some ctx)
    (hw : Waits srv.ssl_buf srv.ssl_buf_len srv.ssl_buf_offset waiting) :
    ∃ srv', Presents { srv with ssl := some (decrypt env srv ctx waiting).1.2 } srv'
        (decrypt env srv ctx waiting).2 ∧
      readBuffer env r srv = handleDecrypted env r (decrypt env srv ctx waiting).1.1 srv' := by
  obtain ⟨srv', hrun, hpresents⟩ :=
    sslCall_bio env (fun ctx => lib.read ctx (readLen srv.ssl_buf_len)) hssl hw
  refine ⟨srv', hpresents, ?_⟩
  rw [readBuffer, Action.bind_of_ok (Action.run_look _ _), id, hstate, if_pos rfl]
  exact Action.bind_of_ok hrun

/-- Decrypted bytes are handled like others. -/
theorem KeptByParsing.handleDecrypted {I : JsonRPCServer lib → Prop} (hI : KeptByParsing I)
    (env : Env) (r : Read) (d : SslRead) : Action.Keeps I (handleDecrypted env r d) :=
  Action.keeps_ite (Action.keeps_pure _)
    (Action.keeps_ite (hI.appendBuffer _ _) (hI.handleBytes env r _ _))

end ElectrumZ.Net
