import ElectrumZ.Net.Transport

/-!
# The receive buffer of a TLS connection

`HandleRead` asserts that mbedtls has used up the buffer of the read before.

* `handleCommand_avoids`, `handleDecrypted_avoids`: the assertion fails nowhere else.
* `handleRead_open`: a read on a connection without waiting bytes leaves those that its call of
  the library has not asked for, and what was pulled is what was received.
* `received_prefix`: so what was pulled is always a prefix of what was received.
* `handsOff_iff`: the assertion holds throughout a run if and only if every read but the last is
  used up by its call of the library.
-/

namespace ElectrumZ.Net

open Foundations Blockchain Commands JsonRPCServer

variable {lib : Mbedtls} (env : Env) {r r' : Read} {srv srv' : JsonRPCServer lib} {s : Session}
  {ctx : lib.Ctx} {waiting received : Bytes} {reads : List Read}

/-! ## Where the assertion is not -/

/-- The assertion about the libuv buffer. -/
abbrev AvoidsSslBuf {σ α : Type} (x : Action Fault σ α) : Prop :=
  Action.Avoids (.assertion .sslBuf) x

theorem access_avoids {α : Type} (x : Option α) : AvoidsSslBuf (access x) := by
  cases x with
  | none => exact fun _ => nofun
  | some a => exact Action.avoids_pure a

theorem writeInternalJson_avoids (data : Json) : AvoidsSslBuf (writeInternalJson env data) :=
  Action.Avoids.bind (fun _ => nofun) fun _ => Action.avoids_pure _

theorem blob_avoids (vch : Bytes) : AvoidsSslBuf (blob vch) := by
  intro s
  rw [blob]
  split_ifs <;> intro h <;> cases h

theorem onStore_avoids {α : Type} (p : Prog α) : AvoidsSslBuf (onStore p) := by
  intro s
  rw [onStore]
  rcases p.run lmdb s.store with ⟨stop | a, store⟩
  · cases stop <;> intro h <;> cases h
  · intro h
    cases h

theorem rpcQuery_avoids (method : String) (params : Json) :
    AvoidsSslBuf (rpcQuery method params) := by
  intro s
  rw [rpcQuery]
  cases s.rpc <;> simp

theorem dispatch_avoids (cmd : Json) (id : ℤ) (c : ElectrumCommands) :
    AvoidsSslBuf (dispatch env cmd id c) := by
  have hwrite := writeInternalJson_avoids env
  obtain rfl | rfl | rfl | rfl | ⟨-, result, h⟩ := dispatch_cases env cmd id c
  · refine (access_avoids _).bind fun params => Action.avoids_ite ?_ (hwrite _)
    exact (access_avoids _).bind fun first => (access_avoids _).bind fun h =>
      (rpcQuery_avoids _ _).bind fun _ => hwrite _
  · exact (access_avoids _).bind fun params => Action.avoids_ite (hwrite _) (hwrite _)
  · refine (access_avoids _).bind fun params => Action.avoids_ite ?_ (hwrite _)
    exact (access_avoids _).bind fun first => (blob_avoids _).bind fun scriptHash =>
      (onStore_avoids _).bind fun _ => hwrite _
  · exact (access_avoids _).bind fun result => hwrite _
  · rw [h]
    exact hwrite _

theorem handleCommand_avoids (cmd : Json) : AvoidsSslBuf (handleCommand env cmd) := by
  refine Action.avoids_ite (writeInternalJson_avoids env _) ?_
  refine (access_avoids _).bind fun member => (access_avoids _).bind fun method =>
    (access_avoids _).bind fun member => (access_avoids _).bind fun id => ?_
  cases commandMap.lookup method with
  | none => exact writeInternalJson_avoids env _
  | some c => exact dispatch_avoids env cmd id c

theorem appendBuffer_avoids (nread : ℤ) (data : Bytes) :
    AvoidsSslBuf (appendBuffer nread data : ServerM lib ℤ) := by
  intro srv
  simp only [appendBuffer]
  split_ifs <;> simp

theorem mergeBuffer_avoids (buf_len : ℤ) (data : Bytes) :
    AvoidsSslBuf (mergeBuffer buf_len data : ServerM lib (ℤ × Bytes)) := by
  intro srv
  rw [mergeBuffer]
  split_ifs <;> simp

theorem handleLine_avoids (text : Bytes) :
    AvoidsSslBuf (handleLine env text : ServerM lib Bool) := by
  intro srv
  rw [handleLine]
  cases env.parse text with
  | none => simp
  | some req =>
    have h : AvoidsSslBuf (onSession (handleCommand env req) : ServerM lib Unit) :=
      Action.avoids_zoom (handleCommand_avoids env req)
    have hs := h { srv with commands := srv.commands ++ [req] }
    rcases heq : (onSession (handleCommand env req) : ServerM lib Unit)
        { srv with commands := srv.commands ++ [req] } with ⟨e | ⟨⟩, srv'⟩
    · rw [heq] at hs
      cases e with
      | json => simp [heq]
      | stream | assertion | null | blocked =>
        simp only [heq]
        exact fun h => hs (congrArg Except.error (Except.error.inj h))
    · simp [heq]

theorem parseAgain_avoids (nread : ℕ) (buf_len : ℤ) (mem : Bytes) :
    AvoidsSslBuf (parseAgain env nread buf_len mem : ServerM lib ℤ) := by
  induction hlen : mem.length using Nat.strong_induction_on generalizing mem buf_len with
  | _ n ih =>
    rw [parseAgain_eq]
    refine (Action.avoids_update _).bind fun _ => ?_
    split
    · exact appendBuffer_avoids _ _
    · next text rest heq =>
      refine (handleLine_avoids env text).bind fun handled => ?_
      refine Action.avoids_ite (Action.avoids_pure _) (Action.avoids_ite ?_ (Action.avoids_pure _))
      exact ih rest.length (hlen ▸ length_lt_of_strchr heq) _ rest rfl

theorem write_avoids (buf : Bytes) : AvoidsSslBuf (write env buf : ServerM lib ℤ) := by
  refine (Action.avoids_look id).bind fun srv => Action.avoids_ite ?_
    (Action.avoids_ite (fun _ h => by cases h) (Action.avoids_pure _))
  intro srv
  cases hssl : srv.ssl with
  | none =>
    simp [sslCall, hssl]
  | some ctx =>
    have hne := (lib.write ctx buf).run_weaken_ne
      (show ∀ b, AvoidsSslBuf (sendCallback env b : ServerM lib ℤ) from fun b s h => by cases h) srv
    rw [sslCall, hssl]
    rcases heq : (lib.write ctx buf).weaken.run (sendCallback env) srv with ⟨e | ⟨a, ctx'⟩, srv'⟩
    · rw [heq] at hne
      simp only [heq]
      exact fun h => hne (congrArg Except.error (Except.error.inj h))
    · simp [heq]

theorem handleBytes_avoids (r : Read) (buf_len : ℤ) (data : Bytes) :
    AvoidsSslBuf (handleBytes env r buf_len data : ServerM lib ℤ) :=
  (mergeBuffer_avoids _ _).bind fun _ => (Action.avoids_update _).bind fun _ =>
    Action.avoids_ite ((write_avoids env _).bind fun _ => Action.avoids_pure _)
      (parseAgain_avoids env _ _ _)

theorem handleDecrypted_avoids (r : Read) (d : SslRead) :
    AvoidsSslBuf (handleDecrypted env r d : ServerM lib ℤ) := by
  refine Action.avoids_ite (Action.avoids_pure _) (Action.avoids_ite (appendBuffer_avoids _ _) ?_)
  exact handleBytes_avoids env r _ _

/-! ## One read -/

/-- What a read leaves of the libuv buffer. -/
def leftover (r : Read) (srv : JsonRPCServer lib) : Bytes :=
  if srv.has JsonRPCState.START then
    if isTLSClientHello r.base && srv.ssl_config then
      (shake env (srv.hello r) lib.setup r.base).2.bytes
    else []
  else if srv.has JsonRPCState.SSL_NORMAL then
    match srv.ssl with
    | none => []
    | some ctx =>
      if srv.has JsonRPCState.SSL_HANDSHAKE then (shake env (srv.receive r) ctx r.base).2.bytes
      else (decrypt env (srv.receive r) ctx r.base).2.bytes
  else []

/-- An open connection: it has received some bytes, and some of them wait. -/
inductive Open (received : Bytes) : Bytes → JsonRPCServer lib → Prop
  | start {srv : JsonRPCServer lib} (state : srv.state = JsonRPCState.START)
    (ssl_buf : srv.ssl_buf = none) (pulled : srv.pulled = []) (nothing : received = []) :
    Open received [] srv
  | plain {srv : JsonRPCServer lib} (state : srv.state = JsonRPCState.NORMAL)
    (pulled : srv.pulled = []) : Open received [] srv
  | tls {srv : JsonRPCServer lib} {waiting : Bytes} (ctx : lib.Ctx) (state : InTLS srv)
    (ssl : srv.ssl = some ctx)
    (waits : Waits srv.ssl_buf srv.ssl_buf_len srv.ssl_buf_offset waiting)
    (pulled : srv.pulled ++ waiting = received) : Open received waiting srv

/-- What is said of a read: the assertion holds, what was pulled has been received, and if the
connection stays open then these bytes wait. -/
structure HandedOff (received waiting : Bytes) (res : Except Fault ℤ × JsonRPCServer lib) :
    Prop where
  asserts : res.1 ≠ .error (.assertion .sslBuf)
  pulled : res.2.pulled <+: received
  stays : ∀ ret, res.1 = .ok ret → ret ≠ 0 → Open received waiting res.2

/-- A handshake takes what it asks for. -/
theorem tryHandshake_handedOff (hstate : srv.state = shaking) (hssl : srv.ssl = some ctx)
    (hw : Waits srv.ssl_buf srv.ssl_buf_len srv.ssl_buf_offset waiting)
    (hpulled : srv.pulled ++ waiting = received) :
    HandedOff received (shake env srv ctx waiting).2.bytes (tryHandshake env srv) := by
  obtain ⟨srv', ⟨ssl_buf, ssl_buf_len, ssl_buf_offset, hw', rfl⟩, hrun⟩ :=
    tryHandshake_run env hssl hw
  have hreceived : (shake env srv ctx waiting).2.pulled ++ (shake env srv ctx waiting).2.bytes =
      received := (play_received _ _).trans hpulled
  rw [hrun]
  split_ifs
  · refine ⟨nofun, ⟨_, hreceived⟩, fun ret _ _ => .tls _ (.inr ?_) rfl hw' hreceived⟩
    show srv.state ^^^ JsonRPCState.SSL_HANDSHAKE = _
    rw [hstate]
    decide
  · exact ⟨nofun, ⟨_, hreceived⟩, fun ret _ _ => .tls _ (.inl hstate) rfl hw' hreceived⟩
  · exact ⟨nofun, ⟨_, hreceived⟩, fun ret hret hne => absurd (Except.ok.inj hret).symm hne⟩

/-- The part of a TLS connection that belongs to the receive callback. -/
structure AsLeft (srv₀ srv : JsonRPCServer lib) : Prop where
  state : srv.state = srv₀.state
  ssl : srv.ssl.isSome = true
  ssl_buf : srv.ssl_buf = srv₀.ssl_buf
  ssl_buf_len : srv.ssl_buf_len = srv₀.ssl_buf_len
  ssl_buf_offset : srv.ssl_buf_offset = srv₀.ssl_buf_offset
  pulled : srv.pulled = srv₀.pulled

theorem asLeft_keptByParsing (srv₀ : JsonRPCServer lib) : KeptByParsing (AsLeft srv₀) where
  session _ _ _ h := { h with }
  commands _ _ h := { h with }
  searched _ _ h := { h with }
  buffer _ _ _ _ h := { h with }
  ssl _ _ h := { h with ssl := rfl }

/-- A read takes what it asks for. -/
theorem readBuffer_handedOff (hstate : srv.state = JsonRPCState.SSL_NORMAL)
    (hssl : srv.ssl = some ctx)
    (hw : Waits srv.ssl_buf srv.ssl_buf_len srv.ssl_buf_offset waiting)
    (hpulled : srv.pulled ++ waiting = received) :
    HandedOff received (decrypt env srv ctx waiting).2.bytes (readBuffer env r srv) := by
  have htls : InTLS srv := .inr hstate
  obtain ⟨srv', ⟨ssl_buf, ssl_buf_len, ssl_buf_offset, hw', rfl⟩, hrun⟩ :=
    readBuffer_run env htls.has hssl hw
  have hreceived : (decrypt env srv ctx waiting).2.pulled ++
      (decrypt env srv ctx waiting).2.bytes = received := (play_received _ _).trans hpulled
  set srv₁ : JsonRPCServer lib :=
    { srv with
      ssl := some (decrypt env srv ctx waiting).1.2
      ssl_buf, ssl_buf_len, ssl_buf_offset
      pulled := (decrypt env srv ctx waiting).2.pulled
      session := (decrypt env srv ctx waiting).2.session } with hsrv₁
  have hleft := (asLeft_keptByParsing srv₁).handleDecrypted env r
    (decrypt env srv ctx waiting).1.1 srv₁ ⟨rfl, rfl, rfl, rfl, rfl, rfl⟩
  rw [hrun]
  refine ⟨handleDecrypted_avoids env r _ _, ?_, fun ret _ _ => ?_⟩
  · rw [hleft.pulled]
    exact ⟨_, hreceived⟩
  · obtain ⟨ctx', hctx'⟩ := Option.isSome_iff_exists.mp hleft.ssl
    refine .tls ctx' (.inr (hleft.state.trans hstate)) hctx' ?_ ?_
    · rw [hleft.ssl_buf, hleft.ssl_buf_len, hleft.ssl_buf_offset]
      exact hw'
    · rw [hleft.pulled]
      exact hreceived

/-- A connection in plain text has no such buffer. -/
def PlainOpen (srv : JsonRPCServer lib) : Prop :=
  srv.state = JsonRPCState.NORMAL ∧ srv.pulled = []

theorem plainOpen_keptByParsing : KeptByParsing (PlainOpen : JsonRPCServer lib → Prop) where
  session _ _ _ h := h
  commands _ _ h := h
  searched _ _ h := h
  buffer _ _ _ _ h := h
  ssl _ _ h := h

theorem handleRead_plain_handedOff (h : PlainRead r srv) (hr : r.base ≠ [])
    (hpulled : srv.pulled = []) : HandedOff received [] (handleRead env r srv) := by
  rw [handleRead_plain h hr]
  have hopen := plainOpen_keptByParsing.handleBytes env r r.base.length r.base (srv.plain r)
    ⟨rfl, hpulled⟩
  refine ⟨handleBytes_avoids env r _ _ _, ?_, fun ret _ _ => .plain hopen.1 hopen.2⟩
  rw [hopen.2]
  exact List.nil_prefix

theorem leftover_plain (h : PlainRead r srv) : leftover env r srv = [] := by
  obtain h | ⟨h, hhello⟩ := h
  · rw [leftover, has_eq h rfl, has_eq h rfl, if_neg (by decide), if_neg (by decide)]
  · rw [leftover, has_eq h rfl, if_pos (by decide), hhello, Bool.false_and,
      if_neg Bool.false_ne_true]

/-- **A read on an open connection on which nothing waits.** -/
theorem handleRead_open (h : Open received [] srv) (hr : r.base ≠ []) :
    HandedOff (received ++ r.base) (leftover env r srv) (handleRead env r srv) := by
  generalize hnil : ([] : Bytes) = w at h
  cases h with
  | start hstate hbuf hpulled hreceived =>
    by_cases hhello : isTLSClientHello r.base = true
    · have hleft : leftover env r srv = if srv.ssl_config = true then
          (shake env (srv.hello r) lib.setup r.base).2.bytes else [] := by
        rw [leftover, has_eq hstate rfl, if_pos (by decide), hhello, Bool.true_and]
      cases hconfig : srv.ssl_config with
      | true =>
        rw [hleft, hconfig, if_pos rfl, handleRead_hello hstate hbuf hhello hconfig hr]
        refine tryHandshake_handedOff env rfl rfl (waits_receive srv hr) ?_
        show srv.pulled ++ r.base = _
        rw [hpulled, hreceived]
      | false =>
        rw [handleRead_refused hstate hhello hconfig hr]
        refine ⟨nofun, ?_, fun ret hret hne => absurd (Except.ok.inj hret).symm hne⟩
        show srv.pulled <+: _
        rw [hpulled]
        exact List.nil_prefix
    · have hplain : PlainRead r srv := .inr ⟨hstate, Bool.not_eq_true _ ▸ hhello⟩
      rw [leftover_plain env hplain]
      exact handleRead_plain_handedOff env hplain hr hpulled
  | plain hstate hpulled =>
    rw [leftover_plain env (.inl hstate)]
    exact handleRead_plain_handedOff env (.inl hstate) hr hpulled
  | tls ctx hstate hssl hw hpulled =>
    subst hnil
    have hbuf : srv.ssl_buf = none := by
      generalize srv.ssl_buf = b, srv.ssl_buf_len = n, srv.ssl_buf_offset = m at hw
      generalize hnil : ([] : Bytes) = w at hw
      cases hw with
      | nothing => rfl
      | held b offset hlt =>
        rw [eq_comm, List.drop_eq_nil_iff] at hnil
        omega
    rw [List.append_nil] at hpulled
    have hpulled' : (srv.receive r).pulled ++ r.base = received ++ r.base :=
      congrArg (· ++ r.base) hpulled
    have hleft : leftover env r srv = if srv.has JsonRPCState.SSL_HANDSHAKE then
        (shake env (srv.receive r) ctx r.base).2.bytes
        else (decrypt env (srv.receive r) ctx r.base).2.bytes := by
      rw [leftover, hstate.not_start, hstate.has, if_neg Bool.false_ne_true, if_pos rfl, hssl]
    rw [hleft]
    obtain hshaking | hnormal := hstate
    · rw [handleRead_shaking hshaking hbuf hr, has_eq hshaking rfl, if_pos (by decide)]
      exact tryHandshake_handedOff env hshaking hssl (waits_receive srv hr) hpulled'
    · rw [handleRead_decrypts hnormal hbuf hr, has_eq hnormal rfl, if_neg (by decide)]
      exact readBuffer_handedOff env hnormal hssl (waits_receive srv hr) hpulled'

/-- Nothing but an empty queue lets the next read in. -/
theorem waiting_of_read (h : Open received waiting srv) (hr : r.base ≠ [])
    (hasserts : (handleRead env r srv).1 ≠ .error (.assertion .sslBuf)) : waiting = [] := by
  cases h with
  | start => rfl
  | plain => rfl
  | tls ctx hstate hssl hw hpulled =>
    generalize hb : srv.ssl_buf = b, srv.ssl_buf_len = n, srv.ssl_buf_offset = m at hw
    cases hw with
    | nothing => rfl
    | held b offset hlt =>
      rw [handleRead_asserts hstate hb hr] at hasserts
      exact absurd rfl hasserts

/-! ## Whole runs -/

variable {env}

/-- Every read brings bytes to an open connection. -/
def Run (env : Env) (reads : List Read) (srv : JsonRPCServer lib) : Prop :=
  ∀ pre r post, reads = pre ++ r :: post →
    r.base ≠ [] ∧ ∃ srv', serve env pre srv = (.ok true, srv')

theorem Run.of_concat (h : Run env (reads ++ [r]) srv) : Run env reads srv := by
  rintro pre r' post rfl
  exact h pre r' (post ++ [r]) (by simp)

/-- An open connection has pulled what it was sent, but for what waits: that is what the last read
has left. -/
theorem run_open (hrun : Run env reads srv) (h : Open received [] srv)
    (hserve : serve env reads srv = (.ok true, srv')) :
    ∃ waiting, Open (received ++ reads.flatMap Read.base) waiting srv' ∧
      ∀ pre r srv₁, reads = pre ++ [r] → serve env pre srv = (.ok true, srv₁) →
        waiting = leftover env r srv₁ := by
  induction reads using List.reverseRecOn generalizing srv' with
  | nil =>
    obtain rfl := (Prod.mk.inj hserve).2
    refine ⟨[], by simpa using h, fun pre r srv₁ hnil => ?_⟩
    simp at hnil
  | append_singleton reads r ih =>
    obtain ⟨srv₁, ret, hserve₁, hread, hret⟩ := serve_concat_iff.mp hserve
    obtain ⟨waiting, hopen, -⟩ := ih hrun.of_concat hserve₁
    have hr : r.base ≠ [] := (hrun reads r [] rfl).1
    obtain rfl : waiting = [] := waiting_of_read env hopen hr (by rw [hread]; nofun)
    have hstep := handleRead_open env hopen hr
    rw [hread] at hstep
    refine ⟨leftover env r srv₁, ?_, fun pre r' srv₁' heq hserve₁' => ?_⟩
    · rw [List.flatMap_append, ← List.append_assoc, List.flatMap_singleton]
      exact hstep.stays ret rfl hret
    · obtain ⟨rfl, hlast⟩ := List.append_inj' heq rfl
      obtain rfl := List.singleton_inj.mp hlast
      rw [(Prod.mk.inj (hserve₁.symm.trans hserve₁')).2]

theorem open_accepted (lib : Mbedtls) (ssl_config : Bool) (session : Session) :
    Open [] [] (accepted lib ssl_config session) := .start rfl rfl rfl rfl

/-- At every read the assertion holds, and what has been pulled by its end is a prefix of what has
been received. -/
def HandsOff (env : Env) (reads : List Read) (srv : JsonRPCServer lib) : Prop :=
  ∀ pre r post srv', reads = pre ++ r :: post → serve env pre srv = (.ok true, srv') →
    (handleRead env r srv').1 ≠ .error (.assertion .sslBuf) ∧
      (handleRead env r srv').2.pulled <+: (pre ++ [r]).flatMap Read.base

/-- Every read but the last is used up by the call of the library it leads to. -/
def Drains (env : Env) (reads : List Read) (srv : JsonRPCServer lib) : Prop :=
  ∀ pre r r' post srv', reads = pre ++ r :: r' :: post → serve env pre srv = (.ok true, srv') →
    leftover env r srv' = []

/-- **The hand-off of the receive buffer.** In a run of a connection the assertion of `HandleRead`
holds at every read, and the bytes pulled are a prefix of those received, if and only if mbedtls has
asked for all the bytes of every read before the last. -/
theorem handsOff_iff (lib : Mbedtls) (ssl_config : Bool) (session : Session)
    (hrun : Run env reads (accepted lib ssl_config session)) :
    HandsOff env reads (accepted lib ssl_config session) ↔
      Drains env reads (accepted lib ssl_config session) := by
  have hopens : ∀ pre r post srv, reads = pre ++ r :: post →
      serve env pre (accepted lib ssl_config session) = (.ok true, srv) →
      ∃ waiting, Open (pre.flatMap Read.base) waiting srv ∧
        ∀ pre₀ r₀ srv₀, pre = pre₀ ++ [r₀] →
          serve env pre₀ (accepted lib ssl_config session) = (.ok true, srv₀) →
          waiting = leftover env r₀ srv₀ := by
    rintro pre r post srv rfl hserve
    refine run_open ?_ (open_accepted lib ssl_config session) hserve
    rintro pre' r' post' rfl
    exact hrun pre' r' (post' ++ r :: post) (by simp)
  constructor
  · rintro h pre r r' post srv rfl hserve
    have hnext : pre ++ r :: r' :: post = (pre ++ [r]) ++ r' :: post := by simp
    obtain ⟨hr', srv', hserve'⟩ := hrun _ _ _ hnext
    obtain ⟨waiting, hopen, hleft⟩ := hopens _ _ _ _ hnext hserve'
    rw [← hleft pre r srv rfl hserve]
    exact waiting_of_read env hopen hr' (h _ _ _ _ hnext hserve').1
  · rintro h pre r post srv rfl hserve
    obtain ⟨waiting, hopen, hleft⟩ := hopens _ _ _ _ rfl hserve
    have hnil : waiting = [] := by
      induction pre using List.reverseRecOn with
      | nil =>
        obtain rfl := (Prod.mk.inj hserve).2
        cases hopen with
        | start => rfl
        | plain => rfl
        | tls ctx hstate => obtain h | h := hstate <;> exact absurd h (show (1 : ℕ) ≠ _ by decide)
      | append_singleton pre₀ r₀ _ =>
        obtain ⟨srv₀, ret, hserve₀, -, -⟩ := serve_concat_iff.mp hserve
        rw [hleft pre₀ r₀ srv₀ rfl hserve₀]
        exact h pre₀ r₀ r post srv₀ (by simp) hserve₀
    subst hnil
    have hstep := handleRead_open env hopen (hrun pre r post rfl).1
    rw [List.flatMap_append, List.flatMap_singleton]
    exact ⟨hstep.asserts, hstep.pulled⟩

theorem serve_prefix {pre post : List Read} (h : serve env (pre ++ post) srv = (.ok true, srv')) :
    ∃ srv₁, serve env pre srv = (.ok true, srv₁) := by
  induction pre generalizing srv with
  | nil => exact ⟨srv, rfl⟩
  | cons r pre ih =>
    obtain ⟨ret, srv₁, hread, hret, h⟩ := serve_cons_iff.mp h
    obtain ⟨srv₂, hserve⟩ := ih h
    exact ⟨srv₂, serve_cons_iff.mpr ⟨ret, srv₁, hread, hret, hserve⟩⟩

/-- The reads that an open connection has served, and one more, are a run. -/
theorem run_concat (hserve : serve env reads srv = (.ok true, srv'))
    (hne : ∀ r' ∈ reads ++ [r], r'.base ≠ []) : Run env (reads ++ [r]) srv := by
  intro pre r' post heq
  refine ⟨hne r' (by rw [heq]; simp), ?_⟩
  obtain ⟨mid, rfl⟩ : pre <+: reads := by
    refine List.prefix_of_prefix_length_le ⟨r' :: post, heq.symm⟩ ⟨[r], rfl⟩ ?_
    have := congrArg List.length heq
    simp at this
    omega
  exact serve_prefix hserve

/-- The two reads of a handshake. -/
def helloRead : Read := .ofBytes (NullCipher.record 0x16 [1])

def finishedRead : Read := .ofBytes (NullCipher.record 0x16 [2])

/-- A handshake hands off its reads. -/
theorem handsOff_handshake :
    HandsOff pingEnv [helloRead, finishedRead] (accepted nullCipher true .fresh) := by
  have hrun : Run pingEnv [helloRead, finishedRead] (accepted nullCipher true .fresh) :=
    run_concat (show serve pingEnv [helloRead] _ = (.ok true, _) from rfl) (by decide)
  refine (handsOff_iff nullCipher true .fresh hrun).mpr ?_
  rintro pre r r' post srv heq hserve
  obtain rfl : pre = [] := by
    have := congrArg List.length heq
    simp at this
    exact List.length_eq_zero_iff.mp (by omega)
  obtain ⟨rfl, -⟩ := List.cons.inj heq
  obtain rfl := serve_nil_iff.mp hserve
  rfl

/-- The last record of the handshake, with a record behind it. -/
def earlyRead : Read := .ofBytes (NullCipher.record 0x16 [2] ++ NullCipher.record 0x17 pingText)

/-- Then the next read fails the assertion. -/
theorem not_handsOff : ¬ ∀ reads, Run pingEnv reads (accepted nullCipher true .fresh) →
    HandsOff pingEnv reads (accepted nullCipher true .fresh) := by
  intro h
  obtain ⟨srv, hserve, hstate, b, hbuf⟩ : ∃ srv,
      serve pingEnv [helloRead, earlyRead] (accepted nullCipher true .fresh) = (.ok true, srv) ∧
        srv.state = JsonRPCState.SSL_NORMAL ∧ ∃ b, srv.ssl_buf = some b := ⟨_, rfl, rfl, _, rfl⟩
  have hrun : Run pingEnv ([helloRead, earlyRead] ++ [helloRead])
      (accepted nullCipher true .fresh) := run_concat hserve (by decide)
  have hread : handleRead pingEnv helloRead srv = (.error (.assertion .sslBuf), _) :=
    handleRead_asserts (.inr hstate) hbuf (by decide)
  refine (h _ hrun [helloRead, earlyRead] helloRead [] srv rfl hserve).1 ?_
  rw [hread]

end ElectrumZ.Net
