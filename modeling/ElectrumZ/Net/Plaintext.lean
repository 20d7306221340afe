import ElectrumZ.Net.HandOff
import ElectrumZ.Net.NullCipher

/-!
# Plain text on a TLS connection

A response is written straight to the socket, in TLS mode too; everything else goes through mbedtls
there.

* `parseAgain_unanswered`, `parseAgain_answered`: the loop over the lines writes nothing, or a
  response in clear, and the first line tells which.
* `handleRead_sealed`, `handleRead_leaks`: so a read keeps a TLS connection sealed, unless the
  first line it completes is a command that is answered.
* `sealed_iff`: and a run is sealed if and only if no read of it does that.
-/

namespace ElectrumZ.Net

open Foundations Blockchain Commands JsonRPCServer

variable {lib : Mbedtls} {env : Env} {r : Read} {srv srv' : JsonRPCServer lib} {s : Session}
  {ctx : lib.Ctx} {waiting mem text rest : Bytes} {reads : List Read} {v : Json} {nread : ℕ}
  {buf_len : ℤ}

/-! ## The first line -/

/-- A session on which nothing has happened. -/
def Session.opened (store : Store) (rpc : RpcLink) : Session := ⟨store, rpc, [], []⟩

/-- What is answered depends on the database and the node. -/
theorem answerable_congr (h : MetBy r s) :
    Answerable env s v ↔ Answerable env (.opened r.store r.rpc) v := by
  obtain ⟨store, rpc, queries, wire⟩ := s
  obtain ⟨rfl, rfl⟩ : store = r.store ∧ rpc = r.rpc := h
  rfl

theorem handles_of_answerable (h : Answerable env (.opened r.store r.rpc) v) : Handles env r v := by
  intro s hs
  obtain ⟨id, queries, rsp, hrun, -⟩ :=
    handleCommand_responds env ((answerable_congr hs).mpr h)
  rw [hrun]

/-- The first line of the memory is a command that is answered. -/
def FirstAnswered (env : Env) (s : Session) (mem : Bytes) : Prop :=
  ∃ text rest v, strchr JSONRPC_DELIM mem = some (text, rest) ∧ env.parse text = some v ∧
    Answerable env s v

theorem handleLine_unanswered (h : ∀ v, env.parse text = some v → ¬ Answerable env srv.session v) :
    (handleLine env text srv).1 ≠ .ok true ∧
      (handleLine env text srv).2.session.wire = srv.session.wire := by
  rw [handleLine]
  cases hparse : env.parse text with
  | none => exact ⟨by simp, rfl⟩
  | some v =>
    obtain ⟨e, ⟨s', hrun, hwire⟩, -⟩ := handleCommand_fails env (h v hparse)
    simp only [onSession, Action.zoom, hrun]
    cases e <;> exact ⟨by simp, hwire⟩

/-- Another first line ends the loop before anything is written. -/
theorem parseAgain_unanswered (h : ¬ FirstAnswered env srv.session mem) :
    (parseAgain env nread buf_len mem srv).2.session.wire = srv.session.wire := by
  cases hstr : strchr JSONRPC_DELIM mem with
  | none =>
    rw [parseAgain_none hstr]
    simp only [appendBuffer]
    split_ifs <;> rfl
  | some found =>
    obtain ⟨text, rest⟩ := found
    rw [parseAgain_some hstr]
    have hfirst (v : Json) (hparse : env.parse text = some v) :
        ¬ Answerable env (srv.searched mem buf_len).session v :=
      fun hv => h ⟨text, rest, v, hstr, hparse, hv⟩
    obtain ⟨hok, hwire⟩ := handleLine_unanswered hfirst
    rcases hline : handleLine env text (srv.searched mem buf_len) with ⟨e | handled, srv₁⟩ <;>
      rw [hline] at hok hwire
    · rw [Action.bind_of_error hline]
      exact hwire
    · obtain rfl : handled = false := Bool.eq_false_iff.mpr fun h => hok (congrArg _ h)
      rw [Action.bind_of_ok hline, if_pos rfl]
      exact hwire

/-- Something was written past mbedtls in TLS mode. -/
def Leaked (srv : JsonRPCServer lib) : Prop :=
  srv.state = JsonRPCState.SSL_NORMAL ∧ ∃ w ∈ srv.session.wire, w.source ≠ .bio

theorem leaked_keptByParsing : KeptByParsing (Leaked : JsonRPCServer lib → Prop) where
  session _ _ hwire h := ⟨h.1, h.2.imp fun _ hw => ⟨hwire.subset hw.1, hw.2⟩⟩
  commands _ _ h := h
  searched _ _ h := h
  buffer _ _ _ _ h := h
  ssl _ _ h := h

/-- An answered first line is answered in clear. -/
theorem parseAgain_answered (hstate : srv.state = JsonRPCState.SSL_NORMAL)
    (h : FirstAnswered env srv.session mem) : Leaked (parseAgain env nread buf_len mem srv).2 := by
  obtain ⟨text, rest, v, hstr, hparse, hv⟩ := h
  obtain ⟨id, queries, rsp, hrun, -⟩ := handleCommand_responds env hv
  have hline : handleLine env text (srv.searched mem buf_len) =
      (.ok true, { srv.searched mem buf_len with
        commands := srv.commands ++ [v]
        session := ({ srv.session with queries } : Session).written env rsp }) := by
    rw [handleLine, hparse]
    simp only [onSession, Action.zoom, JsonRPCServer.searched, hrun]
  rw [parseAgain_some hstr, Action.bind_of_ok hline, if_neg (by decide)]
  refine Action.keeps_ite (leaked_keptByParsing.parseAgain _ _ _ _) (Action.keeps_pure _) _ ?_
  refine ⟨hstate, _, List.mem_append_right _ List.mem_cons_self, by simp⟩

/-! ## One read -/

/-- Decrypted bytes are searched. The second case is an error code that is taken for a length. -/
def Searched (d : SslRead) (srv : JsonRPCServer lib) : Prop :=
  0 < d.code ∨ d.code = MBEDTLS_ERR_SSL_WANT_WRITE ∧ srv.offset = 0

/-- The memory that is searched. -/
def JsonRPCServer.memory (srv : JsonRPCServer lib) (d : SslRead) (r : Read) : Bytes :=
  srv.kept ++ d.data ++ r.after

/-- In the search, only the place of what was kept and the record of the search change. -/
theorem handleDecrypted_searched {d : SslRead} (h : Searched d srv) :
    ∃ buf_len offset overread, handleDecrypted env r d srv =
      (if GET <+: srv.memory d r then do
        let _ ← write env http_rsp
        return 1
      else parseAgain env r.base.length buf_len (srv.memory d r))
        { srv with offset, overread } := by
  have hcode : ¬ (d.code = 0 ∨ d.code < 0 ∧ d.code ≠ MBEDTLS_ERR_SSL_WANT_READ ∧
      d.code ≠ MBEDTLS_ERR_SSL_WANT_WRITE) ∧ ¬ d.code = MBEDTLS_ERR_SSL_WANT_READ := by
    obtain h | ⟨h, -⟩ := h <;>
      simp only [h, MBEDTLS_ERR_SSL_WANT_READ, MBEDTLS_ERR_SSL_WANT_WRITE] <;> omega
  rw [handleDecrypted, if_neg hcode.1, if_neg hcode.2, handleBytes]
  by_cases hoffset : srv.offset = 0
  · have hmerge : mergeBuffer d.code d.data srv = (.ok (d.code, d.data), srv) := by
      rw [mergeBuffer, if_pos hoffset]
    have hkept : srv.kept = [] := by rw [kept, hoffset, List.take_zero]
    refine ⟨d.code, srv.offset,
      srv.overread || decide (d.code < strstrScan (d.data ++ r.after)), ?_⟩
    rw [Action.bind_of_ok hmerge, memory, hkept, List.nil_append]
    rfl
  · have hpos : 0 < d.code := h.resolve_right fun h => hoffset h.2
    have hmerge : mergeBuffer d.code d.data srv =
        (.ok (d.code + srv.offset, srv.kept ++ d.data), { srv with offset := 0 }) := by
      rw [mergeBuffer, if_neg hoffset, if_neg (by omega)]
      rfl
    refine ⟨d.code + srv.offset, 0,
      srv.overread || decide (d.code + srv.offset < strstrScan (srv.memory d r)), ?_⟩
    rw [Action.bind_of_ok hmerge]
    rfl

/-- Everything else writes nothing. -/
theorem handleDecrypted_unsearched {d : SslRead} (h : ¬ Searched d srv) :
    (handleDecrypted env r d srv).2.session.wire = srv.session.wire := by
  simp only [Searched, not_or, not_and] at h
  rw [handleDecrypted]
  split_ifs with hfatal hwant
  · rfl
  · simp only [appendBuffer]
    split_ifs <;> rfl
  · -- the copy behind what was kept goes astray
    have hcode : d.code = MBEDTLS_ERR_SSL_WANT_WRITE := by
      by_contra hne
      exact hfatal (.inr ⟨by omega, hwant, hne⟩)
    have hneg : d.code < 0 := hcode ▸ by decide
    have hmerge : mergeBuffer d.code d.data srv = (.error .null, srv) := by
      rw [mergeBuffer, if_neg (h.2 hcode), if_pos hneg]
    rw [handleBytes, Action.bind_of_error hmerge]

/-- Nothing has been written past mbedtls. -/
def SealedTLS (srv : JsonRPCServer lib) : Prop :=
  srv.state = JsonRPCState.SSL_NORMAL ∧ srv.session.Sealed

theorem keeps_write_sealed (env : Env) (buf : Bytes) :
    Action.Keeps (SealedTLS : JsonRPCServer lib → Prop) (write env buf) := by
  intro srv h
  rw [write, Action.bind_of_ok (Action.run_look _ _), id, has_eq h.1 rfl, if_pos (by decide)]
  cases hssl : srv.ssl with
  | none =>
    rw [sslCall, hssl]
    exact h
  | some ctx =>
    have hrun : SealedTLS ((lib.write ctx buf).weaken.run (sendCallback env) srv).2 :=
      Dialog.run_invariant (fun buf srv h => ⟨h.1, sealed_append h.2 buf⟩) _ h
    rw [sslCall, hssl]
    rcases heq : (lib.write ctx buf).weaken.run (sendCallback env) srv with
      ⟨e | ⟨a, ctx'⟩, srv'⟩ <;> rw [heq] at hrun
    · simpa only [heq] using hrun
    · simp only [heq]
      exact hrun

/-- The read makes the server answer a command in TLS mode: the first line of what was kept and
what it has decrypted, with what memory holds behind, is a command that is answered. -/
def Leaks (env : Env) (r : Read) (srv : JsonRPCServer lib) : Prop :=
  r.base ≠ [] ∧ srv.state = JsonRPCState.SSL_NORMAL ∧ srv.ssl_buf = none ∧
    ∃ ctx d, srv.ssl = some ctx ∧ (decrypt env (srv.receive r) ctx r.base).1.1 = d ∧
      Searched d srv ∧ ¬ GET <+: srv.memory d r ∧
      FirstAnswered env (.opened r.store r.rpc) (srv.memory d r)

theorem firstAnswered_congr (h : MetBy r s) :
    FirstAnswered env s mem ↔ FirstAnswered env (.opened r.store r.rpc) mem := by
  simp only [FirstAnswered, answerable_congr h]

/-- The server after the library has decrypted what it was given. -/
theorem handleRead_decrypted (env : Env) (hr : r.base ≠ [])
    (hstate : srv.state = JsonRPCState.SSL_NORMAL) (hbuf : srv.ssl_buf = none)
    (hssl : srv.ssl = some ctx) :
    ∃ srv₁ : JsonRPCServer lib,
      handleRead env r srv = handleDecrypted env r
        (decrypt env (srv.receive r) ctx r.base).1.1 srv₁ ∧
      srv₁.state = JsonRPCState.SSL_NORMAL ∧ srv₁.ssl.isSome = true ∧
      srv₁.offset = srv.offset ∧ srv₁.kept = srv.kept ∧
      srv₁.session = (decrypt env (srv.receive r) ctx r.base).2.session ∧
      srv₁.commands = srv.commands := by
  have hstate' : (srv.receive r).has JsonRPCState.SSL_NORMAL = true := has_eq hstate (by decide)
  obtain ⟨srv₁, ⟨ssl_buf, ssl_buf_len, ssl_buf_offset, -, rfl⟩, hrun⟩ :=
    readBuffer_run env hstate' hssl (waits_receive srv hr)
  exact ⟨_, (handleRead_decrypts hstate hbuf hr).trans hrun, hstate, rfl, rfl, rfl, rfl, rfl⟩

/-- **A read that completes such a line leaks.** -/
theorem handleRead_leaks (h : Leaks env r srv) : Leaked (handleRead env r srv).2 := by
  obtain ⟨hr, hstate, hbuf, ctx, d, hssl, rfl, hsearched, hget, hfirst⟩ := h
  obtain ⟨srv₁, hrun, hstate₁, -, hoffset, hkept, hsession, -⟩ :=
    handleRead_decrypted env hr hstate hbuf hssl
  have hmet : MetBy r srv₁.session := hsession ▸ play_metBy _ ⟨rfl, rfl⟩
  have hmemory : srv₁.memory (decrypt env (srv.receive r) ctx r.base).1.1 r =
      srv.memory (decrypt env (srv.receive r) ctx r.base).1.1 r := by rw [memory, hkept, memory]
  have hsearched₁ : Searched (decrypt env (srv.receive r) ctx r.base).1.1 srv₁ := by
    rwa [Searched, hoffset]
  obtain ⟨buf_len, offset, overread, hsearch⟩ := handleDecrypted_searched hsearched₁
  rw [hrun, hsearch, hmemory, if_neg hget]
  exact parseAgain_answered hstate₁ ((firstAnswered_congr hmet).mpr hfirst)

/-- An open connection. In TLS mode it has written nothing past mbedtls. -/
inductive Quiet (srv : JsonRPCServer lib) : Prop
  | start (state : srv.state = JsonRPCState.START) (ssl_buf : srv.ssl_buf = none)
    (wire : srv.session.wire = [])
  | plain (state : srv.state = JsonRPCState.NORMAL)
  | tls (state : InTLS srv) (ssl : srv.ssl.isSome = true) (quiet : srv.session.Sealed)

/-- What is said of a read: in TLS mode nothing has been written past mbedtls, and if the connection
stays open then this goes on. -/
structure KeepsQuiet (res : Except Fault ℤ × JsonRPCServer lib) : Prop where
  quiet : res.2.has JsonRPCState.SSL_NORMAL = true → res.2.session.Sealed
  stays : ∀ ret, res.1 = .ok ret → ret ≠ 0 → Quiet res.2

theorem keepsQuiet_of_normal {res : Except Fault ℤ × JsonRPCServer lib}
    (h : res.2.state = JsonRPCState.NORMAL) : KeepsQuiet res where
  quiet hhas := absurd (hhas.symm.trans (has_eq h rfl)) (by decide)
  stays _ _ _ := .plain h

theorem keepsQuiet_of_tls {res : Except Fault ℤ × JsonRPCServer lib} (hstate : InTLS res.2)
    (hssl : res.2.ssl.isSome = true) (h : res.2.session.Sealed) : KeepsQuiet res where
  quiet _ := h
  stays _ _ _ := .tls hstate hssl h

theorem tryHandshake_quiet (hstate : srv.state = shaking) (hssl : srv.ssl = some ctx)
    (hw : Waits srv.ssl_buf srv.ssl_buf_len srv.ssl_buf_offset waiting)
    (h : srv.session.Sealed) : KeepsQuiet (tryHandshake env srv) := by
  obtain ⟨srv', ⟨ssl_buf, ssl_buf_len, ssl_buf_offset, -, rfl⟩, hrun⟩ :=
    tryHandshake_run env hssl hw
  have hsealed : (shake env srv ctx waiting).2.session.Sealed := play_sealed _ h
  rw [hrun]
  split_ifs
  · refine keepsQuiet_of_tls (.inr ?_) rfl hsealed
    show srv.state ^^^ JsonRPCState.SSL_HANDSHAKE = _
    rw [hstate]
    decide
  · exact keepsQuiet_of_tls (.inl hstate) rfl hsealed
  · exact keepsQuiet_of_tls (.inl hstate) rfl hsealed

/-- A read that completes no such line decrypts in silence. -/
theorem handleRead_decrypts_quiet (hr : r.base ≠ [])
    (hstate : srv.state = JsonRPCState.SSL_NORMAL) (hbuf : srv.ssl_buf = none)
    (hssl : srv.ssl = some ctx) (h : srv.session.Sealed) (hleak : ¬ Leaks env r srv) :
    KeepsQuiet (handleRead env r srv) := by
  obtain ⟨srv₁, hrun, hstate₁, hssl₁, hoffset, hkept, hsession, -⟩ :=
    handleRead_decrypted env hr hstate hbuf hssl
  have hmet : MetBy r srv₁.session := hsession ▸ play_metBy _ ⟨rfl, rfl⟩
  have hsealed : srv₁.session.Sealed := hsession ▸ play_sealed _ h
  set d := (decrypt env (srv.receive r) ctx r.base).1.1 with hd
  have hmemory : srv₁.memory d r = srv.memory d r := by rw [memory, hkept, memory]
  have hleft := (asLeft_keptByParsing srv₁).handleDecrypted env r d srv₁
    ⟨rfl, hssl₁, rfl, rfl, rfl, rfl⟩
  rw [hrun]
  refine keepsQuiet_of_tls (.inr (hleft.state.trans hstate₁)) hleft.ssl ?_
  by_cases hsearched : Searched d srv₁
  · obtain ⟨buf_len, offset, overread, hsearch⟩ := handleDecrypted_searched hsearched
    rw [hsearch]
    split_ifs with hget
    · exact (((keeps_write_sealed env http_rsp).bind fun _ => Action.keeps_pure (1 : ℤ))
        { srv₁ with offset, overread } ⟨hstate₁, hsealed⟩).2
    · have hfirst : ¬ FirstAnswered env srv₁.session (srv₁.memory d r) := by
        rw [firstAnswered_congr hmet, hmemory]
        rw [hmemory] at hget
        refine fun hfirst => hleak ⟨hr, hstate, hbuf, ctx, d, hssl, rfl, ?_, hget, hfirst⟩
        rwa [Searched, ← hoffset]
      have hwire : (parseAgain env r.base.length buf_len (srv₁.memory d r)
          { srv₁ with offset, overread }).2.session.wire = srv₁.session.wire :=
        parseAgain_unanswered hfirst
      rw [Session.Sealed, hwire]
      exact hsealed
  · rw [Session.Sealed, handleDecrypted_unsearched hsearched]
    exact hsealed

/-- **Any other read leaves the connection quiet.** -/
theorem handleRead_quiet (h : Quiet srv) (hleak : ¬ Leaks env r srv) :
    KeepsQuiet (handleRead env r srv) := by
  by_cases hr : r.base = []
  · have hread : handleRead env r srv = (.ok 0, srv.meet r) := by
      rw [handleRead, Action.bind_of_ok (Action.run_update _ _), if_pos hr]
      rfl
    rw [hread]
    refine ⟨fun hhas => ?_, fun ret hret hne => absurd (Except.ok.inj hret).symm hne⟩
    cases h with
    | start hstate => exact absurd (hhas.symm.trans (has_eq hstate rfl)) (by decide)
    | plain hstate => exact absurd (hhas.symm.trans (has_eq hstate rfl)) (by decide)
    | tls _ _ hsealed => exact hsealed
  have hplain (h : PlainRead r srv) : KeepsQuiet (handleRead env r srv) := by
    rw [handleRead_plain h hr]
    refine keepsQuiet_of_normal ?_
    exact (state_keptByParsing _).handleBytes env r _ _ (srv.plain r) rfl
  cases h with
  | start hstate hbuf hwire =>
    by_cases hhello : isTLSClientHello r.base = true
    · cases hconfig : srv.ssl_config with
      | true =>
        rw [handleRead_hello hstate hbuf hhello hconfig hr]
        refine tryHandshake_quiet rfl rfl (waits_receive srv hr) fun w hw => ?_
        exact absurd (hwire ▸ hw) List.not_mem_nil
      | false =>
        rw [handleRead_refused hstate hhello hconfig hr]
        exact ⟨fun hhas => absurd hhas (by decide : ¬ (0 &&& _ != 0) = true),
          fun ret hret hne => absurd (Except.ok.inj hret).symm hne⟩
    · exact hplain (.inr ⟨hstate, Bool.not_eq_true _ ▸ hhello⟩)
  | plain hstate => exact hplain (.inl hstate)
  | tls hstate hssl hsealed =>
    obtain ⟨ctx, hssl⟩ := Option.isSome_iff_exists.mp hssl
    cases hbuf : srv.ssl_buf with
    | some b =>
      rw [handleRead_asserts hstate hbuf hr]
      exact ⟨fun _ => hsealed, by simp⟩
    | none =>
      obtain hshaking | hnormal := hstate
      · rw [handleRead_shaking hshaking hbuf hr]
        exact tryHandshake_quiet hshaking hssl (waits_receive srv hr) hsealed
      · exact handleRead_decrypts_quiet hr hnormal hbuf hssl hsealed hleak

/-! ## Whole runs -/

/-- In every state after a read in which the connection is in TLS mode, every write so far was one
that the send callback was asked for. -/
def SealedRun (env : Env) (reads : List Read) (srv : JsonRPCServer lib) : Prop :=
  ∀ pre r post srv', reads = pre ++ r :: post → serve env pre srv = (.ok true, srv') →
    (handleRead env r srv').2.has JsonRPCState.SSL_NORMAL = true →
      (handleRead env r srv').2.session.Sealed

theorem quiet_of_serve (hleak : ∀ pre r post srv₁, reads = pre ++ r :: post →
      serve env pre srv = (.ok true, srv₁) → ¬ Leaks env r srv₁)
    (h : Quiet srv) (hserve : serve env reads srv = (.ok true, srv')) : Quiet srv' := by
  induction reads generalizing srv with
  | nil => exact serve_nil_iff.mp hserve ▸ h
  | cons r reads ih =>
    obtain ⟨ret, srv₁, hread, hret, hserve⟩ := serve_cons_iff.mp hserve
    have hstep := handleRead_quiet h (hleak [] r reads srv rfl rfl)
    rw [hread] at hstep
    refine ih ?_ (hstep.stays ret rfl hret) hserve
    rintro pre r' post srv₂ rfl hserve₂
    exact hleak (r :: pre) r' post srv₂ rfl (serve_cons_iff.mpr ⟨ret, srv₁, hread, hret, hserve₂⟩)

/-- **No plain text on a TLS connection, if and only if** no read completes a first line that is a
command that is answered. -/
theorem sealed_iff (env : Env) (lib : Mbedtls) (ssl_config : Bool) (store : Store) (rpc : RpcLink)
    (reads : List Read) : SealedRun env reads (accepted lib ssl_config (.opened store rpc)) ↔
      ∀ pre r post srv, reads = pre ++ r :: post →
        serve env pre (accepted lib ssl_config (.opened store rpc)) = (.ok true, srv) →
        ¬ Leaks env r srv := by
  constructor
  · intro h pre r post srv heq hserve hleaks
    obtain ⟨hstate, w, hw, hsource⟩ := handleRead_leaks hleaks
    exact hsource (h pre r post srv heq hserve (has_eq hstate (by decide)) w hw)
  · intro h pre r post srv heq hserve
    refine (handleRead_quiet (quiet_of_serve ?_ (.start rfl rfl rfl) hserve)
      (h pre r post srv heq hserve)).quiet
    rintro pre' r' post' srv' rfl
    exact h pre' r' (post' ++ r :: post) srv' (by rw [heq]; simp)

/-- A ping, in a record of its own. -/
def pingRead : Read := .ofBytes (NullCipher.record 0x17 (pingText ++ [JSONRPC_DELIM]))

/-- A ping over TLS is answered in clear. -/
theorem not_sealed : ¬ ∀ reads, SealedRun pingEnv reads (accepted nullCipher true .fresh) := by
  intro h
  obtain ⟨srv, hserve, hstate, hbuf, hssl, hkept⟩ : ∃ srv,
      serve pingEnv [helloRead, finishedRead] (accepted nullCipher true .fresh) =
        (.ok true, srv) ∧ srv.state = JsonRPCState.SSL_NORMAL ∧ srv.ssl_buf = none ∧
        srv.ssl = some ⟨0, [], []⟩ ∧ srv.kept = [] := ⟨_, rfl, rfl, rfl, rfl, rfl⟩
  have hrequest : Request pingEnv (bareRequest "server.ping" 1) "server.ping" 1 .null :=
    ⟨rfl, ⟨_, rfl, rfl⟩, rfl⟩
  have hanswerable : Answerable pingEnv (.opened .fresh .absent) (bareRequest "server.ping" 1) := by
    refine .inr ⟨_, _, _, hrequest, fun c hc => ?_⟩
    obtain rfl : c = .svPing := by
      have h : commandMap.lookup "server.ping" = some .svPing := by decide
      simpa [h] using hc.symm
    trivial
  have hbase : pingRead.base = NullCipher.record 0x17 (pingText ++ [JSONRPC_DELIM]) ++ [] :=
    (List.append_nil (NullCipher.record 0x17 (pingText ++ [JSONRPC_DELIM]))).symm
  have hdecrypt : (decrypt pingEnv (srv.receive pingRead)
      (⟨0, [], []⟩ : NullCipher.Ctx) pingRead.base).1.1 =
      .ofData (pingText ++ [JSONRPC_DELIM]) :=
    NullCipher.decrypt_record pingEnv (srv.receive pingRead) hbase 0 (by decide)
      (show (pingText ++ [JSONRPC_DELIM]).length ≤ pingRead.base.length by decide)
  have hleaks : Leaks pingEnv pingRead srv := by
    refine ⟨by decide, hstate, hbuf, _, _, hssl, hdecrypt,
      .inl (SslRead.ofData_pos (by simp)), ?_, ?_⟩
    · rw [memory, hkept]
      decide
    · rw [memory, hkept]
      exact ⟨pingText, [], _, rfl, rfl, hanswerable⟩
  obtain ⟨hstate', w, hw, hsource⟩ := handleRead_leaks hleaks
  exact hsource (h [helloRead, finishedRead, pingRead] [helloRead, finishedRead] pingRead [] srv
    rfl hserve (has_eq hstate' (by decide)) w hw)

end ElectrumZ.Net
