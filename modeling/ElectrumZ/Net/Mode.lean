import ElectrumZ.Net.HandOff

/-!
# The mode of a connection

The flag word of a connection goes through phases. It is changed by toggling flags, in functions
that each assume what it was before, so that a read has to be shown to make one step between them.

* `handleRead_first_leads`, `handleRead_leads`: it does, however the read ends.
* `serve_lawful`: so the flags of an open connection obey their law throughout a run.
* `serve_mode`: the mode is decided by what the first read looks like.
* `arrives_iff`: two segmentations of a stream lead to the mode that its first five bytes tell if
  and only if the first read holds five bytes, or the stream does not begin like a handshake.
-/

namespace ElectrumZ.Net

open Foundations JsonRPCServer

variable {lib : Mbedtls} {env : Env} {r : Read} {srv srv' : JsonRPCServer lib} {reads : List Read}

/-! ## Phases -/

/-- The phases of an open connection. -/
inductive Phase
  | start
  | plain
  | shaking
  | secured

namespace Phase

/-- The flag word of a phase. -/
def word : Phase → ℕ
  | start => JsonRPCState.START
  | plain => JsonRPCState.NORMAL
  | shaking => JsonRPCServer.shaking
  | secured => JsonRPCState.SSL_NORMAL

/-- What one read, or several, can make of a phase. -/
inductive Leads : Phase → Phase → Prop
  | text : Leads start plain
  | hello : Leads start shaking
  | greeted : Leads start secured
  | plain : Leads plain plain
  | waits : Leads shaking shaking
  | shaken : Leads shaking secured
  | secured : Leads secured secured

variable {p q s : Phase}

theorem Leads.trans (h : Leads p q) (h' : Leads q s) : Leads p s := by
  cases h <;> cases h' <;> constructor

/-- Every phase but the first can stay. -/
theorem leads_self (h : p ≠ start) : Leads p p := by
  cases p with
  | start => exact absurd rfl h
  | plain => exact .plain
  | shaking => exact .waits
  | secured => exact .secured

theorem Leads.ne_start (h : Leads p q) : q ≠ start := by
  cases h <;> nofun

end Phase

/-- The flag word is that of the phase. -/
def InPhase (srv : JsonRPCServer lib) (p : Phase) : Prop := srv.state = p.word

/-! ## What leaves the flags alone -/

theorem bio_state (env : Env) (c : Bio) (srv : JsonRPCServer lib) :
    (bio env c srv).2.state = srv.state := by
  cases c with
  | recv len =>
    show (recvCallback len srv).2.state = srv.state
    unfold recvCallback
    split
    · rfl
    · split
      · rfl
      · simp only
        split_ifs <;> rfl
  | send buf => rfl

theorem sslCall_state {α : Type} (env : Env) (f : lib.Ctx → SslCall (α × lib.Ctx))
    (srv : JsonRPCServer lib) : (sslCall (bio env) f srv).2.state = srv.state := by
  cases hssl : srv.ssl with
  | none => simp only [sslCall, hssl]
  | some ctx =>
    have hrun : ((f ctx).weaken.run (bio env) srv).2.state = srv.state :=
      Dialog.run_invariant (h := bio env) (I := fun srv' => srv'.state = srv.state)
        (fun c srv' h => (bio_state env c srv').trans h) (f ctx).weaken rfl
    rcases heq : (f ctx).weaken.run (bio env) srv with ⟨e | ⟨a, ctx'⟩, srv'⟩ <;> rw [heq] at hrun
    · simpa only [sslCall, hssl, heq] using hrun
    · simpa only [sslCall, hssl, heq] using hrun

/-! ## One read -/

/-- The handshake only ever takes its own flag away. -/
theorem tryHandshake_leads (env : Env) (h : InPhase srv .shaking) :
    ∃ p, Phase.Leads .shaking p ∧ InPhase (tryHandshake env srv).2 p := by
  have hcall := sslCall_state env lib.handshake srv
  rw [tryHandshake, Action.bind_eq]
  rcases heq : sslCall (bio env) lib.handshake srv with ⟨e | hsr, srv'⟩ <;> rw [heq] at hcall
  · exact ⟨.shaking, .waits, hcall.trans h⟩
  · simp only
    split_ifs
    · refine ⟨.secured, .shaken, ?_⟩
      show srv'.state ^^^ JsonRPCState.SSL_HANDSHAKE = _
      rw [hcall, h]
      decide
    · exact ⟨.shaking, .waits, hcall.trans h⟩
    · exact ⟨.shaking, .waits, hcall.trans h⟩

/-- Reading what mbedtls has decrypted does not change the flags. -/
theorem readBuffer_state (env : Env) (r : Read) (srv : JsonRPCServer lib) :
    (readBuffer env r srv).2.state = srv.state := by
  have hkept : KeptByParsing fun srv' : JsonRPCServer lib => srv'.state = srv.state :=
    state_keptByParsing srv.state
  cases hhas : srv.has JsonRPCState.SSL_NORMAL with
  | false =>
    rw [readBuffer_plain hhas]
    exact hkept.handleBytes env r _ _ srv rfl
  | true =>
    have hcall := sslCall_state env (fun ctx => lib.read ctx (readLen srv.ssl_buf_len)) srv
    rw [readBuffer, Action.bind_of_ok (Action.run_look _ _), id, hhas, if_pos rfl]
    exact Action.Keeps.bind (fun srv' h => (sslCall_state env _ srv').trans h)
      (fun d => hkept.handleDecrypted env r d) srv rfl

/-- **A read makes one step** once the mode is decided, however it ends. -/
theorem handleRead_leads {p : Phase} (env : Env) (r : Read) (hp : p ≠ .start)
    (h : InPhase srv p) : ∃ q, p.Leads q ∧ InPhase (handleRead env r srv).2 q := by
  by_cases hr : r.base = []
  · rw [handleRead_eof hr]
    exact ⟨p, Phase.leads_self hp, h⟩
  have htls (h : InTLS srv) : (∃ b, srv.ssl_buf = some b) ∨ srv.ssl_buf = none := by
    cases srv.ssl_buf with
    | none => exact .inr rfl
    | some b => exact .inl ⟨b, rfl⟩
  cases p with
  | start => exact absurd rfl hp
  | plain =>
    refine ⟨.plain, .plain, ?_⟩
    rw [handleRead_plain (.inl h) hr]
    exact (state_keptByParsing _).handleBytes env r _ _ (srv.plain r) rfl
  | shaking =>
    obtain ⟨b, hbuf⟩ | hbuf := htls (.inl h)
    · rw [handleRead_asserts (.inl h) hbuf hr]
      exact ⟨.shaking, .waits, h⟩
    · rw [handleRead_shaking h hbuf hr]
      exact tryHandshake_leads env h
  | secured =>
    refine ⟨.secured, .secured, ?_⟩
    obtain ⟨b, hbuf⟩ | hbuf := htls (.inr h)
    · rw [handleRead_asserts (.inr h) hbuf hr]
      exact h
    · rw [handleRead_decrypts h hbuf hr]
      exact (readBuffer_state env r _).trans h

/-- **The first read decides.** -/
theorem handleRead_first_leads (env : Env) (h : InPhase srv .start) (hbuf : srv.ssl_buf = none)
    (hr : r.base ≠ []) (hconfig : isTLSClientHello r.base = true → srv.ssl_config = true) :
    ∃ p, Phase.Leads .start p ∧ InPhase (handleRead env r srv).2 p ∧
      (p = .plain ↔ isTLSClientHello r.base = false) := by
  cases hhello : isTLSClientHello r.base with
  | false =>
    refine ⟨.plain, .text, ?_, by simp⟩
    rw [handleRead_plain (.inr ⟨h, hhello⟩) hr]
    exact (state_keptByParsing _).handleBytes env r _ _ (srv.plain r) rfl
  | true =>
    rw [handleRead_hello h hbuf hhello (hconfig hhello) hr]
    obtain ⟨p, hleads, hp⟩ := tryHandshake_leads env (show InPhase (srv.hello r) .shaking from rfl)
    refine ⟨p, Phase.Leads.hello.trans hleads, hp, ?_⟩
    cases hleads <;> simp

/-! ## Whole runs -/

/-- A run ends where its first read does, or where the rest of it does. -/
theorem serve_cons_snd (env : Env) (r : Read) (reads : List Read) (srv : JsonRPCServer lib) :
    (serve env (r :: reads) srv).2 = (handleRead env r srv).2 ∨
      (serve env (r :: reads) srv).2 = (serve env reads (handleRead env r srv).2).2 := by
  rw [serve, Action.bind_eq]
  rcases handleRead env r srv with ⟨e | ret, srv'⟩
  · exact .inl rfl
  · simp only
    split_ifs
    · exact .inl rfl
    · exact .inr rfl

/-- So does a run, once the mode is decided. -/
theorem serve_leads {p : Phase} (env : Env) (reads : List Read) (hp : p ≠ .start)
    (h : InPhase srv p) : ∃ q, p.Leads q ∧ InPhase (serve env reads srv).2 q := by
  induction reads generalizing srv p with
  | nil => exact ⟨p, Phase.leads_self hp, h⟩
  | cons r reads ih =>
    obtain ⟨q, hleads, hq⟩ := handleRead_leads env r hp h
    obtain hend | hend := serve_cons_snd env r reads srv <;> rw [hend]
    · exact ⟨q, hleads, hq⟩
    · obtain ⟨s, hleads', hs⟩ := ih hleads.ne_start hq
      exact ⟨s, hleads.trans hleads', hs⟩

/-- A run from the first read on. -/
theorem serve_first_leads (env : Env) (reads : List Read) (h : InPhase srv .start)
    (hbuf : srv.ssl_buf = none) (hr : r.base ≠ [])
    (hconfig : isTLSClientHello r.base = true → srv.ssl_config = true) :
    ∃ p, Phase.Leads .start p ∧ InPhase (serve env (r :: reads) srv).2 p ∧
      (p = .plain ↔ isTLSClientHello r.base = false) := by
  obtain ⟨p, hleads, hp, hplain⟩ := handleRead_first_leads env h hbuf hr hconfig
  obtain hend | hend := serve_cons_snd env r reads srv <;> rw [hend]
  · exact ⟨p, hleads, hp, hplain⟩
  · obtain ⟨q, hleads', hq⟩ := serve_leads env reads hleads.ne_start hp
    refine ⟨q, hleads.trans hleads', hq, ?_⟩
    rw [← hplain]
    cases hleads <;> cases hleads' <;> simp

/-- A read that leaves a connection open has bytes, and TLS is configured if it asks for it. -/
theorem of_handleRead_open {ret : ℤ} (h : InPhase srv .start)
    (hread : handleRead env r srv = (.ok ret, srv')) (hret : ret ≠ 0) :
    r.base ≠ [] ∧ (isTLSClientHello r.base = true → srv.ssl_config = true) := by
  have hr : r.base ≠ [] := by
    intro hr
    rw [handleRead_eof hr] at hread
    exact hret (Except.ok.inj (Prod.mk.inj hread).1).symm
  refine ⟨hr, fun hhello => ?_⟩
  by_contra hconfig
  rw [handleRead_refused h hhello (Bool.not_eq_true _ ▸ hconfig) hr] at hread
  exact hret (Except.ok.inj (Prod.mk.inj hread).1).symm

/-- What becomes of the flags of an open connection: START is gone, plain text and TLS have not
changed into each other, and a handshake that was over has not begun again. -/
structure Lawful (srv srv' : JsonRPCServer lib) : Prop where
  start : srv'.has JsonRPCState.START = false
  normal : srv.has JsonRPCState.NORMAL = true → srv'.state = JsonRPCState.NORMAL
  ssl_normal : srv.has JsonRPCState.SSL_NORMAL = true → srv'.has JsonRPCState.SSL_NORMAL = true ∧
    srv'.has JsonRPCState.NORMAL = false
  ssl_handshake : srv.has JsonRPCState.START = false → srv.has JsonRPCState.SSL_HANDSHAKE = false →
    srv'.has JsonRPCState.SSL_HANDSHAKE = false

theorem Phase.Leads.lawful {p q : Phase} (hleads : p.Leads q) (h : InPhase srv p)
    (h' : InPhase srv' q) : Lawful srv srv' := by
  have hhas (flag : ℕ) : srv.has flag = (p.word &&& flag != 0) := has_eq h rfl
  have hhas' (flag : ℕ) : srv'.has flag = (q.word &&& flag != 0) := has_eq h' rfl
  constructor
  · rw [hhas']
    cases hleads <;> decide
  · rw [hhas, h']
    cases hleads <;> decide
  · rw [hhas, hhas', hhas']
    cases hleads <;> decide
  · rw [hhas, hhas, hhas']
    cases hleads <;> decide

/-- The flags of a connection in a run: while it is open the word is one of four, and what becomes
of it is lawful. -/
structure FlagLaw (env : Env) (reads : List Read) (srv : JsonRPCServer lib) : Prop where
  word : ∀ pre post srv', reads = pre ++ post → serve env pre srv = (.ok true, srv') →
    srv'.state ∈ [JsonRPCState.START, JsonRPCState.NORMAL,
      JsonRPCState.SSL_NORMAL ||| JsonRPCState.SSL_HANDSHAKE, JsonRPCState.SSL_NORMAL]
  lawful : ∀ pre r mid post srv₁ srv₂, reads = pre ++ r :: mid ++ post →
    serve env pre srv = (.ok true, srv₁) → serve env (r :: mid) srv₁ = (.ok true, srv₂) →
      Lawful srv₁ srv₂

variable (lib) (env) (ssl_config : Bool) (session : Session)

/-- An open connection that has served reads is past the first phase. -/
theorem phase_of_open (h : serve env reads (accepted lib ssl_config session) = (.ok true, srv)) :
    ∃ p, InPhase srv p ∧ (p = .start → srv = accepted lib ssl_config session) := by
  cases reads with
  | nil =>
    obtain rfl := serve_nil_iff.mp h
    exact ⟨.start, rfl, fun _ => rfl⟩
  | cons r reads =>
    obtain ⟨ret, srv₁, hread, hret, -⟩ := serve_cons_iff.mp h
    have hstart : InPhase (accepted lib ssl_config session) .start := rfl
    obtain ⟨hr, hconfig⟩ := of_handleRead_open hstart hread hret
    obtain ⟨p, hleads, hp, -⟩ := serve_first_leads env reads hstart rfl hr hconfig
    rw [h] at hp
    exact ⟨p, hp, fun heq => absurd heq hleads.ne_start⟩

/-- **The flags obey their law** in every run. -/
theorem serve_lawful (reads : List Read) :
    FlagLaw env reads (accepted lib ssl_config session) := by
  refine ⟨fun pre post srv' _ hserve => ?_, fun pre r mid post srv₁ srv₂ _ hserve hserve' => ?_⟩
  · obtain ⟨p, hp, -⟩ := phase_of_open lib env ssl_config session hserve
    rw [hp]
    cases p <;> decide
  · obtain ⟨p, hp, hstart⟩ := phase_of_open lib env ssl_config session hserve
    by_cases hps : p = .start
    · subst hps
      obtain ⟨ret, srv', hread, hret, -⟩ := serve_cons_iff.mp hserve'
      obtain ⟨hr, hconfig⟩ := of_handleRead_open hp hread hret
      obtain ⟨q, hleads, hq, -⟩ :=
        serve_first_leads env mid hp (by rw [hstart rfl]; rfl) hr hconfig
      rw [hserve'] at hq
      exact hleads.lawful hp hq
    · obtain ⟨q, hleads, hq⟩ := serve_leads env (r :: mid) hps hp
      rw [hserve'] at hq
      exact hleads.lawful hp hq

/-! ## Segmentations -/

variable {lib} {stream : Bytes} {reads reads' : List Read}

/-- The reads are a segmentation of the stream. -/
structure Cuts (stream : Bytes) (reads : List Read) : Prop where
  nonempty : ∀ r ∈ reads, r.base ≠ []
  bytes : reads.flatMap Read.base = stream

/-- The connection is in this mode. -/
def EndsIn (srv : JsonRPCServer lib) (tls : Bool) : Prop :=
  srv.has JsonRPCState.SSL_NORMAL = tls ∧ srv.has JsonRPCState.NORMAL = !tls

theorem endsIn_iff {p : Phase} {tls : Bool} (h : InPhase srv p) (hp : p ≠ .start) :
    EndsIn srv tls ↔ (p = .plain ↔ tls = false) := by
  have hhas (flag : ℕ) : srv.has flag = (p.word &&& flag != 0) := has_eq h rfl
  rw [EndsIn, hhas, hhas]
  cases p <;> cases tls <;> simp_all [Phase.word, JsonRPCState.NORMAL, JsonRPCState.SSL_NORMAL,
    JsonRPCServer.shaking, JsonRPCState.SSL_HANDSHAKE]

/-- A run over a segmentation of a stream: the flags obey their law, and the mode is what the first
five bytes of the stream tell. -/
structure Arrives (env : Env) (stream : Bytes) (reads : List Read) (srv : JsonRPCServer lib) :
    Prop where
  flags : FlagLaw env reads srv
  mode : EndsIn (serve env reads srv).2 (isTLSClientHello (stream.take 5))

theorem isTLSClientHello_short {buf : Bytes} (h : buf.length < 5) :
    isTLSClientHello buf = false := by
  have hlen : decide (4 < buf.length) = false := decide_eq_false (by omega)
  rw [isTLSClientHello, hlen, Bool.false_and, Bool.false_and, Bool.false_and]

/-- Only five bytes are looked at. -/
theorem isTLSClientHello_take {buf : Bytes} (h : 5 ≤ buf.length) (rest : Bytes) :
    isTLSClientHello ((buf ++ rest).take 5) = isTLSClientHello buf := by
  match buf, h with
  | a :: b :: c :: d :: e :: tail, _ => simp [isTLSClientHello]

variable (lib)

/-- **The first read decides the mode.** -/
theorem serve_mode {tls : Bool} (hr : r.base ≠ []) (reads : List Read) :
    EndsIn (serve env (r :: reads) (accepted lib true session)).2 tls ↔
      isTLSClientHello r.base = tls := by
  have hstart : InPhase (accepted lib true session) .start := rfl
  obtain ⟨p, hleads, hp, hplain⟩ := serve_first_leads env reads hstart rfl hr fun _ => rfl
  rw [endsIn_iff hp hleads.ne_start, hplain]
  cases isTLSClientHello r.base <;> cases tls <;> simp

/-- One segmentation. -/
theorem arrives_one_iff (hcuts : Cuts stream reads) (h5 : 5 ≤ stream.length) :
    Arrives env stream reads (accepted lib true session) ↔
      (isTLSClientHello (stream.take 5) = true → ∀ r ∈ reads.head?, 5 ≤ r.base.length) := by
  obtain ⟨hne, rfl⟩ := hcuts
  cases reads with
  | nil => simp at h5
  | cons r reads =>
    have hr : r.base ≠ [] := hne r List.mem_cons_self
    have hmode : Arrives env ((r :: reads).flatMap Read.base) (r :: reads)
        (accepted lib true session) ↔
          isTLSClientHello r.base = isTLSClientHello (((r :: reads).flatMap Read.base).take 5) := by
      rw [← serve_mode lib env session hr reads]
      exact ⟨fun h => h.mode, fun h => ⟨serve_lawful lib env true session _, h⟩⟩
    rw [hmode, List.flatMap_cons]
    simp only [List.head?_cons, Option.mem_some_iff, forall_eq']
    by_cases hlen : 5 ≤ r.base.length
    · rw [isTLSClientHello_take hlen]
      simp [hlen]
    · rw [isTLSClientHello_short (by omega)]
      simp [hlen]

/-- **The mode of a connection and the byte stream.** With TLS configured, two segmentations of a
stream of at least five bytes both lead to the mode that its first five bytes tell, under flags that
obey their law, if and only if these bytes are not the beginning of a handshake, or the first read
of each segmentation holds them all. -/
theorem arrives_iff (hcuts : Cuts stream reads) (hcuts' : Cuts stream reads')
    (h5 : 5 ≤ stream.length) :
    (Arrives env stream reads (accepted lib true session) ∧
        Arrives env stream reads' (accepted lib true session)) ↔
      (isTLSClientHello (stream.take 5) = true →
        (∀ r ∈ reads.head?, 5 ≤ r.base.length) ∧ ∀ r ∈ reads'.head?, 5 ≤ r.base.length) := by
  rw [arrives_one_iff lib env session hcuts h5, arrives_one_iff lib env session hcuts' h5,
    ← imp_and]

/-- Whole records, one in each read or all in one. -/
theorem arrives_records :
    Arrives pingEnv (helloRead.base ++ finishedRead.base) [helloRead, finishedRead]
        (accepted nullCipher true .fresh) ∧
      Arrives pingEnv (helloRead.base ++ finishedRead.base)
        [.ofBytes (helloRead.base ++ finishedRead.base)] (accepted nullCipher true .fresh) :=
  (arrives_iff nullCipher pingEnv .fresh ⟨by decide, by decide⟩ ⟨by decide, by decide⟩
    (by decide)).mpr fun _ => by decide

/-- The first byte of a handshake arrives before the others. -/
theorem not_arrives : ¬ ∀ stream reads reads', Cuts stream reads → Cuts stream reads' →
    5 ≤ stream.length →
      Arrives pingEnv stream reads (accepted nullCipher true .fresh) ∧
        Arrives pingEnv stream reads' (accepted nullCipher true .fresh) := by
  intro h
  have hcut := h helloRead.base [helloRead]
    [.ofBytes (helloRead.base.take 1), .ofBytes (helloRead.base.drop 1)]
    ⟨by decide, by decide⟩ ⟨by decide, by decide⟩ (by decide)
  have hmode := (serve_mode nullCipher pingEnv .fresh (by decide) _).mp hcut.2.mode
  exact absurd hmode (by decide)

end ElectrumZ.Net
