import ElectrumZ.Net.Transport

/-!
# What the connections share

A read may search the database and query the node, which other connections use as well.

* `SessionKept.handleRead`: what handling a command and writing maintain of the session, a read
  maintains, whatever it finds in the buffers.
* `handleRead_store`: so a read that returns leaves the database as it has found it.
* `handleRead_queries`: and however it ends, it only adds queries.
-/

namespace ElectrumZ.Net

open Foundations Bitcoin Blockchain Commands JsonRPCServer

variable {lib : Mbedtls} {env : Env} {r : Read} {srv : JsonRPCServer lib} {J : Session → Prop}
  {Err : Fault → Session → Prop}

/-! ## Through a read -/

/-- A property of the session that handling a command maintains, and writing keeps. An exception of
the JSON library is caught. -/
structure SessionKept (env : Env) (J : Session → Prop) (Err : Fault → Session → Prop) : Prop where
  command : ∀ cmd, Action.Maintains J Err (handleCommand env cmd)
  wire : ∀ (s : Session) w, J s → J { s with wire := s.wire ++ [w] }
  json : ∀ s, Err .json s → J s
  null : ∀ s, J s → Err .null s
  assertion : ∀ s a, J s → Err (.assertion a) s

namespace SessionKept

/-- The same for a part of the handling of a read. -/
abbrev Kept {α : Type} (J : Session → Prop) (Err : Fault → Session → Prop) (x : ServerM lib α) :
    Prop :=
  Action.Maintains (fun srv => J srv.session) (fun e srv => Err e srv.session) x

/-- An action that does not fail, and leaves the session. -/
theorem kept_of_session_eq {α : Type} {x : ServerM lib α}
    (h : ∀ srv, ∃ a, (x srv).1 = .ok a ∧ (x srv).2.session = srv.session) : Kept J Err x := by
  refine Action.Keeps.maintains_of_ok (fun srv hJ => ?_) fun srv => ?_
  · obtain ⟨-, -, hsession⟩ := h srv
    rw [hsession]
    exact hJ
  · obtain ⟨a, ha, -⟩ := h srv
    exact ⟨a, ha⟩

theorem kept_pure {α : Type} (a : α) : Kept J Err (pure a : ServerM lib α) :=
  kept_of_session_eq fun _ => ⟨a, rfl, rfl⟩

theorem kept_appendBuffer (nread : ℤ) (data : Bytes) :
    Kept J Err (appendBuffer nread data : ServerM lib ℤ) := by
  refine kept_of_session_eq fun srv => ?_
  simp only [appendBuffer]
  split_ifs <;> exact ⟨_, rfl, rfl⟩

theorem kept_set (flag : ℕ) :
    Kept J Err (Action.update fun srv => srv.set flag : ServerM lib Unit) :=
  kept_of_session_eq fun _ => ⟨(), rfl, rfl⟩

theorem kept_toggle (flag : ℕ) :
    Kept J Err (Action.update fun srv => srv.toggle flag : ServerM lib Unit) :=
  kept_of_session_eq fun _ => ⟨(), rfl, rfl⟩

theorem kept_initTLSContext : Kept J Err (Action.update initTLSContext : ServerM lib Unit) :=
  kept_of_session_eq fun _ => ⟨(), rfl, rfl⟩

theorem kept_resetSession : Kept J Err (Action.update resetSession : ServerM lib Unit) :=
  kept_of_session_eq fun _ => ⟨(), rfl, rfl⟩

theorem kept_look : Kept J Err (Action.look id : ServerM lib (JsonRPCServer lib)) :=
  kept_of_session_eq fun srv => ⟨srv, rfl, rfl⟩

theorem kept_inspect (scanned : ℕ) (buf_len : ℤ) :
    Kept J Err (inspect scanned buf_len : ServerM lib Unit) :=
  kept_of_session_eq fun _ => ⟨(), rfl, rfl⟩

/-- The receive callback leaves the session, and can only meet a null pointer. -/
theorem recvCallback_cases (len : ℕ) (srv : JsonRPCServer lib) :
    (recvCallback len srv).2.session = srv.session ∧
      ∀ e, (recvCallback len srv).1 = .error e → e = .null := by
  unfold recvCallback
  split_ifs
  · exact ⟨rfl, by simp⟩
  · cases srv.ssl_buf with
    | none => exact ⟨rfl, by simp⟩
    | some ssl_buf =>
      simp only
      split_ifs <;> exact ⟨rfl, by simp⟩

variable (hJ : SessionKept env J Err)
include hJ

theorem mergeBuffer (buf_len : ℤ) (data : Bytes) :
    Kept J Err (mergeBuffer buf_len data : ServerM lib (ℤ × Bytes)) := by
  intro srv h
  rw [Net.mergeBuffer]
  split_ifs
  · exact ⟨fun _ _ => h, by simp⟩
  · refine ⟨by simp, fun e he => ?_⟩
    cases he
    exact hJ.null _ h
  · exact ⟨fun _ _ => h, by simp⟩

theorem takeBuffer (r : Read) : Kept J Err (takeBuffer r : ServerM lib Unit) := by
  intro srv h
  unfold Net.takeBuffer
  split
  · refine ⟨by simp, fun e he => ?_⟩
    cases he
    exact hJ.assertion _ _ h
  · exact ⟨fun _ _ => h, by simp⟩

theorem enterRead (r : Read) : Kept J Err (enterRead r : ServerM lib Unit) := by
  unfold Net.enterRead
  refine kept_look.bind fun srv => ?_
  exact Action.maintains_ite (hJ.takeBuffer r) (kept_pure _)

theorem writeInternal (source : Source) (buf : Bytes) :
    Kept J Err (onSession (writeInternal env source buf) : ServerM lib ℤ) :=
  fun srv h => ⟨fun _ _ => hJ.wire srv.session _ h, by simp [onSession, Action.zoom,
    Net.writeInternal]⟩

/-- The callbacks of the library. -/
theorem bio (c : Bio) : Kept J Err (bio env c : ServerM lib c.Answer) := by
  cases c with
  | recv len =>
    intro srv h
    obtain ⟨hsession, hnull⟩ := recvCallback_cases len srv
    have hkept : J (recvCallback len srv).2.session := by
      rw [hsession]
      exact h
    refine ⟨fun _ _ => hkept, fun e he => ?_⟩
    obtain rfl := hnull e he
    exact hJ.null _ hkept
  | send buf => exact hJ.writeInternal .bio buf

/-- A call of the library maintains what its callbacks do. -/
theorem sslCall {Q : Type} {A : Q → Type} {α : Type}
    {handler : Dialog.Handler Q A Fault (JsonRPCServer lib)}
    (hhandler : ∀ q, Kept J Err (handler q : ServerM lib (A q)))
    (f : lib.Ctx → Dialog Q A Empty (α × lib.Ctx)) : Kept J Err (sslCall handler f) := by
  intro srv h
  unfold Net.sslCall
  cases srv.ssl with
  | none =>
    refine ⟨by simp, fun e he => ?_⟩
    cases he
    exact hJ.null _ h
  | some ctx =>
    obtain ⟨hok, herr⟩ := Action.run_weaken_maintains hhandler (f ctx) srv h
    simp only
    rcases heq : (f ctx).weaken.run handler srv with ⟨e | ⟨a, ctx'⟩, srv'⟩ <;>
      rw [heq] at hok herr
    · refine ⟨by simp, fun e' he => ?_⟩
      cases he
      exact herr e rfl
    · exact ⟨fun _ _ => hok _ rfl, by simp⟩

/-- A line whose command throws in the JSON library is given up. -/
theorem handleLine (text : Bytes) : Kept J Err (handleLine env text : ServerM lib Bool) := by
  intro srv h
  unfold Net.handleLine
  cases env.parse text with
  | none => exact ⟨fun _ _ => h, by simp⟩
  | some req =>
    obtain ⟨hok, herr⟩ := hJ.command req srv.session h
    simp only [onSession, Action.zoom]
    rcases hcommand : handleCommand env req srv.session with ⟨e | ⟨⟩, s⟩ <;>
      rw [hcommand] at hok herr
    · cases e with
      | json => exact ⟨fun _ _ => hJ.json _ (herr _ rfl), by simp⟩
      | stream | assertion | null | blocked =>
        refine ⟨by simp, fun e he => ?_⟩
        cases he
        exact herr _ rfl
    · exact ⟨fun _ _ => hok _ rfl, by simp⟩

theorem parseAgain (nread : ℕ) (buf_len : ℤ) (mem : Bytes) :
    Kept J Err (parseAgain env nread buf_len mem : ServerM lib ℤ) := by
  induction hlen : mem.length using Nat.strong_induction_on generalizing mem buf_len with
  | _ n ih =>
    rw [parseAgain_eq]
    refine (kept_inspect _ _).bind fun _ => ?_
    split
    · exact kept_appendBuffer _ _
    · next text rest heq =>
      refine (hJ.handleLine text).bind fun handled => ?_
      refine Action.maintains_ite (kept_pure _) (Action.maintains_ite ?_ (kept_pure _))
      exact ih rest.length (hlen ▸ length_lt_of_strchr heq) _ rest rfl

theorem write (buf : Bytes) : Kept J Err (write env buf : ServerM lib ℤ) := by
  refine kept_look.bind fun srv => Action.maintains_ite ?_
    (Action.maintains_ite (hJ.writeInternal _ _) (kept_pure _))
  exact hJ.sslCall (fun b => hJ.bio (.send b)) _

theorem handleBytes (r : Read) (buf_len : ℤ) (data : Bytes) :
    Kept J Err (handleBytes env r buf_len data : ServerM lib ℤ) := by
  refine (hJ.mergeBuffer _ _).bind fun merged => (kept_inspect _ _).bind fun _ => ?_
  exact Action.maintains_ite ((hJ.write _).bind fun _ => kept_pure _) (hJ.parseAgain _ _ _)

theorem readBuffer (r : Read) : Kept J Err (readBuffer env r : ServerM lib ℤ) := by
  refine kept_look.bind fun srv => Action.maintains_ite ?_ (hJ.handleBytes r _ _)
  refine (hJ.sslCall hJ.bio _).bind fun d => ?_
  exact Action.maintains_ite (kept_pure _)
    (Action.maintains_ite (kept_appendBuffer _ _) (hJ.handleBytes r _ _))

theorem tryHandshake : Kept J Err (tryHandshake env : ServerM lib ℤ) := by
  refine (hJ.sslCall hJ.bio _).bind fun hsr => Action.maintains_ite ?_ ?_
  · exact (kept_toggle _).bind fun _ => kept_pure _
  · refine Action.maintains_ite (kept_pure _) ?_
    exact kept_resetSession.bind fun _ => kept_pure _

theorem firstRead (r : Read) : Kept J Err (firstRead env r : ServerM lib ℤ) := by
  unfold Net.firstRead
  refine (kept_toggle _).bind fun _ => ?_
  refine Action.maintains_ite ?_ ?_
  · refine kept_look.bind fun srv => ?_
    refine Action.maintains_ite (kept_pure _) ?_
    exact (hJ.takeBuffer r).bind fun _ => kept_initTLSContext.bind fun _ =>
      (kept_set _).bind fun _ => hJ.tryHandshake
  · exact (kept_set _).bind fun _ => hJ.readBuffer r

theorem handleReceived (r : Read) : Kept J Err (handleReceived env r : ServerM lib ℤ) := by
  unfold Net.handleReceived
  refine (hJ.enterRead r).bind fun _ => kept_look.bind fun srv => ?_
  refine Action.maintains_ite (hJ.firstRead r) ?_
  exact Action.maintains_ite hJ.tryHandshake (hJ.readBuffer r)

/-- **A read maintains it**, if it holds when the read finds the database and the node. -/
theorem handleRead (h : J (srv.meet r).session) :
    (∀ ret, (handleRead env r srv).1 = .ok ret → J (handleRead env r srv).2.session) ∧
      ∀ e, (handleRead env r srv).1 = .error e → Err e (handleRead env r srv).2.session := by
  rw [Net.handleRead, Action.bind_of_ok (Action.run_update _ _)]
  exact Action.maintains_ite (kept_pure _) (hJ.handleReceived r) (srv.meet r) h

end SessionKept

/-! ## The database and the queries -/

variable {s : Session}

/-- An access leaves the session, and throws if at all in the JSON library. -/
theorem maintains_access {α : Type} (hjson : ∀ s, J s → Err .json s) (x : Option α) :
    Action.Maintains J Err (access x) := by
  cases x with
  | none =>
    refine (Action.keeps_fail _).maintains fun s e hs he => ?_
    cases he
    exact hjson s hs
  | some a => exact (Action.keeps_pure a).maintains fun s e _ he => by cases he

theorem maintains_blob (hassert : ∀ s a, J s → Err (.assertion a) s) (vch : Bytes) :
    Action.Maintains J Err (blob vch) := by
  unfold blob
  split_ifs
  · exact (Action.keeps_pure _).maintains fun s e _ he => by cases he
  · refine (Action.keeps_fail _).maintains fun s e hs he => ?_
    cases he
    exact hassert s _ hs

/-- What looking up a script hash, sending a query and writing maintain, every command does. -/
theorem handleCommand_maintains (hjson : ∀ s, J s → Err .json s)
    (hassert : ∀ s a, J s → Err (.assertion a) s)
    (hwire : ∀ (s : Session) w, J s → J { s with wire := s.wire ++ [w] })
    (hlookup : ∀ scriptHash, Action.Maintains J Err (onStore (getTXOs scriptHash [])))
    (hquery : ∀ method params, Action.Maintains J Err (rpcQuery method params)) (cmd : Json) :
    Action.Maintains J Err (handleCommand env cmd) := by
  have haccess {α : Type} (x : Option α) : Action.Maintains J Err (access x) :=
    maintains_access hjson x
  have hwrite (data : Json) : Action.Maintains J Err (writeInternalJson env data) := by
    intro s hs
    exact ⟨fun _ _ => hwire s _ hs, fun e he => by cases he⟩
  have hdispatch (id : ℤ) (c : ElectrumCommands) :
      Action.Maintains J Err (dispatch env cmd id c) := by
    obtain rfl | rfl | rfl | rfl | ⟨-, result, h⟩ := dispatch_cases env cmd id c
    · refine (haccess _).bind fun params => Action.maintains_ite ?_ (hwrite _)
      exact (haccess _).bind fun first => (haccess _).bind fun h =>
        (hquery _ _).bind fun _ => hwrite _
    · exact (haccess _).bind fun params => Action.maintains_ite (hwrite _) (hwrite _)
    · refine (haccess _).bind fun params => Action.maintains_ite ?_ (hwrite _)
      exact (haccess _).bind fun first => (maintains_blob hassert _).bind fun scriptHash =>
        (hlookup _).bind fun _ => hwrite _
    · exact (haccess _).bind fun result => hwrite _
    · rw [h]
      exact hwrite _
  refine Action.maintains_ite (hwrite _) ?_
  refine (haccess _).bind fun member => (haccess _).bind fun method =>
    (haccess _).bind fun member => (haccess _).bind fun id => ?_
  cases commandMap.lookup method with
  | none => exact hwrite _
  | some c => exact hdispatch id c

/-- A query leaves the database and the node, or meets a null pointer. -/
theorem rpcQuery_maintains_metBy (hnull : ∀ s, MetBy r s → Err .null s) (method : String)
    (params : Json) : Action.Maintains (MetBy r) Err (rpcQuery method params) := by
  intro s hs
  unfold rpcQuery
  split
  · exact ⟨fun _ _ => hs, fun e he => by cases he⟩
  · refine ⟨by simp, fun e he => ?_⟩
    cases he
    exact hnull s hs
  · refine ⟨by simp, fun e he => ?_⟩
    cases he
    exact hnull s hs

/-- A lookup that returns leaves the database as it was; one that does not fails with no exception
of the JSON library. -/
theorem metBy_sessionKept (env : Env) (r : Read) :
    SessionKept env (MetBy r) fun e s => MetBy r s ∨ e ≠ .json where
  command := by
    refine handleCommand_maintains (fun _ => .inl) (fun _ _ => .inl) (fun _ _ hs => hs)
      (fun scriptHash s hs => ?_) (rpcQuery_maintains_metBy fun _ => .inl)
    by_cases h : s.store.Searchable scriptHash.serialize
    · obtain ⟨err, hrun⟩ := run_getTXOs scriptHash [] h
      rw [onStore, hrun]
      exact ⟨fun _ _ => hs, fun e he => by cases he⟩
    · obtain ⟨stop, store, hrun, hstop⟩ := run_getTXOs_fails scriptHash [] h
      rw [onStore, hrun]
      refine ⟨by simp, fun e he => .inr ?_⟩
      cases he
      obtain rfl | rfl := hstop <;> simp [Fault.ofStop]
  wire _ _ hs := hs
  json _ h := h.resolve_right fun hne => hne rfl
  null _ := .inl
  assertion _ _ := .inl

/-- Only queries are added. -/
theorem queries_sessionKept (env : Env) (queries : List Json) :
    SessionKept env (fun s => queries <+: s.queries) fun _ s => queries <+: s.queries where
  command := by
    refine handleCommand_maintains (fun _ => id) (fun _ _ => id) (fun _ _ hs => hs)
      (fun scriptHash s hs => ?_) fun method params s hs => ?_
    · unfold onStore
      split <;> exact ⟨fun _ _ => hs, fun _ _ => hs⟩
    · unfold rpcQuery
      split
      · have hadd := hs.trans (List.prefix_append s.queries
          [.obj [("method", .str method), ("params", params)]])
        exact ⟨fun _ _ => hadd, fun _ _ => hadd⟩
      · exact ⟨fun _ _ => hs, fun _ _ => hs⟩
      · exact ⟨fun _ _ => hs, fun _ _ => hs⟩
  wire _ _ hs := hs
  json _ := id
  null _ := id
  assertion _ _ := id

/-- **A read that returns** leaves the database as it has found it. -/
theorem handleRead_store {ret : ℤ} {srv' : JsonRPCServer lib}
    (h : handleRead env r srv = (.ok ret, srv')) : srv'.session.store = r.store := by
  have hmet := (@SessionKept.handleRead lib env r srv _ _ (metBy_sessionKept env r) ⟨rfl, rfl⟩).1
  rw [h] at hmet
  exact (hmet ret rfl).1

/-- **However a read ends**, it only adds queries. -/
theorem handleRead_queries (env : Env) (r : Read) (srv : JsonRPCServer lib) :
    srv.session.queries <+: (handleRead env r srv).2.session.queries := by
  obtain ⟨hok, herr⟩ := @SessionKept.handleRead lib env r srv _ _
    (queries_sessionKept env srv.session.queries) List.prefix_rfl
  rcases h : (handleRead env r srv).1 with e | ret
  · exact herr e h
  · exact hok ret h

end ElectrumZ.Net
