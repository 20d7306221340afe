import ElectrumZ.Net.Connection
import ElectrumZ.Net.HandOff
import ElectrumZ.Net.Sharing

/-!
# The network worker

`NetWorker`: one loop that accepts connections, reads from them, and runs the callbacks of the
client of the node, one event after another. The connections share the database and that client.

A failure that leaves a callback ends the process, and a callback that waits for the database for
ever keeps the loop, so that nothing happens after either.

* `parts_of_runs`: **the parts of the server do not get in each other's way**. Whatever the events
  and their order, each connection is what its own reads make of it, the database stays as it was,
  and the client of the node is what its callbacks and the queries of the connections make of it.
-/

namespace ElectrumZ.Net

open Foundations Blockchain RPCClient

variable {lib : Mbedtls}

/-! ## The worker -/

/-- A connection, and what its last read has come to: whether it stays open, or how it failed. -/
structure Client (lib : Mbedtls) where
  srv : JsonRPCServer lib
  outcome : Except Fault Bool

/-- The server: its connections, and its client of the node. -/
structure NetWorker (lib : Mbedtls) where
  db : Store
  /-- TLS is configured. -/
  ssl_config : Bool
  /-- The client of the node, if one is configured. -/
  rpcClient : Option RPCClient
  /-- The connections, in the order in which they were accepted. -/
  clients : List (Client lib)
  /-- What has left a callback of the client of the node. -/
  fault : Option RPCFault

/-- The members of `Config` that the constructor looks at. -/
structure Config where
  ssl_cert : Bytes
  ssl_key : Bytes
  rpchost : Bytes
  rpc_port : ℕ
  rpcusername : Bytes
  rpcpassword : Bytes

/-- What the calls of the constructor return. -/
structure InitCodes where
  loop_init : ℤ
  tcp_init : ℤ
  ip4_addr : ℤ
  x509_crt_parse_file : ℤ
  pk_parse_keyfile : ℤ
  connect : ConnectCodes

namespace NetWorker

/-- The last part of the constructor. -/
def connectRpc (cfg : Config) (codes : InitCodes) (nw : NetWorker lib) : NetWorker lib :=
  if cfg.rpchost ≠ [] ∧ cfg.rpc_port ≠ 0 ∧ cfg.rpcusername ≠ [] ∧ cfg.rpcpassword ≠ [] then
    { nw with
      rpcClient := some (connect codes.connect (.new cfg.rpcusername cfg.rpcpassword)).2 }
  else nw

/-- The constructor. A pointer that it does not come to set counts as null. -/
def new (db : Store) (cfg : Config) (codes : InitCodes) : NetWorker lib :=
  let nw : NetWorker lib := ⟨db, false, none, [], none⟩
  if codes.loop_init ≠ 0 ∨ codes.tcp_init ≠ 0 ∨ codes.ip4_addr ≠ 0 then nw
  else if cfg.ssl_cert ≠ [] ∧ cfg.ssl_key ≠ [] then
    let nw := { nw with ssl_config := true }
    if codes.x509_crt_parse_file ≠ 0 ∨ codes.pk_parse_keyfile ≠ 0 then nw
    else nw.connectRpc cfg codes
  else nw.connectRpc cfg codes

/-- Nothing has failed yet. -/
def alive (nw : NetWorker lib) : Bool :=
  nw.fault.isNone && nw.clients.all fun client => client.outcome.isOk

/-- What a read sees of the client of the node. -/
def link (nw : NetWorker lib) : RpcLink :=
  match nw.rpcClient with
  | none => .absent
  | some c => if c.socket.isSome then .connected else .unconnected

/-- What happens on the loop: a connection to accept, a read of a connection, and the callbacks of
the client of the node. -/
inductive Event
  | onConnect (status accept : ℤ)
  | read (k : ℕ) (base after : Bytes)
  | rpcConnect (handle : ℕ) (status read_start : ℤ)
  | rpcRead (nread : ℤ) (fragments : List Bytes)

/-- `OnConnect`. A read finds its own database and node, so that none are set before. -/
def onConnect (status accept : ℤ) (nw : NetWorker lib) : NetWorker lib :=
  if 0 ≤ status ∧ accept = 0 then
    { nw with clients := nw.clients ++ [⟨.accepted lib nw.ssl_config .fresh, .ok true⟩] }
  else nw

variable (env : Env) (renv : RPCEnv)

/-- Hand the queries of a connection to the client of the node. -/
def forward (queries : List Json) (c : RPCClient) : RPCClient :=
  queries.foldl (fun c j => (sendQuery renv j c).2) c

/-- The read callback of a connection. One that has been closed is not read from. -/
def read (k : ℕ) (base after : Bytes) (nw : NetWorker lib) : Option (NetWorker lib) :=
  match nw.clients[k]? with
  | some ⟨srv, .ok true⟩ =>
    let (res, srv') := handleRead env ⟨base, after, nw.db, nw.link⟩ srv
    let queries := srv'.session.queries.drop srv.session.queries.length
    some { nw with
      db := srv'.session.store
      rpcClient := nw.rpcClient.map (forward renv queries)
      clients := nw.clients.set k ⟨srv', res.map fun ret => decide (ret ≠ 0)⟩ }
  | _ => none

/-- A callback of the client of the node. -/
def rpcCallback (x : RPCM Unit) (nw : NetWorker lib) : Option (NetWorker lib) :=
  nw.rpcClient.map fun c =>
    { nw with
      rpcClient := some (x c).2
      fault := match (x c).1 with
        | .ok () => none
        | .error e => some e }

/-- One event, unless an exception has ended the server. -/
def step (a : Event) (nw : NetWorker lib) : Option (NetWorker lib) :=
  if nw.alive = false then none
  else match a with
    | .onConnect status accept => some (nw.onConnect status accept)
    | .read k base after => nw.read env renv k base after
    | .rpcConnect handle status read_start =>
      nw.rpcCallback (RPCClient.onConnect renv handle status read_start)
    | .rpcRead nread fragments => nw.rpcCallback (onRead renv nread fragments)

/-! ## The parts of the server -/

/-- The link to the node after an event. -/
def linkAfter (link : RpcLink) : Event → RpcLink
  | .rpcConnect _ status _ => if link = .absent ∨ status ≠ 0 then link else .connected
  | _ => link

/-- The read of the connection `k` that an event is. -/
def readOf (db : Store) (k : ℕ) (link : RpcLink) : Event → Option Read
  | .read k' base after => if k' = k then some ⟨base, after, db, link⟩ else none
  | _ => none

/-- The reads of the connection `k`, each with the link to the node at the time. -/
def readsOf (db : Store) (k : ℕ) : RpcLink → List Event → List Read
  | _, [] => []
  | link, a :: as => (readOf db k link a).toList ++ readsOf db k (linkAfter link a) as

/-- The event is a connection that is accepted. -/
def accepts : Event → Bool
  | .onConnect status accept => decide (0 ≤ status ∧ accept = 0)
  | _ => false

/-- What happens to the client of the node: its callbacks, and a query of the connection `k`. -/
inductive NodeAction
  | onConnect (handle : ℕ) (status read_start : ℤ)
  | onRead (nread : ℤ) (fragments : List Bytes)
  | query (k : ℕ) (j : Json)

namespace NodeAction

/-- The client of the node after that. -/
def act (c : RPCClient) : NodeAction → RPCClient
  | onConnect handle status read_start =>
    (RPCClient.onConnect renv handle status read_start c).2
  | onRead nread fragments => (RPCClient.onRead renv nread fragments c).2
  | query _ j => (sendQuery renv j c).2

/-- A query of the connection `k`. -/
def queryOf (k : ℕ) : NodeAction → Option Json
  | query k' j => if k' = k then some j else none
  | _ => none

/-- A callback. -/
def callback : NodeAction → Option NodeAction
  | query _ _ => none
  | a => some a

end NodeAction

/-- The callback of the client of the node that an event is. -/
def nodeAction : Event → Option NodeAction
  | .rpcConnect handle status read_start => some (.onConnect handle status read_start)
  | .rpcRead nread fragments => some (.onRead nread fragments)
  | _ => none

/-- The server after some events, seen from its parts. -/
structure Parts (nw₀ : NetWorker lib) (events : List Event) (nw : NetWorker lib) : Prop where
  /-- A connection is what its own reads make of it. -/
  client : ∀ k client, nw.clients[k]? = some client →
    serve env (readsOf nw₀.db k nw₀.link events) (.accepted lib nw₀.ssl_config .fresh) =
      (client.outcome, client.srv)
  /-- Every connection that was accepted is there. -/
  count : nw.clients.length = events.countP accepts
  /-- The database is the one of the beginning. -/
  db : nw.alive = true → nw.db = nw₀.db
  /-- The client of the node is what its callbacks and the queries of the connections make of it,
  those of one connection in their order. -/
  node : ∃ actions : List NodeAction,
    nw.rpcClient = nw₀.rpcClient.map (fun c => actions.foldl (NodeAction.act renv) c) ∧
    (∀ k client, nw.clients[k]? = some client →
      actions.filterMap (NodeAction.queryOf k) = client.srv.session.queries) ∧
    actions.filterMap NodeAction.callback = events.filterMap nodeAction

/-! ## What a read adds to a run -/

section Runs

variable {env} {srv srv' : JsonRPCServer lib} {r : Read} {reads : List Read}

/-- The next read of a connection that is open. -/
theorem serve_concat (h : serve env reads srv = (.ok true, srv')) :
    serve env (reads ++ [r]) srv =
      ((handleRead env r srv').1.map fun ret => decide (ret ≠ 0), (handleRead env r srv').2) := by
  induction reads generalizing srv with
  | nil =>
    obtain rfl := serve_nil_iff.mp h
    rw [List.nil_append, serve, Action.bind_eq]
    rcases handleRead env r srv with ⟨e | ret, srv''⟩
    · rfl
    · by_cases hret : ret = 0
      · simp only [if_pos hret]
        rw [hret]
        rfl
      · simp only [if_neg hret, serve]
        rw [Except.map, decide_eq_true hret]
        rfl
  | cons r₀ reads ih =>
    obtain ⟨ret, srv₁, hread, hret, hserve⟩ := serve_cons_iff.mp h
    rw [List.cons_append, serve, Action.bind_of_ok hread, if_neg hret]
    exact ih hserve

end Runs

variable {renv} {c c' : RPCClient} {link : RpcLink} {a : Event} {as : List Event}

theorem readsOf_concat (db : Store) (k : ℕ) (link : RpcLink) (as : List Event) (a : Event) :
    readsOf db k link (as ++ [a]) =
      readsOf db k link as ++ (readOf db k (as.foldl linkAfter link) a).toList := by
  induction as generalizing link with
  | nil => simp [readsOf]
  | cons b as ih => simp [readsOf, ih]

/-! ## The socket of the client of the node -/

/-- A query leaves the socket. -/
theorem keeps_socket_sendQuery (renv : RPCEnv) (j : Json) (socket : Option ℕ) :
    Action.Keeps (fun c => c.socket = socket) (sendQuery renv j) := by
  have hnext : Action.Keeps (fun c : RPCClient => c.socket = socket) nextId := fun _ h => h
  have hpromise : Action.Keeps (fun c : RPCClient => c.socket = socket) makePromise := fun _ h => h
  have hadd (q : RPCQuery) : Action.Keeps (fun c : RPCClient => c.socket = socket) (addQuery q) :=
    fun _ h => h
  refine hnext.bind fun id => hpromise.bind fun ft => (hadd _).bind fun _ => ?_
  refine (keeps_access _).bind fun j => ?_
  refine Action.Keeps.bind (fun c hc => ?_) fun _ => Action.keeps_pure _
  obtain ⟨buf, hbuf⟩ := writeInternal_snd renv j c
  rw [hbuf]
  exact hc

theorem socket_forward (renv : RPCEnv) (queries : List Json) (c : RPCClient) :
    (forward renv queries c).socket = c.socket := by
  induction queries generalizing c with
  | nil => rfl
  | cons j queries ih =>
    rw [forward, List.foldl_cons]
    exact (ih _).trans (keeps_socket_sendQuery renv j c.socket c rfl)

/-- The socket is set by the connect callback, when it is told of success. -/
theorem socket_onConnect (handle : ℕ) (status read_start : ℤ) (c : RPCClient) :
    (RPCClient.onConnect renv handle status read_start c).2.socket =
      if status ≠ 0 then c.socket else some handle := by
  by_cases hstatus : status = 0
  · subst hstatus
    by_cases hread : read_start = 0
    · subst hread
      obtain ⟨q, j, buf, h⟩ := onConnect_of_success renv c handle
      rw [h]
      rfl
    · rw [onConnect_of_no_read handle hread]
      rfl
  · rw [onConnect_of_failure handle read_start hstatus, if_pos hstatus]

/-! ## One event -/

section Traced

variable (env : Env) (renv : RPCEnv) {nw₀ nw nw' : NetWorker lib} {events : List Event} {k : ℕ}

/-- A connection; one that has not been accepted yet counts as if it had just been. -/
def clientAt (nw : NetWorker lib) (k : ℕ) : Client lib :=
  nw.clients[k]?.getD ⟨.accepted lib nw.ssl_config .fresh, .ok true⟩

/-- The parts, with what carries them through an event. -/
structure Traced (nw₀ : NetWorker lib) (events : List Event) (nw : NetWorker lib) : Prop where
  client : ∀ k, serve env (readsOf nw₀.db k nw₀.link events)
    (.accepted lib nw₀.ssl_config .fresh) = ((nw.clientAt k).outcome, (nw.clientAt k).srv)
  count : nw.clients.length = events.countP accepts
  db : nw.alive = true → nw.db = nw₀.db
  ssl_config : nw.ssl_config = nw₀.ssl_config
  link : nw.link = events.foldl linkAfter nw₀.link
  node : ∃ actions : List NodeAction,
    nw.rpcClient = nw₀.rpcClient.map (fun c => actions.foldl (NodeAction.act renv) c) ∧
    (∀ k, actions.filterMap (NodeAction.queryOf k) = (nw.clientAt k).srv.session.queries) ∧
    actions.filterMap NodeAction.callback = events.filterMap nodeAction

theorem clientAt_of_some {client : Client lib} (h : nw.clients[k]? = some client) :
    nw.clientAt k = client := by
  rw [clientAt, h]
  rfl

theorem clientAt_append (nw : NetWorker lib) (k : ℕ) :
    ({ nw with clients := nw.clients ++ [⟨.accepted lib nw.ssl_config .fresh, .ok true⟩] } :
      NetWorker lib).clientAt k = nw.clientAt k := by
  unfold clientAt
  by_cases hk : k < nw.clients.length
  · rw [List.getElem?_append_left hk]
  · rw [List.getElem?_append_right (by omega),
      List.getElem?_eq_none (by omega : nw.clients.length ≤ k)]
    cases k - nw.clients.length with
    | zero => rfl
    | succ i => rfl

theorem alive_append (nw : NetWorker lib) (srv : JsonRPCServer lib) :
    ({ nw with clients := nw.clients ++ [⟨srv, .ok true⟩] } : NetWorker lib).alive =
      nw.alive := by
  simp [alive, Except.isOk, Except.toBool]

/-- A worker on which nothing has happened. -/
theorem traced_start (h : nw.clients = []) : Traced env renv nw [] nw where
  client k := by rw [clientAt, h]; rfl
  count := by rw [h]; rfl
  db _ := rfl
  ssl_config := rfl
  link := rfl
  node := by
    refine ⟨[], ?_, fun k => ?_, rfl⟩
    · cases nw.rpcClient <;> rfl
    · rw [clientAt, h]
      rfl

variable {env renv}

/-- An event that leaves the connections and the node alone. -/
theorem Traced.quiet (h : Traced env renv nw₀ events nw) {a : Event}
    (hread : ∀ db k link, readOf db k link a = none) (hlink : ∀ link, linkAfter link a = link)
    (hnode : nodeAction a = none) (hclient : ∀ k, nw'.clientAt k = nw.clientAt k)
    (hcount : nw'.clients.length = nw.clients.length + if accepts a then 1 else 0)
    (hdb : nw'.db = nw.db) (halive : nw'.alive = nw.alive)
    (hssl : nw'.ssl_config = nw.ssl_config) (hrpc : nw'.rpcClient = nw.rpcClient) :
    Traced env renv nw₀ (events ++ [a]) nw' where
  client k := by
    rw [readsOf_concat, hread, Option.toList_none, List.append_nil, hclient]
    exact h.client k
  count := by
    rw [hcount, h.count, List.countP_append, List.countP_singleton]
  db ha := by
    rw [hdb]
    exact h.db (halive ▸ ha)
  ssl_config := by rw [hssl, h.ssl_config]
  link := by
    rw [List.foldl_append, List.foldl_cons, List.foldl_nil, hlink, ← h.link, NetWorker.link, hrpc,
      NetWorker.link]
  node := by
    obtain ⟨actions, hclient', hqueries, hcallbacks⟩ := h.node
    refine ⟨actions, by rw [hrpc, hclient'], fun k => by rw [hclient, hqueries], ?_⟩
    simp [hcallbacks, hnode]

/-- A connection to accept. -/
theorem Traced.onConnect (h : Traced env renv nw₀ events nw) (status accept : ℤ) :
    Traced env renv nw₀ (events ++ [.onConnect status accept]) (nw.onConnect status accept) := by
  by_cases haccept : 0 ≤ status ∧ accept = 0
  · rw [NetWorker.onConnect, if_pos haccept]
    refine h.quiet (fun _ _ _ => rfl) (fun _ => rfl) rfl (clientAt_append nw) ?_ rfl
      (alive_append nw _) rfl rfl
    simp [accepts, haccept]
  · rw [NetWorker.onConnect, if_neg haccept]
    refine h.quiet (fun _ _ _ => rfl) (fun _ => rfl) rfl (fun _ => rfl) ?_ rfl rfl rfl rfl
    rw [accepts, decide_eq_false haccept]
    rfl

theorem clientAt_set {client client' : Client lib} (h : nw.clients[k]? = some client)
    {db : Store} {rpcClient : Option RPCClient} (k' : ℕ) :
    ({ nw with db, rpcClient, clients := nw.clients.set k client' } : NetWorker lib).clientAt k' =
      if k' = k then client' else nw.clientAt k' := by
  obtain ⟨hlt, -⟩ := List.getElem?_eq_some_iff.mp h
  unfold clientAt
  rw [List.getElem?_set]
  by_cases hk : k = k'
  · subst hk
    rw [if_pos rfl, if_pos hlt, if_pos rfl, Option.getD_some]
  · rw [if_neg hk, if_neg (Ne.symm hk)]

/-- The queries of a connection, as actions on the client of the node. -/
theorem foldl_act_query (renv : RPCEnv) (k : ℕ) (queries : List Json) (c : RPCClient) :
    (queries.map (NodeAction.query k)).foldl (NodeAction.act renv) c = forward renv queries c := by
  rw [List.foldl_map]
  rfl

theorem filterMap_queryOf (k k' : ℕ) (queries : List Json) :
    (queries.map (NodeAction.query k)).filterMap (NodeAction.queryOf k') =
      if k' = k then queries else [] := by
  rw [List.filterMap_map]
  by_cases hk : k = k'
  · subst hk
    rw [if_pos rfl]
    exact (List.filterMap_congr fun j _ => if_pos rfl).trans List.filterMap_some
  · rw [if_neg (Ne.symm hk)]
    exact List.filterMap_eq_nil_iff.mpr fun j _ => if_neg hk

theorem filterMap_callback_query (k : ℕ) (queries : List Json) :
    (queries.map (NodeAction.query k)).filterMap NodeAction.callback = [] := by
  rw [List.filterMap_map]
  exact List.filterMap_eq_nil_iff.mpr fun _ _ => rfl

theorem ok_of_alive {client : Client lib} (ha : nw.alive = true)
    (h : nw.clients[k]? = some client) : client.outcome.isOk = true := by
  rw [alive, Bool.and_eq_true, List.all_eq_true] at ha
  exact ha.2 client (List.mem_of_getElem? h)

/-- The worker after a read of the connection `k`. -/
def afterRead (renv : RPCEnv) (k : ℕ) (srv srv' : JsonRPCServer lib) (res : Except Fault ℤ)
    (nw : NetWorker lib) : NetWorker lib :=
  { nw with
    db := srv'.session.store
    rpcClient := nw.rpcClient.map
      (forward renv (srv'.session.queries.drop srv.session.queries.length))
    clients := nw.clients.set k ⟨srv', res.map fun ret => decide (ret ≠ 0)⟩ }

/-- What a read does. -/
theorem read_cases {base after : Bytes} (h : nw.read env renv k base after = some nw') :
    ∃ srv srv' res, nw.clients[k]? = some ⟨srv, .ok true⟩ ∧
      handleRead env ⟨base, after, nw.db, nw.link⟩ srv = (res, srv') ∧
      nw' = nw.afterRead renv k srv srv' res := by
  unfold NetWorker.read at h
  split at h
  · next srv hk =>
    rcases hrun : handleRead env ⟨base, after, nw.db, nw.link⟩ srv with ⟨res, srv'⟩
    rw [hrun] at h
    exact ⟨srv, srv', res, hk, hrun, (Option.some.inj h).symm⟩
  · cases h

/-- A read of a connection. -/
theorem Traced.read (h : Traced env renv nw₀ events nw) (ha : nw.alive = true) {base after : Bytes}
    (hread : nw.read env renv k base after = some nw') :
    Traced env renv nw₀ (events ++ [.read k base after]) nw' := by
  obtain ⟨srv, srv', res, hk, hrun, rfl⟩ := read_cases hread
  have hdb := h.db ha
  have hclient (k' : ℕ) : (nw.afterRead renv k srv srv' res).clientAt k' =
      if k' = k then ⟨srv', res.map fun ret => decide (ret ≠ 0)⟩ else nw.clientAt k' :=
    clientAt_set hk k'
  have hat : nw.clientAt k = ⟨srv, .ok true⟩ := clientAt_of_some hk
  refine ⟨fun k' => ?_, ?_, fun ha' => ?_, h.ssl_config, ?_, ?_⟩
  · rw [readsOf_concat, ← h.link, hclient]
    by_cases hkk : k = k'
    · subst hkk
      have hserve := h.client k
      rw [hat] at hserve
      rw [readOf, if_pos rfl, if_pos rfl, ← hdb, Option.toList_some]
      rw [← hdb] at hserve
      rw [serve_concat hserve, hrun]
    · rw [readOf, if_neg hkk, if_neg (Ne.symm hkk), Option.toList_none, List.append_nil]
      exact h.client k'
  · rw [afterRead, List.length_set, h.count, List.countP_append]
    rfl
  · -- the database is still the same, since the read has returned
    have hok := ok_of_alive ha' (List.getElem?_set_self (List.getElem?_eq_some_iff.mp hk).1)
    cases res with
    | error e => cases hok
    | ok ret =>
      change srv'.session.store = nw₀.db
      rw [handleRead_store hrun, hdb]
  · rw [List.foldl_append, List.foldl_cons, List.foldl_nil, ← h.link]
    change (nw.afterRead renv k srv srv' res).link = nw.link
    rw [NetWorker.link, NetWorker.link, afterRead]
    cases nw.rpcClient with
    | none => rfl
    | some c => simp only [Option.map_some, socket_forward]
  · obtain ⟨actions, hnode, hsent, hcallbacks⟩ := h.node
    set queries := srv'.session.queries.drop srv.session.queries.length with hqueries
    refine ⟨actions ++ queries.map (.query k), ?_, fun k' => ?_, ?_⟩
    · change nw.rpcClient.map (forward renv queries) = _
      rw [hnode, Option.map_map]
      congr 1
      funext c
      rw [List.foldl_append, foldl_act_query]
      rfl
    · rw [List.filterMap_append, filterMap_queryOf, hsent, hclient]
      by_cases hkk : k' = k
      · subst hkk
        have hprefix := handleRead_queries env ⟨base, after, nw.db, nw.link⟩ srv
        rw [hrun] at hprefix
        rw [if_pos rfl, if_pos rfl, hat]
        exact List.prefix_iff_eq_append.mp hprefix
      · rw [if_neg hkk, if_neg hkk, List.append_nil]
    · rw [List.filterMap_append, filterMap_callback_query, List.append_nil, hcallbacks,
        List.filterMap_append]
      exact (List.append_nil _).symm

/-- A callback of the client of the node, which sets the socket as the link is told. -/
theorem Traced.rpcCallback (h : Traced env renv nw₀ events nw) (ha : nw.alive = true)
    {x : RPCM Unit} {a : Event} {action : NodeAction}
    (hread : ∀ db k link, readOf db k link a = none)
    (hnode : nodeAction a = some action) (haction : action.callback = some action)
    (hqueryOf : ∀ k, action.queryOf k = none) (haccepts : accepts a = false)
    (hact : ∀ c, action.act renv c = (x c).2)
    (hlink : ∀ c, linkAfter (if c.socket.isSome then .connected else .unconnected) a =
      if (x c).2.socket.isSome then .connected else .unconnected)
    (hcallback : nw.rpcCallback x = some nw') : Traced env renv nw₀ (events ++ [a]) nw' := by
  obtain ⟨c, hc, rfl⟩ := Option.map_eq_some_iff.mp hcallback
  refine ⟨fun k => ?_, ?_, fun _ => h.db ha, h.ssl_config, ?_, ?_⟩
  · rw [readsOf_concat, hread, Option.toList_none, List.append_nil]
    exact h.client k
  · rw [h.count, List.countP_append, List.countP_singleton, haccepts]
    rfl
  · rw [List.foldl_append, List.foldl_cons, List.foldl_nil, ← h.link, NetWorker.link,
      NetWorker.link, hc]
    exact (hlink c).symm
  · obtain ⟨actions, hnode', hsent, hcallbacks⟩ := h.node
    refine ⟨actions ++ [action], ?_, fun k => ?_, ?_⟩
    · rw [hc] at hnode'
      obtain ⟨c₀, hc₀, hfold⟩ := Option.map_eq_some_iff.mp hnode'.symm
      rw [hc₀, Option.map_some, List.foldl_append, hfold, List.foldl_cons, List.foldl_nil, hact]
    · simp only [List.filterMap_append, List.filterMap_cons, hqueryOf, List.filterMap_nil,
        List.append_nil]
      exact hsent k
    · simp [hcallbacks, haction, hnode]

/-- **One event** keeps the parts apart. -/
theorem Traced.step (h : Traced env renv nw₀ events nw) {a : Event}
    (hstep : step env renv a nw = some nw') : Traced env renv nw₀ (events ++ [a]) nw' := by
  unfold NetWorker.step at hstep
  split_ifs at hstep with ha
  rw [Bool.not_eq_false] at ha
  cases a with
  | onConnect status accept =>
    obtain rfl := Option.some.inj hstep
    exact h.onConnect status accept
  | read k base after => exact h.read ha hstep
  | rpcConnect handle status read_start =>
    refine h.rpcCallback ha (fun _ _ _ => rfl) rfl rfl (fun _ => rfl) rfl (fun _ => rfl)
      (fun c => ?_) hstep
    rw [socket_onConnect]
    by_cases hstatus : status = 0
    · cases c.socket <;> simp [linkAfter, hstatus]
    · cases c.socket <;> simp [linkAfter, hstatus]
  | rpcRead nread fragments =>
    refine h.rpcCallback ha (fun _ _ _ => rfl) rfl rfl (fun _ => rfl) rfl (fun _ => rfl)
      (fun c => ?_) hstep
    rw [(sameConnection_onRead renv c nread fragments).2.1]
    rfl

end Traced

/-- **The parts of the server do not get in each other's way**, in any run. -/
theorem parts_of_runs {env : Env} {renv : RPCEnv} {nw₀ nw : NetWorker lib} {events : List Event}
    (h₀ : nw₀.clients = []) (hrun : Runs (step env renv) nw₀ events nw) :
    Parts env renv nw₀ events nw := by
  have h : Traced env renv nw₀ events nw := by
    induction events using List.reverseRecOn generalizing nw with
    | nil =>
      obtain rfl : nw₀ = nw := hrun
      exact traced_start env renv h₀
    | append_singleton events a ih =>
      obtain ⟨nw₁, hrun, hstep⟩ := runs_concat_iff.mp hrun
      exact (ih hrun).step hstep
  refine ⟨fun k client hk => ?_, h.count, h.db, ?_⟩
  · rw [h.client k, clientAt_of_some hk]
  · obtain ⟨actions, hnode, hsent, hcallbacks⟩ := h.node
    refine ⟨actions, hnode, fun k client hk => ?_, hcallbacks⟩
    rw [hsent, clientAt_of_some hk]

/-- TLS and a node. -/
def tlsConfig : Config :=
  ⟨ascii "cert.pem", ascii "key.pem", ascii "127.0.0.1", 8332, ascii "user", ascii "pass"⟩

/-- Every call of the constructor succeeds. -/
def noErrors : InitCodes := ⟨0, 0, 0, 0, 0, ⟨0, 0, 0⟩⟩

/-- A worker with TLS and a node. -/
def tlsWorker : NetWorker nullCipher := new .fresh tlsConfig noErrors

/-- Two connections: one shakes hands, the other is closed in between. -/
def twoConnections : List Event :=
  [.onConnect 0 0, .rpcConnect 7 0 0, .onConnect 0 0, .read 0 helloRead.base [], .read 1 [] [],
    .read 0 finishedRead.base []]

/-- They do not get in each other's way. -/
theorem parts_of_runs_twoConnections : ∃ nw,
    Runs (step pingEnv firstEnv) tlsWorker twoConnections nw ∧
      Parts pingEnv firstEnv tlsWorker twoConnections nw := by
  have htaken : (twoConnections.foldlM (fun nw a => step pingEnv firstEnv a nw)
    tlsWorker).isSome = true := by decide +kernel
  obtain ⟨nw, hnw⟩ := Option.isSome_iff_exists.mp htaken
  have hrun := runs_iff_foldlM.mpr hnw
  exact ⟨nw, hrun, parts_of_runs rfl hrun⟩

end NetWorker

end ElectrumZ.Net
