import ElectrumZ.Bitcoin.StrEncodings
import ElectrumZ.Foundations.Action
import ElectrumZ.Foundations.Json
import Mathlib.Data.List.AList

/-!
# The client of the node

`RPCClient`: the connection to the node, the queries that wait for a response, and the callbacks of
libuv and of the HTTP parser. What has happened to the client is recorded in `log`, in order: the
queries that were registered, the responses that were handled, the results handed to a promise, and
the requests handed to libuv.

A promise is known by its number among those that were made, and the future of a query by that of
its promise. A response the parser has taken apart is a list of the fragments of its body.

* `handleResponse_cases`: what a response does.
-/

namespace ElectrumZ.Net

open Foundations Bitcoin

/-- The states of the connection to the node. -/
inductive RPCClientState
  | init
  | connecting
  | connected
  | disconnecting
  | disconnected
  deriving DecidableEq, Repr

/-- A query that waits for its response. -/
structure RPCQuery where
  id : ℤ
  /-- The promise. -/
  result : ℕ
  deriving DecidableEq, Repr

/-- What happens to the client. -/
inductive RPCEvent
  | added (q : RPCQuery)
  | response (j : Json)
  | set (promise : ℕ) (data : Json)
  | write (state : RPCClientState) (socket : Option ℕ) (query : Json) (buf : Bytes)

/-- The client of the node. -/
structure RPCClient where
  state : RPCClientState
  /-- The handle, unless it is null. -/
  socket : Option ℕ
  username : Bytes
  password : Bytes
  queryMap : AList fun _ : ℤ => RPCQuery
  cmdId : ℤ
  /-- What the promises have been given. -/
  promises : List (Option Json)
  log : List RPCEvent

/-- How a function of the client fails to return: with an exception of the JSON parser, with another
one of the JSON library, with one of a promise that has a result already, or at a null pointer. -/
inductive RPCFault
  | parse
  | json
  | future
  | null
  deriving DecidableEq, Repr

/-- What the client takes from libraries: the JSON parser, the encoder of the requests, the
conversion of an id by `get<int>()`, which casts an integer, and what `uv_write` returns. -/
structure RPCEnv where
  parse : Bytes → Option Json
  dump : Json → Bytes
  getInt : Json → Option ℤ
  getInt_int : ∀ n, getInt (.int n) = some (Json.toInt32 n)
  uvWrite : List RPCEvent → ℤ

/-- What a function of the client does. -/
abbrev RPCM := Action RPCFault RPCClient

namespace RPCClient

/-- The constructor. -/
def new (username password : Bytes) : RPCClient where
  state := .init
  socket := none
  username := username
  password := password
  queryMap := ∅
  cmdId := 0
  promises := []
  log := []

/-! ## Queries and responses -/

/-- An access to a JSON value, which may throw. -/
def access {α : Type} (x : Option α) : RPCM α :=
  match x with
  | some a => pure a
  | none => Action.fail .json

/-- `emplace` of a map, which keeps the value of a key that is there. -/
def emplace (key : ℤ) (q : RPCQuery) (m : AList fun _ : ℤ => RPCQuery) :
    AList fun _ : ℤ => RPCQuery :=
  if (m.lookup key).isSome then m else m.insert key q

/-- `cmdId++`. -/
def nextId : RPCM ℤ := fun c => (.ok c.cmdId, { c with cmdId := Json.toInt32 (c.cmdId + 1) })

/-- A new promise. -/
def makePromise : RPCM ℕ := fun c =>
  (.ok c.promises.length, { c with promises := c.promises ++ [none] })

/-- `AddQuery`. -/
def addQuery (q : RPCQuery) : RPCM Unit := Action.update fun c =>
  { c with queryMap := emplace q.id q c.queryMap, log := c.log ++ [.added q] }

/-- `set_value`, which throws if the promise has a value. -/
def setValue (promise : ℕ) (data : Json) : RPCM Unit := fun c =>
  let c := { c with log := c.log ++ [.set promise data] }
  match c.promises[promise]? with
  | some none => (.ok (), { c with promises := c.promises.set promise (some data) })
  | _ => (.error .future, c)

/-- `CompleteQuery`: the promise of the query gets the result, and the query is retired. -/
def completeQuery (id : ℤ) (data : Json) : RPCM Unit := do
  let itr ← Action.look fun c => c.queryMap.lookup id
  match itr with
  | some q => do
    setValue q.result data
    Action.update fun c => { c with queryMap := c.queryMap.erase id }
  | none => pure ()

variable (env : RPCEnv)

/-- `HandleResponse`, after the response has been recorded. -/
def handleRecorded (j : Json) : RPCM ℤ := do
  let error ← access (j.atMember "error")
  if error.isNull = false then return 0
  let id ← access (j.member "id")
  let id ← access (env.getInt id)
  let result ← access (j.member "result")
  completeQuery id result
  return 1

/-- `HandleResponse`. -/
def handleResponse (j : Json) : RPCM ℤ := do
  Action.update fun c => { c with log := c.log ++ [.response j] }
  handleRecorded env j

/-! ## Writing -/

/-- The header of a request. -/
def header (c : RPCClient) (len : ℕ) : Bytes :=
  ascii "POST / HTTP/1.1\r\nContent-Type: application/json\r\nContent-Length: " ++
    ascii (Nat.repr len) ++ ascii "\r\nConnection: keep-alive\r\nAuthorization: Basic " ++
    encodeBase64 (c.username ++ ascii ":" ++ c.password) ++ ascii "\r\n\r\n"

/-- `WriteInternal`: without a socket `uv_write` is called on a null pointer. -/
def writeInternal (j : Json) : RPCM ℤ := fun c =>
  let d := env.dump j
  let c := { c with
    log := c.log ++ [RPCEvent.write c.state c.socket j (c.header d.length ++ d)] }
  match c.socket with
  | some _ => (.ok (env.uvWrite c.log), c)
  | none => (.error .null, c)

/-- The request of a query with an id. -/
def request (id : ℤ) (j : Json) : Option Json := do
  let j ← j.setMember "id" (.int id)
  j.setMember "jsonrpc" (.str "2.0")

/-- `SendQuery`. -/
def sendQuery (j : Json) : RPCM ℕ := do
  let id ← nextId
  let ft ← makePromise
  addQuery ⟨id, ft⟩
  let j ← access (request id j)
  let _ ← writeInternal env j
  return ft

/-- `Query` without parameters. -/
def query (method : String) : RPCM ℕ := sendQuery env (.ofBraces [.field "method" (.str method)])

/-- `Query` with one parameter, which stands where the parameters would. -/
def queryOne (method : String) (args : Json) : RPCM ℕ :=
  sendQuery env (.ofBraces [.field "method" (.str method), .field "params" args])

/-- `Query` with several parameters. -/
def queryWith (method : String) (args : List Json) : RPCM ℕ :=
  sendQuery env (.ofBraces [.field "method" (.str method), .field "params" (.ofBraces args)])

/-- The `Query` that overload resolution selects. -/
def queryArgs (method : String) : List Json → RPCM ℕ
  | [] => query env method
  | [args] => queryOne env method args
  | args => queryWith env method args

/-! ## The connection -/

/-- `SetState`. -/
def setState (ns : RPCClientState) : RPCM Unit := Action.update fun c => { c with state := ns }

/-- What `uv_tcp_init`, `uv_ip4_addr` and `uv_tcp_connect` return to `Connect`. -/
structure ConnectCodes where
  tcp_init : ℤ
  ip4_addr : ℤ
  tcp_connect : ℤ

/-- `Connect`, unless the client is connected or about to be. -/
def connect (codes : ConnectCodes) : RPCM Unit := do
  let state ← Action.look RPCClient.state
  if state ≠ .init ∧ state ≠ .disconnected then return ()
  setState .connecting
  if codes.tcp_init ≠ 0 then setState .disconnected
  else if codes.ip4_addr ≠ 0 then setState .disconnected
  else if codes.tcp_connect ≠ 0 then setState .disconnected

/-- The connect callback, with the handle of the request and what `uv_read_start` returns. -/
def onConnect (handle : ℕ) (status read_start : ℤ) : RPCM Unit := do
  if status ≠ 0 then setState .disconnected
  else do
    Action.update fun c => { c with socket := some handle }
    setState .connected
    if read_start ≠ 0 then setState .disconnected
    else do
      let _ ← query env "getblockchaininfo"

/-- `json::parse`, which may throw. -/
def parse (fragment : Bytes) : RPCM Json :=
  match env.parse fragment with
  | some j => pure j
  | none => Action.fail .parse

/-- `http_on_body`. -/
def onBody (fragment : Bytes) : RPCM Unit := do
  let json_body ← parse env fragment
  let _ ← handleResponse env json_body

/-- `HandleRead`, with the fragments of bodies that the HTTP parser finds. -/
def handleRead : List Bytes → RPCM ℤ
  | [] => pure 1
  | fragment :: fragments => do
    onBody env fragment
    handleRead fragments

/-- The read callback. -/
def onRead (nread : ℤ) (fragments : List Bytes) : RPCM Unit := do
  if nread ≤ 0 then return ()
  let _ ← handleRead env fragments

/-! ## What a response does -/

/-- The response reports no error. -/
def Success (j : Json) : Prop := j.atMember "error" = some .null

/-- The response carries the id. -/
def Carries (j : Json) (id : ℤ) : Prop := j.member "id" = some (.int id)

/-- The client after a response has been recorded. -/
def received (j : Json) (c : RPCClient) : RPCClient := { c with log := c.log ++ [.response j] }

/-- The client after a query has been given its result. -/
def completed (id : ℤ) (q : RPCQuery) (data : Json) (c : RPCClient) : RPCClient :=
  { c with
    log := c.log ++ [.set q.result data]
    promises := c.promises.set q.result (some data)
    queryMap := c.queryMap.erase id }

/-- The response completes the query with the id, if it is pending. -/
def Answers (j : Json) (id : ℤ) : Prop :=
  Success j ∧ ∃ v, j.member "id" = some v ∧ env.getInt v = some id

variable {env} {c : RPCClient} {j data : Json} {id : ℤ} {q : RPCQuery}

@[simp] theorem received_log : (received j c).log = c.log ++ [.response j] := rfl

@[simp] theorem received_promises : (received j c).promises = c.promises := rfl

@[simp] theorem received_queryMap : (received j c).queryMap = c.queryMap := rfl

@[simp] theorem completed_log : (completed id q data c).log = c.log ++ [.set q.result data] := rfl

@[simp] theorem completed_promises :
    (completed id q data c).promises = c.promises.set q.result (some data) := rfl

@[simp] theorem completed_queryMap : (completed id q data c).queryMap = c.queryMap.erase id := rfl

theorem answers_of_carries (hj : Success j) (h : Carries j id) (hint : Json.toInt32 id = id) :
    Answers env j id := by
  refine ⟨hj, _, h, ?_⟩
  rw [env.getInt_int, hint]

theorem Carries.unique {id id' : ℤ} (h : Carries j id) (h' : Carries j id') : id = id' :=
  Json.int.inj (Option.some.inj (h.symm.trans h'))

theorem Answers.unique {id' : ℤ} (h : Answers env j id) (h' : Answers env j id') : id = id' := by
  obtain ⟨-, v, hv, hid⟩ := h
  obtain ⟨-, v', hv', hid'⟩ := h'
  obtain rfl := Option.some.inj (hv.symm.trans hv')
  exact Option.some.inj (hid.symm.trans hid')

theorem lookup_emplace (m : AList fun _ : ℤ => RPCQuery) (key : ℤ) (q : RPCQuery) (id : ℤ) :
    (emplace key q m).lookup id =
      if id = key ∧ m.lookup key = none then some q else m.lookup id := by
  rw [emplace]
  cases hkey : m.lookup key with
  | none =>
    by_cases hid : id = key
    · subst hid
      simp
    · simp [hid]
  | some q' => simp

theorem lookup_erase (m : AList fun _ : ℤ => RPCQuery) (key id : ℤ) :
    (m.erase key).lookup id = if id = key then none else m.lookup id := by
  by_cases hid : id = key
  · subst hid
    simp
  · simp [hid]

theorem run_access_some {α : Type} (a : α) (c : RPCClient) : access (some a) c = (.ok a, c) := rfl

theorem completeQuery_of_none (h : c.queryMap.lookup id = none) :
    completeQuery id data c = (.ok (), c) := by
  rw [completeQuery, Action.bind_of_ok (Action.run_look _ _), h]
  rfl

theorem completeQuery_of_some (h : c.queryMap.lookup id = some q)
    (hpromise : c.promises[q.result]? = some none) :
    completeQuery id data c = (.ok (), completed id q data c) := by
  have hset : setValue q.result data c = (.ok (), { c with
      log := c.log ++ [.set q.result data], promises := c.promises.set q.result (some data) }) := by
    rw [setValue]
    simp only [hpromise]
  rw [completeQuery, Action.bind_of_ok (Action.run_look _ _), h]
  exact Action.bind_of_ok hset

/-- A response with an error is dropped. -/
theorem handleResponse_of_error {error : Json} (h : j.atMember "error" = some error)
    (herror : error.isNull = false) : handleResponse env j c = (.ok 0, received j c) := by
  rw [handleResponse, Action.bind_of_ok (Action.run_update _ _), handleRecorded, h,
    Action.bind_of_ok (run_access_some _ _), if_pos herror]
  rfl

/-- A response without the member `error` throws. -/
theorem handleResponse_of_none (h : j.atMember "error" = none) :
    handleResponse env j c = (.error .json, received j c) := by
  rw [handleResponse, Action.bind_of_ok (Action.run_update _ _), handleRecorded, h]
  rfl

variable (env c) in
/-- A response without an error completes the query its id is converted to, or throws. -/
theorem handleResponse_of_success (h : Success j) : ∃ v data, j.member "id" = some v ∧
    j.member "result" = some data ∧ handleResponse env j c = match env.getInt v with
      | none => (.error .json, received j c)
      | some id => (completeQuery id data >>= fun _ => pure 1) (received j c) := by
  obtain ⟨members, rfl⟩ : ∃ members, j = .obj members := by
    cases j with
    | obj members => exact ⟨members, rfl⟩
    | _ => exact nomatch h
  refine ⟨_, _, rfl, rfl, ?_⟩
  rw [handleResponse, Action.bind_of_ok (Action.run_update _ _), handleRecorded, h,
    Action.bind_of_ok (run_access_some _ _), if_neg (by decide), Json.member,
    Action.bind_of_ok (run_access_some _ _)]
  cases env.getInt ((members.lookup "id").getD .null) with
  | none => rfl
  | some id =>
    rw [Action.bind_of_ok (run_access_some _ _), Json.member,
      Action.bind_of_ok (run_access_some _ _)]
    rfl

variable (env c) in
/-- A response that is no success throws or is dropped. -/
theorem handleResponse_of_not_success (h : ¬ Success j) :
    (handleResponse env j c).2 = received j c ∧ (handleResponse env j c).1 ≠ .ok 1 := by
  cases herror : j.atMember "error" with
  | none =>
    rw [handleResponse_of_none herror]
    exact ⟨rfl, nofun⟩
  | some error =>
    have hnull : error.isNull = false := by
      cases error with
      | null => exact absurd herror h
      | _ => rfl
    rw [handleResponse_of_error herror hnull]
    exact ⟨rfl, by simp⟩

/-- **What a response does**, if the queries that are pending have no result yet: it completes the
query it answers, and nothing else happens. -/
theorem handleResponse_cases (env : RPCEnv) (j : Json)
    (hwaiting : ∀ id q, c.queryMap.lookup id = some q → c.promises[q.result]? = some none) :
    (∃ id q data, Answers env j id ∧ j.member "result" = some data ∧
      c.queryMap.lookup id = some q ∧
      handleResponse env j c = (.ok 1, completed id q data (received j c))) ∨
    ((handleResponse env j c).2 = received j c ∧
      ∀ id, Answers env j id → c.queryMap.lookup id = none) := by
  by_cases hj : Success j
  · obtain ⟨v, data, hv, hdata, hrun⟩ := handleResponse_of_success env c hj
    cases hid : env.getInt v with
    | none =>
      rw [hid] at hrun
      refine .inr ⟨by rw [hrun], fun id hanswers => ?_⟩
      obtain ⟨-, v', hv', hid'⟩ := hanswers
      obtain rfl := Option.some.inj (hv.symm.trans hv')
      exact absurd (hid.symm.trans hid') nofun
    | some id =>
      replace hrun : handleResponse env j c =
          (completeQuery id data >>= fun _ => pure 1) (received j c) := by
        rw [hrun, hid]
      cases hlookup : c.queryMap.lookup id with
      | none =>
        refine .inr ⟨?_, fun id' hanswers => ?_⟩
        · rw [hrun, Action.bind_of_ok (completeQuery_of_none (c := received j c) hlookup)]
          rfl
        · obtain ⟨-, v', hv', hid'⟩ := hanswers
          obtain rfl := Option.some.inj (hv.symm.trans hv')
          obtain rfl := Option.some.inj (hid.symm.trans hid')
          exact hlookup
      | some q =>
        refine .inl ⟨id, q, data, ⟨hj, v, hv, hid⟩, hdata, hlookup, ?_⟩
        have hpromise : (received j c).promises[q.result]? = some none := hwaiting _ _ hlookup
        rw [hrun, Action.bind_of_ok 
          (completeQuery_of_some (c := received j c) hlookup hpromise)]
        rfl
  · refine .inr ⟨(handleResponse_of_not_success env c hj).1, fun id hanswers => ?_⟩
    exact absurd hanswers.1 hj

/-! ## What a query does -/

/-- The client after a query has been registered. -/
def registered (q : RPCQuery) (c : RPCClient) : RPCClient :=
  { c with
    promises := c.promises ++ [none]
    queryMap := emplace q.id q c.queryMap
    log := c.log ++ [.added q] }

/-- The client after a request has been handed to `uv_write`. -/
def sent (j : Json) (buf : Bytes) (c : RPCClient) : RPCClient :=
  { c with log := c.log ++ [RPCEvent.write c.state c.socket j buf] }

@[simp] theorem registered_promises (q : RPCQuery) (c : RPCClient) :
    (registered q c).promises = c.promises ++ [none] := rfl

@[simp] theorem registered_queryMap (q : RPCQuery) (c : RPCClient) :
    (registered q c).queryMap = emplace q.id q c.queryMap := rfl

@[simp] theorem registered_log (q : RPCQuery) (c : RPCClient) :
    (registered q c).log = c.log ++ [.added q] := rfl

@[simp] theorem sent_log (j : Json) (buf : Bytes) (c : RPCClient) :
    (sent j buf c).log = c.log ++ [RPCEvent.write c.state c.socket j buf] := rfl

variable (env) in
theorem writeInternal_snd (j : Json) (c : RPCClient) :
    ∃ buf, (writeInternal env j c).2 = sent j buf c := by
  refine ⟨c.header (env.dump j).length ++ env.dump j, ?_⟩
  obtain ⟨state, socket, username, password, queryMap, cmdId, promises, log⟩ := c
  cases socket <;> rfl

/-- The request of an object carries the id. -/
theorem request_obj (id : ℤ) (members : List (String × Json)) :
    ∃ j, request id (.obj members) = some j ∧ Carries j id := by
  obtain ⟨members₁, hset₁, hlookup₁, -⟩ := Json.setMember_obj "id" (.int id) members
  obtain ⟨members₂, hset₂, -, hother₂⟩ := Json.setMember_obj "jsonrpc" (.str "2.0") members₁
  refine ⟨.obj members₂, ?_, ?_⟩
  · rw [request, hset₁]
    exact hset₂
  · rw [Carries, Json.member, hother₂ "id" (by decide), hlookup₁]
    rfl

/-- **What `SendQuery` does** with an object: it registers the query and writes its request. -/
theorem sendQuery_snd {members : List (String × Json)} (env : RPCEnv)
    (hj : request c.cmdId (.obj members) = some j) : (sendQuery env (.obj members) c).2 =
      (writeInternal env j (registered ⟨c.cmdId, c.promises.length⟩ (nextId c).2)).2 := by
  let q : RPCQuery := ⟨c.cmdId, c.promises.length⟩
  have hnext : nextId c = (.ok c.cmdId, (nextId c).2) := rfl
  have hpromise : makePromise (nextId c).2 = (.ok q.result, (makePromise (nextId c).2).2) := rfl
  have hadd : addQuery q (makePromise (nextId c).2).2 = (.ok (), registered q (nextId c).2) := rfl
  rw [sendQuery, Action.bind_of_ok hnext, Action.bind_of_ok hpromise, Action.bind_of_ok hadd, hj,
    Action.bind_of_ok (run_access_some _ _)]
  exact Action.snd_bind_pure _ _ _

/-- A query leaves the connection as it is, and hands its request to `uv_write` in that state. -/
theorem sendQuery_writes (env : RPCEnv) (members : List (String × Json)) (c : RPCClient) :
    ∃ q j buf, (sendQuery env (.obj members) c).2 = sent j buf (registered q (nextId c).2) := by
  obtain ⟨j, hj, -⟩ := request_obj c.cmdId members
  obtain ⟨buf, hbuf⟩ :=
    writeInternal_snd env j (registered ⟨c.cmdId, c.promises.length⟩ (nextId c).2)
  exact ⟨_, j, buf, (sendQuery_snd env hj).trans hbuf⟩

/-- The request object that `Query` builds. -/
def command (method : String) (args : List Json) : List (String × Json) :=
  ("method", .str method) ::
    match args with
    | [] => []
    | [args] => [("params", args)]
    | args => [("params", .ofBraces args)]

/-- The overloads differ in the request object only. -/
theorem queryArgs_eq (env : RPCEnv) (method : String) (args : List Json) :
    queryArgs env method args = sendQuery env (.obj (command method args)) := by
  rcases args with _ | ⟨arg, _ | ⟨arg', args⟩⟩ <;> rfl

end RPCClient

/-- A client whose first query is `getblockchaininfo`. -/
def firstEnv : RPCEnv where
  parse := fun _ => none
  dump := fun _ => ascii "\x7b\"id\":0,\"jsonrpc\":\"2.0\",\"method\":\"getblockchaininfo\"\x7d"
  getInt := Json.getInt
  getInt_int := Json.getInt_int
  uvWrite := fun _ => 0

end ElectrumZ.Net
