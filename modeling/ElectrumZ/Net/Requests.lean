import ElectrumZ.Foundations.Http
import ElectrumZ.Net.RPCClient

/-!
# The requests of the client

What `Query` puts into a request, and what `WriteInternal` writes to the connection.

* `query_params_iff`: when the parameters of a request are the array of the arguments. One
  argument is not put into an array, and arguments that all look like members make an object.
* `requests_read_back`: the requests on the connection are read back, with their bodies and the
  credentials.
-/

namespace ElectrumZ.Net.RPCClient

open Foundations Bitcoin

/-! ## Parameters -/

/-- The request calls the method with the array of the arguments. -/
def IsCall (method : String) (args : List Json) (j : Json) : Prop :=
  j.atMember "method" = some (.str method) ∧ j.atMember "params" = some (.arr args)

variable {method : String} {args : List Json}

theorem isCall_command_iff (arg : Json) (args : List Json) :
    IsCall method (arg :: args) (.obj (command method (arg :: args))) ↔
      args ≠ [] ∧ ∃ a ∈ arg :: args, a.pair? = none := by
  cases args with
  | nil =>
    refine iff_of_false (fun h => ?_) fun h => h.1 rfl
    have hself : arg = .arr [arg] := Option.some.inj h.2
    exact absurd (congrArg sizeOf hself) (by simp; omega)
  | cons arg' args =>
    rw [← Json.ofBraces_eq_arr_iff]
    constructor
    · exact fun h => ⟨List.cons_ne_nil _ _, Option.some.inj h.2⟩
    · exact fun h => ⟨rfl, congrArg some h.2⟩

/-- `SendQuery` leaves the method and the parameters as they are. -/
theorem isCall_request {id : ℤ} {members : List (String × Json)} {j : Json}
    (h : request id (.obj members) = some j) :
    IsCall method args j ↔ IsCall method args (.obj members) := by
  obtain ⟨members₁, hset₁, -, hother₁⟩ := Json.setMember_obj "id" (.int id) members
  obtain ⟨members₂, hset₂, -, hother₂⟩ := Json.setMember_obj "jsonrpc" (.str "2.0") members₁
  obtain rfl : .obj members₂ = j := by
    rw [request, hset₁] at h
    exact Option.some.inj (hset₂.symm.trans h)
  simp only [IsCall, Json.atMember]
  rw [hother₂ "method" (by decide), hother₁ "method" (by decide), hother₂ "params" (by decide),
    hother₁ "params" (by decide)]

/-- **When the parameters are the array of the arguments**, in the request object that `Query`
builds and in the request that `SendQuery` makes of it. -/
theorem query_params_iff (env : RPCEnv) (method : String) (arg : Json) (args : List Json)
    (id : ℤ) :
    queryArgs env method (arg :: args) =
        sendQuery env (.obj (command method (arg :: args))) ∧
      (IsCall method (arg :: args) (.obj (command method (arg :: args))) ↔
        args ≠ [] ∧ ∃ a ∈ arg :: args, a.pair? = none) ∧
      ∃ j, request id (.obj (command method (arg :: args))) = some j ∧
        (IsCall method (arg :: args) j ↔ args ≠ [] ∧ ∃ a ∈ arg :: args, a.pair? = none) := by
  obtain ⟨j, hj, -⟩ := request_obj id (command method (arg :: args))
  refine ⟨queryArgs_eq env method _, isCall_command_iff arg args, j, hj, ?_⟩
  rw [isCall_request hj, isCall_command_iff]

/-- The height alone is no array. -/
theorem not_isCall_height : ¬ ∀ (method : String) (arg : Json) (args : List Json),
    IsCall method (arg :: args) (.obj (command method (arg :: args))) := by
  intro h
  have hparams := Option.some.inj (h "getblockhash" (.int 100) []).2
  exact nomatch hparams

/-! ## The stream of requests -/

/-- The request `WriteInternal` writes. -/
def httpRequest (username password d : Bytes) : HttpRequest where
  lines := [ascii "POST / HTTP/1.1", ascii "Content-Type: application/json",
    ascii "Content-Length: " ++ ascii (Nat.repr d.length), ascii "Connection: keep-alive",
    ascii "Authorization: Basic " ++ base64 (username ++ ascii ":" ++ password)]
  body := d

/-- The credentials of a request, decoded. -/
def credentials (r : HttpRequest) : Option Bytes := do
  let value ← field (ascii "Authorization") r.lines
  if value.take 6 = ascii "Basic " then decodeBase64 (value.drop 6) else none

theorem bytes_httpRequest (c : RPCClient) (d : Bytes) :
    c.header d.length ++ d = (httpRequest c.username c.password d).bytes := by
  have h₁ : ascii "POST / HTTP/1.1\r\nContent-Type: application/json\r\nContent-Length: " =
      ascii "POST / HTTP/1.1" ++ (crlf ++ (ascii "Content-Type: application/json" ++
        (crlf ++ ascii "Content-Length: "))) := by decide
  have h₂ : ascii "\r\nConnection: keep-alive\r\nAuthorization: Basic " =
      crlf ++ (ascii "Connection: keep-alive" ++ (crlf ++ ascii "Authorization: Basic ")) := by
    decide
  have h₃ : ascii "\r\n\r\n" = crlf ++ crlf := by decide
  rw [header, encodeBase64_eq, h₁, h₂, h₃]
  simp [HttpRequest.bytes, httpRequest]

variable (username password d : Bytes)

/-- The digits of a length. -/
theorem repr_spec (n : ℕ) : ∀ b ∈ ascii (Nat.repr n), 0x30 ≤ b := by
  intro b hb
  obtain ⟨c, hc, rfl⟩ := List.mem_map.mp hb
  rw [Nat.toList_repr] at hc
  exact (isDigit_toUInt8 (Nat.isDigit_of_mem_toDigits (by decide) (by decide) hc)).1

theorem wellFormed_httpRequest : (httpRequest username password d).WellFormed where
  lines := by
    have hrepr : 0x0d ∉ ascii (Nat.repr d.length) :=
      fun h => absurd (repr_spec d.length _ h) (by decide)
    have hbase64 : 0x0d ∉ base64 (username ++ ascii ":" ++ password) :=
      fun h => absurd (lt_of_mem_base64 h) (by decide)
    have hlength : 0x0d ∉ ascii "Content-Length: " := by decide
    have hauthorization : 0x0d ∉ ascii "Authorization: Basic " := by decide
    simp only [httpRequest, List.forall_mem_cons]
    refine ⟨by decide, by decide, ⟨List.append_ne_nil_of_left_ne_nil (by decide) _, ?_⟩, by decide,
      ⟨List.append_ne_nil_of_left_ne_nil (by decide) _, ?_⟩, by simp⟩
    · exact fun h => (List.mem_append.mp h).elim hlength hrepr
    · exact fun h => (List.mem_append.mp h).elim hauthorization hbase64
  length := by
    have hvalue : (ascii (Nat.repr d.length)).head? ≠ some 0x20 := fun h =>
      absurd (repr_spec d.length _ (List.mem_of_mem_head? h)) (by decide)
    have htype : fieldOf (ascii "Content-Length") (ascii "Content-Type: application/json") =
        none := by
      decide
    have hname : 0x3a ∉ ascii "Content-Length" := by decide
    have hfield := fieldOf_self hname hvalue
    rw [contentLength, field, httpRequest, List.tail_cons, List.findSome?_cons, htype,
      List.findSome?_cons]
    have hline : ascii "Content-Length: " ++ ascii (Nat.repr d.length) =
        ascii "Content-Length" ++ 0x3a :: 0x20 :: ascii (Nat.repr d.length) := rfl
    rw [hline, hfield]
    exact ofDecimal_repr d.length

theorem credentials_httpRequest :
    credentials (httpRequest username password d) = some (username ++ ascii ":" ++ password) := by
  have hother : ∀ line ∈ [ascii "Content-Type: application/json",
      ascii "Content-Length: " ++ ascii (Nat.repr d.length), ascii "Connection: keep-alive"],
      fieldOf (ascii "Authorization") line = none := by
    simp only [List.forall_mem_cons]
    have hname : 0x3a ∉ ascii "Content-Length" := by decide
    exact ⟨by decide, fieldOf_colon _ hname _, by decide, by simp⟩
  have hname : 0x3a ∉ ascii "Authorization" := by decide
  have hself : fieldOf (ascii "Authorization") (ascii "Authorization: Basic " ++
      base64 (username ++ ascii ":" ++ password)) =
        some (ascii "Basic " ++ base64 (username ++ ascii ":" ++ password)) :=
    fieldOf_self hname nofun
  have hfield : field (ascii "Authorization") (httpRequest username password d).lines =
      some (ascii "Basic " ++ base64 (username ++ ascii ":" ++ password)) := by
    simp only [List.forall_mem_cons] at hother
    obtain ⟨h₁, h₂, h₃, -⟩ := hother
    simp only [field, httpRequest, List.tail_cons, List.findSome?_cons, h₁, h₂, h₃, hself]
  have hlength : (ascii "Basic ").length = 6 := rfl
  unfold credentials
  rw [hfield, Option.bind_eq_bind, Option.bind_some, if_pos (List.take_left' hlength),
    List.drop_left' hlength, decodeBase64_base64]

/-! ### Runs -/

/-- The bytes handed to `uv_write`. -/
def wire (log : List RPCEvent) : Bytes :=
  log.flatMap fun
    | .write _ _ _ buf => buf
    | _ => []

/-- Queries, one after another. -/
def run (env : RPCEnv) : List (String × List Json) → RPCClient → RPCClient
  | [], c => c
  | (method, args) :: calls, c => run env calls (queryArgs env method args c).2

/-- The JSON bodies of the queries, of which the first has the id. -/
def bodies (env : RPCEnv) : ℤ → List (String × List Json) → List Bytes
  | _, [] => []
  | id, (method, args) :: calls =>
    env.dump ((request id (.obj (command method args))).getD .null) ::
      bodies env (Json.toInt32 (id + 1)) calls

theorem wire_append (log log' : List RPCEvent) : wire (log ++ log') = wire log ++ wire log' :=
  List.flatMap_append

/-- A query writes its request. -/
theorem queryArgs_spec (env : RPCEnv) (method : String) (args : List Json) (c : RPCClient) :
    wire (queryArgs env method args c).2.log = wire c.log ++ (httpRequest c.username c.password
        (env.dump ((request c.cmdId (.obj (command method args))).getD .null))).bytes ∧
      (queryArgs env method args c).2.username = c.username ∧
      (queryArgs env method args c).2.password = c.password ∧
      (queryArgs env method args c).2.cmdId = Json.toInt32 (c.cmdId + 1) := by
  obtain ⟨j, hj, -⟩ := request_obj c.cmdId (command method args)
  have hwrite : (queryArgs env method args c).2 =
      sent j (c.header (env.dump j).length ++ env.dump j)
        (registered ⟨c.cmdId, c.promises.length⟩ (nextId c).2) := by
    rw [queryArgs_eq, sendQuery_snd env hj]
    obtain ⟨state, socket, username, password, queryMap, cmdId, promises, log⟩ := c
    cases socket <;> rfl
  rw [hwrite, hj, Option.getD_some, bytes_httpRequest]
  refine ⟨?_, rfl, rfl, rfl⟩
  rw [sent_log, registered_log, wire_append, wire_append]
  simp [wire, nextId]

theorem wire_run (env : RPCEnv) (calls : List (String × List Json)) (c : RPCClient) :
    wire (run env calls c).log = wire c.log ++
      ((bodies env c.cmdId calls).map (httpRequest c.username c.password)).flatMap
        HttpRequest.bytes := by
  induction calls generalizing c with
  | nil => simp [run, bodies]
  | cons call calls ih =>
    obtain ⟨method, args⟩ := call
    obtain ⟨hwire, husername, hpassword, hid⟩ := queryArgs_spec env method args c
    rw [run, ih, hwire, husername, hpassword, hid, bodies, List.map_cons, List.flatMap_cons,
      List.append_assoc]

/-- A client with a connection. -/
def connectedTo (handle : ℕ) (username password : Bytes) : RPCClient :=
  { new username password with state := .connected, socket := some handle }

/-- **What the client writes is read back**: the requests have the bodies of the queries, in order,
and carry the credentials, and nothing is left over. -/
theorem requests_read_back (env : RPCEnv) (handle : ℕ) (username password : Bytes)
    (calls : List (String × List Json)) :
    ∃ rs,
      readRequests (wire (run env calls (connectedTo handle username password)).log) = some rs ∧
      rs.map HttpRequest.body = bodies env 0 calls ∧
      ∀ r ∈ rs, credentials r = some (username ++ ascii ":" ++ password) := by
  refine ⟨(bodies env 0 calls).map (httpRequest username password), ?_, ?_, ?_⟩
  · rw [wire_run]
    exact readRequests_flatMap (List.forall_mem_map.mpr fun d _ => wellFormed_httpRequest _ _ d)
  · rw [List.map_map]
    exact List.map_id _
  · exact List.forall_mem_map.mpr fun d _ => credentials_httpRequest _ _ d

end ElectrumZ.Net.RPCClient
