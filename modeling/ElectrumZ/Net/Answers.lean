import ElectrumZ.Blockchain.Lookup
import ElectrumZ.Net.HandleCommand

/-!
# Which requests are answered

`HandleCommand` writes one response as its last action, or fails before it has written any.

* `Served` says when the `switch` reaches that write, command by command: `dispatch_of_served` and
  `dispatch_of_not_served`.
* `handleCommand_answers_iff`: a request is answered once, under its own id, if and only if it is
  served and the id is an `int`.
* `handleCommand_safe_iff`: an assertion fails if and only if the request subscribes to a script
  hash that does not decode to 32 bytes.
-/

namespace ElectrumZ.Net

open Foundations Bitcoin Blockchain Commands

variable (env : Env)

/-! ## Responses -/

/-- The session after a response. -/
def Session.written (s : Session) (data : Json) : Session :=
  { s with wire := s.wire ++ [⟨env.dump data ++ [JSONRPC_DELIM], .json data⟩] }

variable {env}

/-- A response under an id. -/
def IsResponse (id : ℤ) (rsp : Json) : Prop :=
  (∃ result, rsp = commandSuccess id result) ∨ ∃ msg err, rsp = commandError id msg err

theorem IsResponse.id_eq {id : ℤ} {rsp : Json} (h : IsResponse id rsp) :
    rsp.member "id" = some (.int id) := by
  obtain ⟨result, rfl⟩ | ⟨msg, err, rfl⟩ := h <;> rfl

/-- A response has a result or an error, not both. -/
theorem IsResponse.has_ne {id : ℤ} {rsp : Json} (h : IsResponse id rsp) :
    rsp.has "result" ≠ rsp.has "error" := by
  obtain ⟨result, rfl⟩ | ⟨msg, err, rfl⟩ := h <;> exact Bool.noConfusion

theorem run_succeed (id : ℤ) (result : Json) (s : Session) :
    succeed env id result s = (.ok (), s.written env (commandSuccess id result)) := rfl

theorem run_reject (id : ℤ) (msg : String) (err : ℤ) (s : Session) :
    reject env id msg err s = (.ok (), s.written env (commandError id msg err)) := rfl

@[simp] theorem run_access_some {α : Type} (a : α) (s : Session) :
    access (some a) s = (.ok a, s) := rfl

@[simp] theorem run_access_none {α : Type} (s : Session) :
    (access none : CmdM α) s = (.error .json, s) := rfl

/-! ## The commands -/

variable (env) in
/-- `get<int>()` converts the value: every number, and a truth value if the library takes those. -/
def Converts (j : Json) : Prop :=
  j.isNumber = true ∨ j.isBool = true ∧ (env.getInt j).isSome = true

/-- `params[0]` of an array. -/
def firstParam (params : Json) : Json := (params.item 0).getD .null

/-- The script hash a subscription is for; it stays empty if the parameter is no string. -/
def hashParam (params : Json) : Bytes :=
  scriptHashBytes ((firstParam params).getString.getD "")

variable (env) in
/-- The `switch` comes to the response of a command. -/
def Served (s : Session) (params : Json) : ElectrumCommands → Prop
  | .txGet => False
  | .bcBlockHeader =>
    params.isArray = true → Converts env (firstParam params) ∧ s.rpc = .connected
  | .shSubscribe =>
    params.isArray = true →
      (hashParam params).length = 32 ∧ s.store.Searchable (hashParam params)
  | _ => True

variable {cmd params : Json} {id : ℤ} {s : Session}

theorem item_of_isArray (h : params.isArray = true) : params.item 0 = some (firstParam params) := by
  cases params with
  | arr elems => rfl
  | _ => exact absurd h Bool.false_ne_true

theorem getInt_of_converts {j : Json} (h : Converts env j) : ∃ n, env.getInt j = some n := by
  rw [← Option.isSome_iff_exists]
  obtain hnum | ⟨-, hsome⟩ := h
  · exact env.getInt_number j hnum
  · exact hsome

theorem getInt_of_not_converts {j : Json} (h : ¬ Converts env j) : env.getInt j = none := by
  simp only [Converts, not_or, Bool.not_eq_true, not_and] at h
  obtain ⟨hnum, hbool⟩ := h
  cases hb : j.isBool with
  | true => exact Option.not_isSome_iff_eq_none.mp (Bool.eq_false_iff.mp (hbool hb))
  | false => exact env.getInt_other j hnum hb

/-- A failure before anything is written. -/
def FailsWith (e : Fault) (x : CmdM Unit) (s : Session) : Prop :=
  ∃ s', x s = (.error e, s') ∧ s'.wire = s.wire

/-- One response under the id and no failure. Apart from queries to the node nothing else
happens. -/
def Responds (env : Env) (id : ℤ) (x : CmdM Unit) (s : Session) : Prop :=
  ∃ queries rsp, x s = (.ok (), ({ s with queries } : Session).written env rsp) ∧
    IsResponse id rsp

theorem responds_succeed (result : Json) : Responds env id (succeed env id result) s :=
  ⟨s.queries, _, run_succeed id result s, .inl ⟨result, rfl⟩⟩

theorem responds_reject (msg : String) (err : ℤ) : Responds env id (reject env id msg err) s :=
  ⟨s.queries, _, run_reject id msg err s, .inr ⟨msg, err, rfl⟩⟩

theorem run_bcBlockHeader_of_array (hp : cmd.member "params" = some params)
    (harr : params.isArray = true) : bcBlockHeader env cmd id s =
      (access (env.getInt (firstParam params)) >>= fun h => do
        rpcQuery "getblockhash" (.ofBraces [.int h, .str "test"])
        succeed env id BCBlockHeaderResponse.toJson) s := by
  rw [bcBlockHeader, hp, Action.bind_of_ok (run_access_some _ _), if_pos harr,
    item_of_isArray harr, Action.bind_of_ok (run_access_some _ _)]

theorem bcBlockHeader_responds (hp : cmd.member "params" = some params)
    (h : Served env s params .bcBlockHeader) : Responds env id (bcBlockHeader env cmd id) s := by
  by_cases harr : params.isArray = true
  · obtain ⟨hnum, hrpc⟩ := h harr
    obtain ⟨n, hn⟩ := getInt_of_converts hnum
    rw [Responds, run_bcBlockHeader_of_array hp harr, hn, Action.bind_of_ok (run_access_some _ _)]
    obtain ⟨store, rpc, queries, wire⟩ := s
    obtain rfl : rpc = .connected := hrpc
    exact ⟨_, _, rfl, .inl ⟨_, rfl⟩⟩
  · rw [Responds, bcBlockHeader, hp, Action.bind_of_ok (run_access_some _ _), if_neg harr]
    exact responds_reject _ _

variable (env id) in
/-- Without a number in front the parameters throw, and without the node the query crashes. -/
theorem bcBlockHeader_fails (hp : cmd.member "params" = some params)
    (h : ¬ Served env s params .bcBlockHeader) :
    FailsWith .json (bcBlockHeader env cmd id) s ∨
      FailsWith .null (bcBlockHeader env cmd id) s := by
  obtain ⟨harr, hbad⟩ := Classical.not_imp.mp h
  simp only [FailsWith, run_bcBlockHeader_of_array hp harr]
  by_cases hnum : Converts env (firstParam params)
  · obtain ⟨n, hn⟩ := getInt_of_converts hnum
    rw [hn, Action.bind_of_ok (run_access_some _ _)]
    obtain ⟨store, rpc, queries, wire⟩ := s
    cases rpc with
    | connected => exact absurd ⟨hnum, rfl⟩ hbad
    | absent => exact .inr ⟨_, rfl, rfl⟩
    | unconnected => exact .inr ⟨_, rfl, rfl⟩
  · rw [getInt_of_not_converts hnum]
    exact .inl ⟨s, rfl, rfl⟩

theorem run_shSubscribe_of_array (hp : cmd.member "params" = some params)
    (harr : params.isArray = true) : shSubscribe env cmd id s =
      (blob (hashParam params) >>= fun scriptHash => do
        let _ ← onStore (getTXOs scriptHash [])
        succeed env id (SHSubscribeResponse.toJson env.sha256 ⟨⟨[]⟩⟩)) s := by
  rw [shSubscribe, hp, Action.bind_of_ok (run_access_some _ _), if_pos harr,
    item_of_isArray harr, Action.bind_of_ok (run_access_some _ _)]
  rfl

theorem run_blob {vch : Bytes} (h : vch.length = 32) : blob vch s = (.ok ⟨vch, h⟩, s) := by
  rw [blob, dif_pos h]
  rfl

theorem shSubscribe_responds (hp : cmd.member "params" = some params)
    (h : Served env s params .shSubscribe) : Responds env id (shSubscribe env cmd id) s := by
  by_cases harr : params.isArray = true
  · obtain ⟨hlen, hsearch⟩ := h harr
    obtain ⟨err, hrun⟩ := run_getTXOs ⟨hashParam params, hlen⟩ [] hsearch
    have hstore : onStore (getTXOs ⟨hashParam params, hlen⟩ []) s = (.ok (err, []), s) := by
      rw [onStore, hrun]
    rw [Responds, run_shSubscribe_of_array hp harr, Action.bind_of_ok (run_blob hlen),
      Action.bind_of_ok hstore]
    exact responds_succeed _
  · rw [Responds, shSubscribe, hp, Action.bind_of_ok (run_access_some _ _), if_neg harr]
    exact responds_reject _ _

/-- A hash of any other length fails the assertion. -/
theorem shSubscribe_asserts (hp : cmd.member "params" = some params)
    (harr : params.isArray = true) (hlen : (hashParam params).length ≠ 32) :
    FailsWith (.assertion .blobSize) (shSubscribe env cmd id) s := by
  rw [FailsWith, run_shSubscribe_of_array hp harr, blob, dif_neg hlen]
  exact ⟨s, rfl, rfl⟩

variable (env id) in
/-- A database that cannot be searched throws, or is waited for. -/
theorem shSubscribe_fails (hp : cmd.member "params" = some params)
    (harr : params.isArray = true) (hlen : (hashParam params).length = 32)
    (h : ¬ s.store.Searchable (hashParam params)) :
    FailsWith .blocked (shSubscribe env cmd id) s ∨
      FailsWith (.stream .endOfData) (shSubscribe env cmd id) s := by
  obtain ⟨stop, store, hrun, hstop⟩ :=
    run_getTXOs_fails ⟨hashParam params, hlen⟩ [] h
  have hstore : onStore (getTXOs ⟨hashParam params, hlen⟩ []) s =
      (.error (.ofStop stop), { s with store }) := by
    rw [onStore, hrun]
  simp only [FailsWith, run_shSubscribe_of_array hp harr, Action.bind_of_ok (run_blob hlen),
    Action.bind_of_error hstore]
  obtain rfl | rfl := hstop
  · exact .inl ⟨_, rfl, rfl⟩
  · exact .inr ⟨_, rfl, rfl⟩

/-! ## The switch -/

/-- All other commands answer with a fixed result. -/
theorem dispatch_cases (env : Env) (cmd : Json) (id : ℤ) (c : ElectrumCommands) :
    c = .bcBlockHeader ∨ c = .bcBlockHeaders ∨ c = .shSubscribe ∨ c = .txGet ∨
      ((∀ s params, Served env s params c) ∧
        ∃ result, dispatch env cmd id c = succeed env id result) := by
  cases c <;> simp only [reduceCtorEq, true_or, or_true, false_or] <;>
    exact ⟨fun _ _ => trivial, _, rfl⟩

/-- **A command that is served** writes its response as the last action. -/
theorem dispatch_of_served (hp : cmd.member "params" = some params) {c : ElectrumCommands}
    (h : Served env s params c) : Responds env id (dispatch env cmd id c) s := by
  obtain rfl | rfl | rfl | rfl | ⟨-, result, hresult⟩ := dispatch_cases env cmd id c
  · exact bcBlockHeader_responds hp h
  · rw [dispatch, Responds, bcBlockHeaders, hp, Action.bind_of_ok (run_access_some _ _)]
    split_ifs
    · exact responds_succeed _
    · exact responds_reject _ _
  · exact shSubscribe_responds hp h
  · exact False.elim h
  · rw [hresult]
    exact responds_succeed result

/-- The command subscribes to a script hash that does not decode to 32 bytes. -/
def IllSized (params : Json) (c : ElectrumCommands) : Prop :=
  c = .shSubscribe ∧ params.isArray = true ∧ (hashParam params).length ≠ 32

variable (env id) in
/-- **A command that is not served** fails before anything is written. It fails in an assertion if
its script hash is ill-sized, and in no assertion otherwise. -/
theorem dispatch_of_not_served (hp : cmd.member "params" = some params) {c : ElectrumCommands}
    (h : ¬ Served env s params c) : ∃ e, FailsWith e (dispatch env cmd id c) s ∧
      ((∃ a, e = .assertion a) ↔ IllSized params c) := by
  obtain rfl | rfl | rfl | rfl | ⟨hserved, -⟩ := dispatch_cases env cmd id c
  · obtain hfail | hfail := bcBlockHeader_fails env id hp h <;>
      exact ⟨_, hfail, by simp [IllSized]⟩
  · exact absurd trivial h
  · obtain ⟨harr, hbad⟩ := Classical.not_imp.mp h
    by_cases hlen : (hashParam params).length = 32
    · obtain hfail | hfail := shSubscribe_fails env id hp harr hlen
        (fun hs => hbad ⟨hlen, hs⟩) <;> exact ⟨_, hfail, by simp [IllSized, hlen]⟩
    · exact ⟨_, shSubscribe_asserts hp harr hlen, by simp [IllSized, hlen, harr]⟩
  · refine ⟨.json, ⟨s, ?_, rfl⟩, by simp [IllSized]⟩
    rw [dispatch, txGet, TXGetResponse.toJson, env.parse_nil]
    rfl
  · exact absurd (hserved s params) h

/-! ## Requests -/

variable (env) in
/-- A command whose method and id can be read. -/
structure Request (cmd : Json) (method : String) (id : ℤ) (params : Json) : Prop where
  method : cmd.member "method" = some (.str method)
  id : ∃ v, cmd.member "id" = some v ∧ env.getInt v = some id
  params : cmd.member "params" = some params

variable {method : String}

theorem isNull_of_request (h : Request env cmd method id params) : cmd.isNull = false := by
  cases cmd with
  | null => exact absurd h.method (by simp [Json.member])
  | _ => rfl

theorem run_handleCommand (h : Request env cmd method id params) : handleCommand env cmd s =
    (match commandMap.lookup method with
    | some method_mapped => dispatch env cmd id method_mapped
    | none => reject env id "Method not found" (-32601)) s := by
  obtain ⟨v, hv, hid⟩ := h.id
  rw [handleCommand, if_neg (by rw [isNull_of_request h]; exact Bool.false_ne_true), h.method,
    Action.bind_of_ok (run_access_some _ _), Json.getString,
    Action.bind_of_ok (run_access_some _ _), hv, Action.bind_of_ok (run_access_some _ _), hid]
  exact (Action.bind_of_ok (run_access_some _ _)).trans rfl

/-- If one member can be asked for, every member can. -/
theorem member_of_member {key : String} {v : Json} (key' : String) (h : cmd.member key = some v) :
    ∃ v', cmd.member key' = some v' := by
  cases cmd with
  | null => exact ⟨_, rfl⟩
  | obj members => exact ⟨_, rfl⟩
  | _ => exact absurd h (by simp [Json.member])

/-- Any other command throws, unless it is `null`. -/
theorem handleCommand_throws (hnull : cmd.isNull ≠ true)
    (h : ¬ ∃ method id params, Request env cmd method id params) :
    FailsWith .json (handleCommand env cmd) s := by
  rw [FailsWith, handleCommand, if_neg hnull]
  cases hm : cmd.member "method" with
  | none => exact ⟨s, rfl, rfl⟩
  | some m =>
    rw [Action.bind_of_ok (run_access_some _ _)]
    obtain ⟨v, hv⟩ := member_of_member "id" hm
    obtain ⟨params, hp⟩ := member_of_member "params" hm
    cases hstr : m.getString with
    | none => exact ⟨s, rfl, rfl⟩
    | some method =>
      rw [Action.bind_of_ok (run_access_some _ _), hv, Action.bind_of_ok (run_access_some _ _)]
      cases hid : env.getInt v with
      | none => exact ⟨s, rfl, rfl⟩
      | some id =>
        obtain rfl : m = .str method := by
          cases m <;> simp_all [Json.getString]
        exact absurd ⟨method, id, params, hm, ⟨v, hv, hid⟩, hp⟩ h

variable (env) in
/-- The request is served: its method is unknown, or its command is. -/
def ServedMethod (s : Session) (method : String) (params : Json) : Prop :=
  ∀ c, commandMap.lookup method = some c → Served env s params c

variable (env) in
theorem request_responds (h : Request env cmd method id params)
    (hs : ServedMethod env s method params) :
    Responds env id (handleCommand env cmd) s := by
  rw [Responds, run_handleCommand h]
  cases hc : commandMap.lookup method with
  | none => exact responds_reject _ _
  | some c => exact dispatch_of_served h.params (hs c hc)

variable (env) in
/-- A subscription to a script hash that does not decode to 32 bytes. -/
def SubscribesIllSized (cmd : Json) : Prop :=
  ∃ method id params c, Request env cmd method id params ∧ commandMap.lookup method = some c ∧
    IllSized params c

variable (env) in
theorem request_fails (h : Request env cmd method id params)
    (hs : ¬ ServedMethod env s method params) :
    ∃ e, FailsWith e (handleCommand env cmd) s ∧
      ((∃ a, e = .assertion a) ↔ SubscribesIllSized env cmd) := by
  simp only [ServedMethod, not_forall] at hs
  obtain ⟨c, hc, hs⟩ := hs
  obtain ⟨e, hfail, hassert⟩ := dispatch_of_not_served env id h.params hs
  refine ⟨e, ?_, hassert.trans ⟨fun hill => ⟨method, id, params, c, h, hc, hill⟩, ?_⟩⟩
  · rw [FailsWith, run_handleCommand h, hc]
    exact hfail
  · rintro ⟨method', id', params', c', h', hc', hill⟩
    obtain rfl : method = method' := by simpa [h.method] using h'.method
    obtain rfl : params = params' := by simpa [h.params] using h'.params
    obtain rfl : c = c' := by simpa [hc] using hc'
    exact hill

variable (env) in
/-- What `HandleCommand` answers: `null`, and the requests that are served. -/
def Answerable (s : Session) (cmd : Json) : Prop :=
  cmd.isNull = true ∨
    ∃ method id params, Request env cmd method id params ∧ ServedMethod env s method params

variable (env) in
/-- **What is answerable is answered.** -/
theorem handleCommand_responds (h : Answerable env s cmd) :
    ∃ id, Responds env id (handleCommand env cmd) s := by
  obtain hnull | ⟨method, id, params, hreq, hs⟩ := h
  · refine ⟨0, ?_⟩
    rw [Responds, handleCommand, if_pos hnull]
    exact responds_reject _ _
  · exact ⟨id, request_responds env hreq hs⟩

variable (env) in
/-- **What is not answerable fails** before anything is written, and in an assertion only if it is
an ill-sized subscription. -/
theorem handleCommand_fails (h : ¬ Answerable env s cmd) :
    ∃ e, FailsWith e (handleCommand env cmd) s ∧
      ((∃ a, e = .assertion a) ↔ SubscribesIllSized env cmd) := by
  simp only [Answerable, not_or] at h
  obtain ⟨hnull, h⟩ := h
  by_cases hreq : ∃ method id params, Request env cmd method id params
  · obtain ⟨method, id, params, hreq⟩ := hreq
    exact request_fails env hreq fun hs => h ⟨method, id, params, hreq, hs⟩
  · refine ⟨.json, handleCommand_throws hnull hreq, ?_⟩
    simp only [reduceCtorEq, exists_false, false_iff]
    rintro ⟨method, id, params, c, hreq', -⟩
    exact hreq ⟨method, id, params, hreq'⟩

/-! ## One answer, under the right id -/

/-- The command is answered once, with a result or an error under the id, and nothing fails. -/
def AnsweredOnce (env : Env) (cmd : Json) (id : ℤ) (s : Session) : Prop :=
  ∃ s' rsp, handleCommand env cmd s = (.ok (), s') ∧
    s'.wire = s.wire ++ [⟨env.dump rsp ++ [JSONRPC_DELIM], .json rsp⟩] ∧
    rsp.member "id" = some (.int id) ∧ rsp.has "result" ≠ rsp.has "error"

/-- **A well-formed request is answered once, under its own id, if and only if** the id is an
`int` and the request is served. -/
theorem handleCommand_answers_iff (env : Env) (s : Session) {cmd : Json} {method : String} {id : ℤ}
    (hmethod : cmd.member "method" = some (.str method))
    (hid : cmd.member "id" = some (.int id)) :
    AnsweredOnce env cmd id s ↔ (-2 ^ 31 ≤ id ∧ id < 2 ^ 31) ∧
      ServedMethod env s method ((cmd.member "params").getD .null) := by
  obtain ⟨params, hp⟩ := member_of_member "params" hmethod
  have hreq : Request env cmd method (Json.toInt32 id) params :=
    ⟨hmethod, ⟨_, hid, env.getInt_int id⟩, hp⟩
  rw [hp, Option.getD_some, ← Json.toInt32_eq_self_iff]
  constructor
  · rintro ⟨s', rsp, hrun, hwire, hrsp, -⟩
    by_cases hs : ServedMethod env s method params
    · obtain ⟨queries, rsp', hrun', hrsp'⟩ := request_responds env hreq hs
      refine ⟨?_, hs⟩
      obtain rfl := (Prod.mk.inj (hrun.symm.trans hrun')).2
      obtain ⟨-, rfl⟩ : env.dump rsp' = env.dump rsp ∧ rsp' = rsp := by
        simpa [Session.written] using hwire
      simpa [hrsp] using hrsp'.id_eq.symm
    · obtain ⟨e, ⟨s'', hfail, -⟩, -⟩ := request_fails env hreq hs
      exact absurd (Prod.mk.inj (hrun.symm.trans hfail)).1 (by simp)
  · rintro ⟨hint, hs⟩
    obtain ⟨queries, rsp, hrun, hrsp⟩ := request_responds env hreq hs
    refine ⟨_, rsp, hrun, rfl, ?_, hrsp.has_ne⟩
    rw [hrsp.id_eq, hint]

/-- A request without parameters. -/
def bareRequest (method : String) (id : ℤ) : Json := .obj [("id", .int id), ("method", .str method)]

def pingText : Bytes := ascii "\x7b\"id\":1,\"method\":\"server.ping\"\x7d"

/-- A client that pings. -/
def pingEnv : Env := .answering pingText (bareRequest "server.ping" 1)
  (ascii "\x7b\"id\":1,\"jsonrpc\":\"2.0\",\"result\":null\x7d")
  (by decide) (by decide +kernel) (by decide +kernel)

/-- A ping is answered. -/
theorem handleCommand_answers_ping :
    AnsweredOnce pingEnv (bareRequest "server.ping" 1) 1 .fresh := by
  have hmethod : (bareRequest "server.ping" 1).member "method" = some (.str "server.ping") := rfl
  refine (handleCommand_answers_iff _ _ hmethod rfl).mpr ⟨by decide, ?_⟩
  intro c hc
  obtain rfl : c = .svPing := by
    have h : commandMap.lookup "server.ping" = some .svPing := by decide
    simpa [h] using hc.symm
  trivial

/-- A ping with an id beyond `int`, and a request for a transaction, are not. -/
theorem handleCommand_not_answers :
    ¬ AnsweredOnce pingEnv (bareRequest "server.ping" (2 ^ 31)) (2 ^ 31) .fresh ∧
    ¬ AnsweredOnce pingEnv (bareRequest "blockchain.transaction.get" 1) 1 .fresh := by
  constructor
  · rintro ⟨s', rsp, hrun, hwire, hrsp, -⟩
    have hs' := (Prod.mk.inj hrun).2
    rw [← hs'] at hwire
    obtain ⟨-, hrsp'⟩ := UvWrite.mk.inj (List.cons.inj hwire).1
    rw [← Source.json.inj hrsp'] at hrsp
    exact absurd (Json.int.inj (Option.some.inj hrsp)) (by decide)
  · rintro ⟨s', rsp, hrun, -⟩
    exact absurd (Prod.mk.inj hrun).1 (by decide)

/-- **No assertion fails, if and only if** the command is no ill-sized subscription. -/
theorem handleCommand_safe_iff (env : Env) (s : Session) (cmd : Json) :
    (∀ a, (handleCommand env cmd s).1 ≠ .error (.assertion a)) ↔ ¬ SubscribesIllSized env cmd := by
  by_cases h : Answerable env s cmd
  · obtain ⟨id, queries, rsp, hrun, -⟩ := handleCommand_responds env h
    rw [hrun]
    refine ⟨fun _ hill => ?_, fun _ a => by simp⟩
    obtain ⟨method, id', params, c, hreq, hc, hill⟩ := hill
    obtain hnull | ⟨method', id'', params', hreq', hs⟩ := h
    · exact absurd (isNull_of_request hreq) (by simp [hnull])
    · obtain rfl : method = method' := by simpa [hreq.method] using hreq'.method
      obtain rfl : params = params' := by simpa [hreq.params] using hreq'.params
      obtain ⟨rfl, harr, hlen⟩ := hill
      exact hlen (hs _ hc harr).1
  · obtain ⟨e, ⟨s', hrun, -⟩, hassert⟩ := handleCommand_fails env h
    rw [hrun, ← hassert]
    simp

/-- A subscription to the empty script hash. -/
def emptySubscription (id : Json) : Json :=
  .obj [("id", id), ("method", .str "blockchain.scripthash.subscribe"), ("params", .arr [.str ""])]

/-- It fails the assertion of the blob, under a number and under a truth value. -/
theorem handleCommand_asserts :
    (¬ ∀ a, (handleCommand pingEnv (emptySubscription (.int 1)) .fresh).1 ≠
      .error (.assertion a)) ∧
    ¬ ∀ a, (handleCommand pingEnv (emptySubscription (.bool true)) .fresh).1 ≠
      .error (.assertion a) :=
  ⟨fun h => h .blobSize rfl, fun h => h .blobSize rfl⟩

end ElectrumZ.Net
