import ElectrumZ.Foundations.Runs
import ElectrumZ.Net.RPCClient

/-!
# The life of the connection to the node

The client under calls of `Connect`, connect callbacks, reads and queries, in any order.

* `Lawful` is the law: the state is `connected` while the connection is up, requests are written
  only then and to a socket, and `Connect` is accepted once the node has closed the connection.
* `sound_of_regular` and `regular_of_lawful`: what keeps the law at a step, and what breaks it.
* `lawful_iff`: the law holds in a run exactly if no read fails before the client is disconnected,
  queries are made only while it is connected, and reading starts on every connection.
-/

namespace ElectrumZ.Net

open Foundations Bitcoin RPCClient

namespace RPCClient

variable {env : RPCEnv} {c : RPCClient}

/-! ## What the callbacks do -/

theorem run_setState (ns : RPCClientState) (c : RPCClient) :
    setState ns c = (.ok (), { c with state := ns }) := rfl

/-- `Connect` goes past its check. -/
def Accepts (c : RPCClient) : Prop := c.state = .init ∨ c.state = .disconnected

theorem connect_of_not_accepts (h : ¬ Accepts c) (codes : ConnectCodes) :
    connect codes c = (.ok (), c) := by
  have hstate : c.state ≠ .init ∧ c.state ≠ .disconnected := not_or.mp h
  rw [connect, Action.bind_of_ok (Action.run_look _ _), if_pos hstate]
  rfl

/-- An accepted `Connect` leads to `connecting`, or back to `disconnected`. -/
theorem connect_of_accepts (h : Accepts c) (codes : ConnectCodes) :
    connect codes c = (.ok (), { c with state :=
      if codes.tcp_init = 0 ∧ codes.ip4_addr = 0 ∧ codes.tcp_connect = 0 then .connecting
      else .disconnected }) := by
  have hstate : ¬ (c.state ≠ .init ∧ c.state ≠ .disconnected) := fun hand => not_or.mpr hand h
  rw [connect, Action.bind_of_ok (Action.run_look _ _), if_neg hstate,
    Action.bind_of_ok (run_setState _ _)]
  by_cases htcp : codes.tcp_init = 0
  · rw [if_neg (not_not.mpr htcp)]
    by_cases haddr : codes.ip4_addr = 0
    · rw [if_neg (not_not.mpr haddr)]
      by_cases hconnect : codes.tcp_connect = 0
      · rw [if_neg (not_not.mpr hconnect), if_pos ⟨htcp, haddr, hconnect⟩]
        rfl
      · rw [if_pos hconnect, if_neg fun hand => hconnect hand.2.2, run_setState]
    · rw [if_pos haddr, if_neg fun hand => haddr hand.2.1, run_setState]
  · rw [if_pos htcp, if_neg fun hand => htcp hand.1, run_setState]

theorem onConnect_of_failure (handle : ℕ) {status : ℤ} (read_start : ℤ) (h : status ≠ 0) :
    onConnect env handle status read_start c = (.ok (), { c with state := .disconnected }) := by
  rw [onConnect, if_pos h]
  rfl

theorem onConnect_of_no_read (handle : ℕ) {read_start : ℤ} (h : read_start ≠ 0) :
    onConnect env handle 0 read_start c =
      (.ok (), { c with socket := some handle, state := .disconnected }) := by
  rw [onConnect, if_neg (not_not.mpr rfl), Action.bind_of_ok (Action.run_update _ _),
    Action.bind_of_ok (run_setState _ _), if_pos h, run_setState]

variable (env c) in
/-- After a connection `getblockchaininfo` is asked for. -/
theorem onConnect_of_success (handle : ℕ) : ∃ q j buf, (onConnect env handle 0 0 c).2 =
    sent j buf (registered q (nextId { c with socket := some handle, state := .connected }).2) := by
  obtain ⟨q, j, buf, hquery⟩ := sendQuery_writes env [("method", .str "getblockchaininfo")]
    { c with socket := some handle, state := .connected }
  refine ⟨q, j, buf, ?_⟩
  rw [onConnect, if_neg (not_not.mpr rfl), Action.bind_of_ok (Action.run_update _ _),
    Action.bind_of_ok (run_setState _ _), if_neg (not_not.mpr rfl)]
  exact (Action.snd_bind_pure _ _ _).trans hquery

/-- The two agree on the connection, and on what has been written. -/
def SameConnection (c c' : RPCClient) : Prop :=
  c'.state = c.state ∧ c'.socket = c.socket ∧
    ∀ state socket j buf, RPCEvent.write state socket j buf ∈ c'.log ↔
      RPCEvent.write state socket j buf ∈ c.log

theorem keeps_access {α : Type} {I : RPCClient → Prop} (x : Option α) :
    Action.Keeps I (access x) := by
  cases x with
  | none => exact Action.keeps_fail _
  | some a => exact Action.keeps_pure a

theorem keeps_parse {I : RPCClient → Prop} (env : RPCEnv) (fragment : Bytes) :
    Action.Keeps I (parse env fragment) := by
  rw [parse]
  cases env.parse fragment with
  | none => exact Action.keeps_fail _
  | some j => exact Action.keeps_pure j

theorem keeps_setValue (c : RPCClient) (promise : ℕ) (data : Json) :
    Action.Keeps (SameConnection c) (setValue promise data) := by
  rintro c' ⟨hstate, hsocket, hlog⟩
  have hlog' (state : RPCClientState) (socket : Option ℕ) (j : Json) (buf : Bytes) :
      RPCEvent.write state socket j buf ∈ c'.log ++ [.set promise data] ↔
        RPCEvent.write state socket j buf ∈ c.log := by
    simp [hlog]
  simp only [setValue]
  split <;> exact ⟨hstate, hsocket, hlog'⟩

theorem keeps_completeQuery (c : RPCClient) (id : ℤ) (data : Json) :
    Action.Keeps (SameConnection c) (completeQuery id data) := by
  refine .bind (Action.keeps_look _) fun itr => ?_
  cases itr with
  | none => exact Action.keeps_pure _
  | some q => exact .bind (keeps_setValue c _ _) fun _ => Action.keeps_update fun _ h => h

theorem keeps_handleResponse (env : RPCEnv) (c : RPCClient) (j : Json) :
    Action.Keeps (SameConnection c) (handleResponse env j) := by
  refine .bind (Action.keeps_update fun c' h => ?_) fun _ => ?_
  · exact ⟨h.1, h.2.1, fun state socket j buf => Iff.trans (by simp) (h.2.2 state socket j buf)⟩
  · refine .bind (keeps_access _) fun error => Action.keeps_ite (Action.keeps_pure _) ?_
    refine .bind (keeps_access _) fun v => .bind (keeps_access _) fun id => ?_
    refine .bind (keeps_access _) fun result => ?_
    exact .bind (keeps_completeQuery c _ _) fun _ => Action.keeps_pure _

theorem keeps_handleRead (env : RPCEnv) (c : RPCClient) (fragments : List Bytes) :
    Action.Keeps (SameConnection c) (handleRead env fragments) := by
  induction fragments with
  | nil => exact Action.keeps_pure _
  | cons fragment fragments ih =>
    refine .bind (.bind (keeps_parse env fragment) fun j => ?_) fun _ => ih
    exact .bind (keeps_handleResponse env c j) fun _ => Action.keeps_pure _

/-- **What is read leaves the connection as it is.** -/
theorem sameConnection_onRead (env : RPCEnv) (c : RPCClient) (nread : ℤ)
    (fragments : List Bytes) : SameConnection c (onRead env nread fragments c).2 := by
  have hkeeps : Action.Keeps (SameConnection c) (onRead env nread fragments) := by
    refine Action.keeps_ite (Action.keeps_pure _) ?_
    exact .bind (keeps_handleRead env c fragments) fun _ => Action.keeps_pure _
  exact hkeeps c ⟨rfl, rfl, fun _ _ _ _ => Iff.rfl⟩

end RPCClient

/-! ## The law -/

/-- What happens to the connection: a call of `Connect`, the connect callback, a read, and a command
of a client that calls `Query`. -/
inductive ConnectionAction
  | connect (codes : ConnectCodes)
  | onConnect (handle : ℕ) (status read_start : ℤ)
  | onRead (nread : ℤ) (fragments : List Bytes)
  | query (method : String) (args : List Json)

/-- A client, and what has happened to it. -/
structure Connection where
  client : RPCClient
  past : List ConnectionAction

namespace Connection

/-- A client that has been constructed. -/
def start (username password : Bytes) : Connection := ⟨.new username password, []⟩

/-- What an action does to the client. -/
def act (env : RPCEnv) : ConnectionAction → RPCClient → RPCClient
  | .connect codes, c => (connect codes c).2
  | .onConnect handle status read_start, c => (onConnect env handle status read_start c).2
  | .onRead nread fragments, c => (onRead env nread fragments c).2
  | .query method args, c => (queryArgs env method args c).2

/-- One action more. -/
def step (env : RPCEnv) (a : ConnectionAction) (s : Connection) : Option Connection :=
  some ⟨act env a s.client, s.past ++ [a]⟩

/-- The connect callback with a status. -/
def IsCallback (ok : ℤ → Prop) (a : ConnectionAction) : Prop :=
  ∃ handle status read_start, a = .onConnect handle status read_start ∧ ok status

/-- A read error or the end of the stream. -/
def IsFailure (a : ConnectionAction) : Prop := ∃ nread fragments, a = .onRead nread fragments ∧
  nread < 0

/-- The last connect callback succeeded, and no read error or end of stream has been reported
since. -/
def Up : List ConnectionAction → Prop :=
  Since (IsCallback (· = 0)) fun a => IsCallback (fun _ => True) a ∨ IsFailure a

/-- The node has closed the connection, and neither `Connect` has been called nor a connection been
made since. -/
def Closed : List ConnectionAction → Prop :=
  Since IsFailure fun a => IsCallback (fun _ => True) a ∨ ∃ codes, a = .connect codes

/-- The law of the connection. -/
structure Lawful (s : Connection) : Prop where
  connected : s.client.state = .connected ↔ Up s.past
  writes : ∀ state socket j buf, .write state socket j buf ∈ s.client.log →
    state = .connected ∧ socket ≠ none
  reopens : Closed s.past → Accepts s.client

/-- The law, and what a query relies on. -/
structure Sound (s : Connection) : Prop extends Lawful s where
  socket : s.client.state = .connected → s.client.socket ≠ none

/-- What keeps the law: a read fails only when the client is disconnected, a query is made only
while it is connected, and reading starts on a new connection. -/
def Regular (a : ConnectionAction) (s : Connection) : Prop :=
  match a with
  | .connect _ => True
  | .onConnect _ status read_start => status = 0 → read_start = 0
  | .onRead nread _ => nread < 0 → Accepts s.client
  | .query _ _ => s.client.state = .connected

/-- A query is made in the state and on the socket that are found. -/
theorem query_writes (env : RPCEnv) (method : String) (args : List Json) (c : RPCClient) :
    ∃ q j buf, (queryArgs env method args c).2 = sent j buf (registered q (nextId c).2) := by
  rw [queryArgs_eq]
  exact sendQuery_writes env (command method args) c

theorem sound_start (username password : Bytes) : Sound (start username password) where
  connected := ⟨nofun, fun h => absurd h not_since_nil⟩
  writes := by simp [start, new]
  reopens := fun h => absurd h not_since_nil
  socket := nofun

section History

variable {past : List ConnectionAction}

@[simp] theorem up_connect (codes : ConnectCodes) : Up (past ++ [.connect codes]) ↔ Up past := by
  simp [Up, since_concat, IsCallback, IsFailure]

@[simp] theorem up_onConnect (handle : ℕ) (status read_start : ℤ) :
    Up (past ++ [.onConnect handle status read_start]) ↔ status = 0 := by
  simp [Up, since_concat, IsCallback, IsFailure]

@[simp] theorem up_onRead (nread : ℤ) (fragments : List Bytes) :
    Up (past ++ [.onRead nread fragments]) ↔ Up past ∧ ¬ nread < 0 := by
  simp [Up, since_concat, IsCallback, IsFailure]

@[simp] theorem up_query (method : String) (args : List Json) :
    Up (past ++ [.query method args]) ↔ Up past := by
  simp [Up, since_concat, IsCallback, IsFailure]

@[simp] theorem closed_connect (codes : ConnectCodes) : ¬ Closed (past ++ [.connect codes]) := by
  simp [Closed, since_concat, IsCallback, IsFailure]

@[simp] theorem closed_onConnect (handle : ℕ) (status read_start : ℤ) :
    ¬ Closed (past ++ [.onConnect handle status read_start]) := by
  simp [Closed, since_concat, IsCallback, IsFailure]

@[simp] theorem closed_onRead (nread : ℤ) (fragments : List Bytes) :
    Closed (past ++ [.onRead nread fragments]) ↔ nread < 0 ∨ Closed past := by
  simp [Closed, since_concat, IsCallback, IsFailure]

@[simp] theorem closed_query (method : String) (args : List Json) :
    Closed (past ++ [.query method args]) ↔ Closed past := by
  simp [Closed, since_concat, IsCallback, IsFailure]

end History

variable {env : RPCEnv} {a : ConnectionAction} {s : Connection}

/-- A request that is written while the client is connected keeps the law of what is written. -/
theorem writes_query {c : RPCClient} {q : RPCQuery} {j : Json} {buf : Bytes}
    (hwrites : ∀ state socket j buf, .write state socket j buf ∈ c.log →
      state = .connected ∧ socket ≠ none)
    (hstate : c.state = .connected) (hsocket : c.socket ≠ none) :
    ∀ state socket j' buf', .write state socket j' buf' ∈
      (sent j buf (registered q (nextId c).2)).log → state = .connected ∧ socket ≠ none := by
  intro state socket j' buf' hmem
  have hlog : (sent j buf (registered q (nextId c).2)).log =
    c.log ++ [.added q] ++ [RPCEvent.write c.state c.socket j buf] := rfl
  rw [hlog, List.mem_append, List.mem_append, List.mem_singleton, List.mem_singleton] at hmem
  obtain (hmem | hadded) | hwrite := hmem
  · exact hwrites state socket j' buf' hmem
  · exact nomatch hadded
  · obtain ⟨rfl, rfl, -, -⟩ := RPCEvent.write.inj hwrite
    exact ⟨hstate, hsocket⟩

/-- A call of `Connect` keeps the law. -/
theorem sound_connect (hs : Sound s) (codes : ConnectCodes) :
    Sound ⟨act env (.connect codes) s.client, s.past ++ [.connect codes]⟩ := by
  by_cases haccepts : Accepts s.client
  · have hdown : s.client.state ≠ .connected := by
      obtain h | h := haccepts <;> simp [h]
    have hnot : (connect codes s.client).2.state ≠ .connected := by
      rw [connect_of_accepts haccepts]
      split_ifs <;> simp
    refine ⟨⟨?_, ?_, fun h => absurd h (closed_connect codes)⟩, fun h => absurd h hnot⟩
    · rw [up_connect, ← hs.connected]
      exact iff_of_false hnot hdown
    · rw [act, connect_of_accepts haccepts]
      exact hs.writes
  · rw [act, connect_of_not_accepts haccepts]
    exact ⟨⟨hs.connected.trans (up_connect codes).symm, hs.writes,
      fun h => absurd h (closed_connect codes)⟩, hs.socket⟩

/-- A connect callback keeps the law, if it starts to read when it succeeds. -/
theorem sound_onConnect (hs : Sound s) (handle : ℕ) {status read_start : ℤ}
    (h : status = 0 → read_start = 0) :
    Sound ⟨act env (.onConnect handle status read_start) s.client,
      s.past ++ [.onConnect handle status read_start]⟩ := by
  by_cases hstatus : status = 0
  · subst hstatus
    obtain rfl := h rfl
    obtain ⟨q, j, buf, hact⟩ := onConnect_of_success env s.client handle
    rw [act, hact]
    refine ⟨⟨?_, writes_query hs.writes rfl nofun, fun h => absurd h (closed_onConnect _ _ _)⟩,
      fun _ => nofun⟩
    rw [up_onConnect]
    exact iff_of_true rfl rfl
  · rw [act, onConnect_of_failure handle read_start hstatus]
    refine ⟨⟨?_, hs.writes, fun h => absurd h (closed_onConnect _ _ _)⟩, nofun⟩
    rw [up_onConnect]
    exact iff_of_false nofun hstatus

/-- A read keeps the law, if it fails only when the client is disconnected. -/
theorem sound_onRead (hs : Sound s) {nread : ℤ} (fragments : List Bytes)
    (h : nread < 0 → Accepts s.client) :
    Sound ⟨act env (.onRead nread fragments) s.client, s.past ++ [.onRead nread fragments]⟩ := by
  obtain ⟨hstate, hsocket, hwrites⟩ := sameConnection_onRead env s.client nread fragments
  have haccepts : Accepts (act env (.onRead nread fragments) s.client) ↔ Accepts s.client := by
    rw [Accepts, act, hstate, Accepts]
  refine ⟨⟨?_, fun state socket j buf hmem => ?_, fun hclosed => ?_⟩, fun hconnected => ?_⟩
  · rw [act, hstate, hs.connected, up_onRead, iff_self_and]
    intro hup hfails
    obtain hinit | hdisconnected := h hfails
    · exact nomatch hinit.symm.trans (hs.connected.mpr hup)
    · exact nomatch hdisconnected.symm.trans (hs.connected.mpr hup)
  · exact hs.writes state socket j buf ((hwrites state socket j buf).mp hmem)
  · rw [haccepts]
    obtain hfails | hclosed := (closed_onRead _ _).mp hclosed
    · exact h hfails
    · exact hs.reopens hclosed
  · exact hsocket ▸ hs.socket (hstate ▸ hconnected)

/-- A query keeps the law, if it is made while the client is connected. -/
theorem sound_query (hs : Sound s) (method : String) (args : List Json)
    (h : s.client.state = .connected) :
    Sound ⟨act env (.query method args) s.client, s.past ++ [.query method args]⟩ := by
  obtain ⟨q, j, buf, hact⟩ := query_writes env method args s.client
  rw [act, hact]
  refine ⟨⟨?_, writes_query hs.writes h (hs.socket h), fun hclosed => ?_⟩, fun _ => hs.socket h⟩
  · rw [up_query]
    exact hs.connected
  · exact hs.reopens ((closed_query _ _).mp hclosed)

/-- **What is regular keeps the law.** -/
theorem sound_of_regular (hs : Sound s) (ha : Regular a s) :
    Sound ⟨act env a s.client, s.past ++ [a]⟩ := by
  cases a with
  | connect codes => exact sound_connect hs codes
  | onConnect handle status read_start => exact sound_onConnect hs handle ha
  | onRead nread fragments => exact sound_onRead hs fragments ha
  | query method args => exact sound_query hs method args ha

/-- **What is not regular breaks the law.** -/
theorem regular_of_lawful (h : Lawful ⟨act env a s.client, s.past ++ [a]⟩) : Regular a s := by
  cases a with
  | connect codes => trivial
  | onConnect handle status read_start =>
    rintro rfl
    by_contra hread
    have hconnected := h.connected.mpr ((up_onConnect _ _ _).mpr rfl)
    rw [act, onConnect_of_no_read handle hread] at hconnected
    exact nomatch hconnected
  | onRead nread fragments =>
    intro hfails
    obtain ⟨hstate, -, -⟩ := sameConnection_onRead env s.client nread fragments
    have haccepts := h.reopens ((closed_onRead _ _).mpr (.inl hfails))
    rw [Accepts, act, hstate] at haccepts
    exact haccepts
  | query method args =>
    obtain ⟨q, j, buf, hact⟩ := query_writes env method args s.client
    have hwrites := h.writes s.client.state s.client.socket j buf
    rw [act, hact] at hwrites
    exact (hwrites (List.mem_append_right _ List.mem_cons_self)).1

/-- **The law holds in a run, if and only if** its actions are regular. -/
theorem lawful_iff (env : RPCEnv) (username password : Bytes) (as : List ConnectionAction) :
    Always (step env) Lawful (start username password) as ↔
      Throughout (step env) Regular (start username password) as := by
  refine always_iff_throughout (I := Sound) (A := fun _ => True) (fun s hs => hs.toLawful) ?_ ?_
    (always_of_forall fun _ => trivial) (sound_start username password)
  · rintro a s t hs - hstep ha -
    obtain rfl := Option.some.inj hstep
    exact sound_of_regular hs ha
  · intro a s t _ hstep hlaw
    obtain rfl := Option.some.inj hstep
    exact regular_of_lawful hlaw

/-- The node accepts the connection and closes it: the client stays connected. -/
theorem not_lawful_closed : ¬ Always (step firstEnv) Lawful (start [] [])
    [.connect ⟨0, 0, 0⟩, .onConnect 0 0 0, .onRead (-4095) []] := by
  intro h
  have hlast := ((h.2 _ rfl).2 _ rfl).2 _ rfl
  have hup := hlast.connected.mp rfl
  exact ((up_onRead _ _).mp hup).2 (by decide)

end Connection

end ElectrumZ.Net
