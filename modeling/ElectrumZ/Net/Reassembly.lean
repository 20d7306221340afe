import ElectrumZ.Foundations.Pieces
import ElectrumZ.Net.Queries
import ElectrumZ.Net.Requests

/-!
# Responses in several reads

The responses of the node as the socket delivers them: each has a body in one chunk or in several,
and the stream is cut into reads anywhere. The HTTP parser calls `http_on_body` for each maximal run
of bytes of a body in a read.

* `client_read`: what the calls for one read do is what `onRead` does.
* `outcome_receive`: what is handled, and how the client ends, is determined by the pieces.
* `reassembled_iff`: every response is handled once and with the value of its complete body exactly
  if each body arrives in one piece.
-/

namespace ElectrumZ.Net.Responses

open Foundations Bitcoin RPCClient

/-! ## The stream -/

/-- A byte of the stream, with the number of the response whose body it belongs to. -/
structure Octet where
  byte : UInt8
  owner : Option ℕ
  deriving DecidableEq, Repr

namespace Octet

/-- Bytes around the bodies. -/
def framing (bs : Bytes) : List Octet := bs.map fun b => ⟨b, none⟩

/-- Bytes of the body of the response `i`. -/
def body (i : ℕ) (bs : Bytes) : List Octet := bs.map fun b => ⟨b, some i⟩

/-- The bytes of a fragment. -/
def bytes (g : List Octet) : Bytes := g.map Octet.byte

/-- The response that a fragment belongs to. -/
def ownerOf (g : List Octet) : Option ℕ := g.head?.bind Octet.owner

end Octet

/-- A part of a body, and what stands before it: the header of the response, or what separates two
chunks. -/
structure Chunk where
  framing : Bytes
  data : Bytes
  framing_ne : framing ≠ []
  data_ne : data ≠ []

/-- A response with a body. With `Content-Length` there is one chunk, and nothing after it. -/
structure HttpResponse where
  chunks : List Chunk
  /-- What ends a chunked body. -/
  tail : Bytes
  chunks_ne : chunks ≠ []

namespace HttpResponse

/-- The complete body. -/
def body (r : HttpResponse) : Bytes := r.chunks.flatMap Chunk.data

/-- The response on the stream. -/
def octets (r : HttpResponse) (i : ℕ) : List Octet :=
  (r.chunks.flatMap fun c => Octet.framing c.framing ++ Octet.body i c.data) ++
    Octet.framing r.tail

end HttpResponse

/-- A response whose body is JSON. -/
structure NodeResponse (env : RPCEnv) extends HttpResponse where
  value : Json
  parsed : env.parse toHttpResponse.body = some value

variable {env : RPCEnv}

/-- Responses one after another, of which the first has the number `k`. -/
def stream (k : ℕ) (rs : List (NodeResponse env)) : List Octet :=
  (rs.zipIdx k).flatMap fun r => r.1.octets r.2

/-- What happens at the client: a read of the socket, or a step of a call of `SendQuery`. -/
inductive SocketEvent
  | read (r : List Octet)
  | call (a : ThreadAction)

/-- What the reads deliver. -/
def reads (es : List SocketEvent) : List (List Octet) :=
  es.filterMap fun
    | .read r => some r
    | .call _ => none

def RPC_READ_BUFF_SIZE : ℕ := 1024 * 16

/-- A stream cut into reads, and steps of queries between them. -/
structure Segmentation (octets : List Octet) where
  events : List SocketEvent
  sized : ∀ r ∈ reads events, r ≠ [] ∧ r.length ≤ RPC_READ_BUFF_SIZE
  flatten_reads : (reads events).flatten = octets
  /-- Responses arrive in the reads only. -/
  queries : ∀ j, .call (.respond j) ∉ events

/-! ## The callbacks -/

/-- The values that `HandleResponse` was called with. -/
def handed (log : List RPCEvent) : List Json :=
  log.filterMap fun
    | .response j => some j
    | _ => none

/-- The client, the calls of `HandleResponse` with the response during whose body each was made, and
the exception that has ended the client. -/
structure Reading where
  threads : Threads
  calls : List (Option ℕ × Json)
  fault : Option RPCFault

/-- How an action ends. -/
def faultOf {α : Type} : Except RPCFault α → Option RPCFault
  | .ok _ => none
  | .error e => some e

namespace Reading

/-- A client that has just been connected. -/
def start (handle : ℕ) (username password : Bytes) : Reading :=
  ⟨⟨connectedTo handle username password, [], 0⟩, [], none⟩

/-- One call of `http_on_body`. -/
def deliver (env : RPCEnv) (s : Reading) (g : List Octet) : Reading :=
  match s.fault with
  | some _ => s
  | none =>
    let run := onBody env (Octet.bytes g) s.threads.client
    let made := handed (run.2.log.drop s.threads.client.log.length)
    { threads := { s.threads with client := run.2 }
      calls := s.calls ++ made.map fun j => (Octet.ownerOf g, j)
      fault := faultOf run.1 }

/-- What the client makes of an event. After an exception nothing happens any more. -/
def step (env : RPCEnv) (s : Reading) : SocketEvent → Reading
  | .read r => (pieces Octet.owner r).foldl (deliver env) s
  | .call a =>
    match s.fault with
    | some _ => s
    | none => { s with threads := (Threads.step env a s.threads).getD s.threads }

/-- The client under what happens. -/
def receive (env : RPCEnv) (es : List SocketEvent) (s : Reading) : Reading := es.foldl (step env) s

end Reading

theorem Reading.deliver_of_fault {s : Reading} {e : RPCFault} (hs : s.fault = some e)
    (g : List Octet) : s.deliver env g = s := by
  rw [deliver, hs]

theorem Reading.foldl_deliver_of_fault {s : Reading} {e : RPCFault} (hs : s.fault = some e)
    (gs : List (List Octet)) : gs.foldl (deliver env) s = s := by
  induction gs with
  | nil => rfl
  | cons g gs ih => rw [List.foldl_cons, deliver_of_fault hs, ih]

/-- The calls of `http_on_body` for some fragments are those of `HandleRead`. -/
theorem Reading.foldl_deliver (env : RPCEnv) (s : Reading) (hs : s.fault = none)
    (gs : List (List Octet)) :
    (gs.foldl (deliver env) s).threads.client =
        (RPCClient.handleRead env (gs.map Octet.bytes) s.threads.client).2 ∧
      (gs.foldl (deliver env) s).fault =
        faultOf (RPCClient.handleRead env (gs.map Octet.bytes) s.threads.client).1 := by
  induction gs generalizing s with
  | nil => exact ⟨rfl, hs⟩
  | cons g gs ih =>
    rw [List.foldl_cons, List.map_cons, RPCClient.handleRead]
    rcases hrun : onBody env (Octet.bytes g) s.threads.client with ⟨e | u, c⟩
    · have hdeliver : (s.deliver env g).threads.client = c ∧ (s.deliver env g).fault = some e := by
        rw [deliver, hs, hrun]
        exact ⟨rfl, rfl⟩
      rw [foldl_deliver_of_fault hdeliver.2, Action.bind_of_error hrun]
      exact hdeliver
    · have hdeliver : (s.deliver env g).threads.client = c ∧ (s.deliver env g).fault = none := by
        rw [deliver, hs, hrun]
        exact ⟨rfl, rfl⟩
      rw [Action.bind_of_ok hrun, ← hdeliver.1]
      exact ih _ hdeliver.2

/-- **What is read is what the read callback reads**: the calls of `http_on_body` for a read are
those of `onRead`. -/
theorem client_read {r : List Octet} (hr : r ≠ []) {s : Reading} (hs : s.fault = none) :
    (s.step env (.read r)).threads.client =
        (onRead env r.length ((pieces Octet.owner r).map Octet.bytes) s.threads.client).2 ∧
      (s.step env (.read r)).fault = faultOf
        (onRead env r.length ((pieces Octet.owner r).map Octet.bytes) s.threads.client).1 := by
  have hpos : ¬ (r.length : ℤ) ≤ 0 := by
    have hlen := List.length_pos_iff.mpr hr
    omega
  obtain ⟨hclient, hfault⟩ := s.foldl_deliver env hs (pieces Octet.owner r)
  rw [onRead, if_neg hpos, Reading.step, hclient, hfault, Action.bind_eq]
  rcases RPCClient.handleRead env ((pieces Octet.owner r).map Octet.bytes) s.threads.client with
    ⟨e | n, c⟩ <;> exact ⟨rfl, rfl⟩

/-! ## What one fragment does -/

/-- `HandleResponse` returns: the response has a member `error`, and if that is null an id that is
converted. -/
def Handled (env : RPCEnv) (j : Json) : Prop :=
  j.atMember "error" ≠ none ∧
    (Success j → ∃ v id, j.member "id" = some v ∧ env.getInt v = some id)

/-- What `HandleResponse` leaves on the log, and whether an exception escapes from it. -/
theorem handleResponse_ends (env : RPCEnv) (j : Json) {c : RPCClient} (hc : c.Sound) :
    ∃ later, (handleResponse env j c).2.log = c.log ++ .response j :: later ∧
      handed later = [] ∧
      ((Handled env j ∧ faultOf (handleResponse env j c).1 = none) ∨
        (¬ Handled env j ∧ faultOf (handleResponse env j c).1 = some .json)) := by
  by_cases hj : Success j
  · obtain ⟨v, data, hv, -, hrun⟩ := handleResponse_of_success env c hj
    cases hid : env.getInt v with
    | none =>
      rw [hid] at hrun
      refine ⟨[], by rw [hrun]; rfl, rfl, .inr ⟨?_, by rw [hrun]; rfl⟩⟩
      rintro ⟨-, hall⟩
      obtain ⟨v', id, hv', hid'⟩ := hall hj
      obtain rfl := Option.some.inj (hv.symm.trans hv')
      exact nomatch hid.symm.trans hid'
    | some id =>
      replace hrun : handleResponse env j c =
          (completeQuery id data >>= fun _ => pure 1) (received j c) := by
        rw [hrun, hid]
      have hhandled : Handled env j := by
        refine ⟨?_, fun _ => ⟨v, id, hv, hid⟩⟩
        rw [hj]
        exact nofun
      cases hlookup : c.queryMap.lookup id with
      | none =>
        rw [Action.bind_of_ok (completeQuery_of_none (c := received j c) hlookup)] at hrun
        rw [hrun]
        exact ⟨[], rfl, rfl, .inl ⟨hhandled, rfl⟩⟩
      | some q =>
        have hpromise : (received j c).promises[q.result]? = some none := hc.waiting _ _ hlookup
        rw [Action.bind_of_ok
          (completeQuery_of_some (c := received j c) hlookup hpromise)] at hrun
        rw [hrun]
        exact ⟨[.set q.result data], by simp, rfl, .inl ⟨hhandled, rfl⟩⟩
  · refine ⟨[], by rw [(handleResponse_of_not_success env c hj).1]; rfl, rfl, ?_⟩
    cases herror : j.atMember "error" with
    | none =>
      rw [handleResponse_of_none herror]
      exact .inr ⟨fun h => h.1 herror, rfl⟩
    | some error =>
      have hnull : error.isNull = false := by
        cases error with
        | null => exact absurd herror hj
        | _ => rfl
      rw [handleResponse_of_error herror hnull]
      exact .inl ⟨⟨by rw [herror]; exact nofun, fun h => absurd h hj⟩, rfl⟩

/-- What a call of `http_on_body` does: without an exception of the parser it is what
`HandleResponse` does. -/
theorem onBody_cases (env : RPCEnv) (fragment : Bytes) (c : RPCClient) :
    (env.parse fragment = none ∧ onBody env fragment c = (.error .parse, c)) ∨
    ∃ j, env.parse fragment = some j ∧
      (onBody env fragment c).2 = (handleResponse env j c).2 ∧
      faultOf (onBody env fragment c).1 = faultOf (handleResponse env j c).1 := by
  cases hparse : env.parse fragment with
  | none =>
    refine .inl ⟨rfl, ?_⟩
    rw [onBody, parse, hparse]
    rfl
  | some j =>
    refine .inr ⟨j, rfl, ?_⟩
    have hrun : onBody env fragment c = (handleResponse env j >>= fun _ => pure ()) c := by
      rw [onBody, parse, hparse]
      rfl
    rw [hrun, Action.bind_eq]
    rcases handleResponse env j c with ⟨e | n, c'⟩ <;> exact ⟨rfl, rfl⟩

namespace Reading

/-- **What one fragment does.** -/
theorem deliver_cases (env : RPCEnv) {s : Reading} (hs : s.fault = none) (hsound : s.threads.Sound)
    (g : List Octet) :
    (env.parse (Octet.bytes g) = none ∧ s.deliver env g = { s with fault := some .parse }) ∨
    ∃ j, env.parse (Octet.bytes g) = some j ∧ (s.deliver env g).threads.Sound ∧
      (s.deliver env g).calls = s.calls ++ [(Octet.ownerOf g, j)] ∧
      ((Handled env j ∧ (s.deliver env g).fault = none) ∨
        (¬ Handled env j ∧ (s.deliver env g).fault = some .json)) := by
  have hdeliver : s.deliver env g =
      { threads :=
          { s.threads with client := (onBody env (Octet.bytes g) s.threads.client).2 }
        calls := s.calls ++ (handed ((onBody env (Octet.bytes g) s.threads.client).2.log.drop
          s.threads.client.log.length)).map fun j => (Octet.ownerOf g, j)
        fault := faultOf (onBody env (Octet.bytes g) s.threads.client).1 } := by
    rw [deliver, hs]
  obtain ⟨hparse, hrun⟩ | ⟨j, hparse, hstate, hfault⟩ :=
    onBody_cases env (Octet.bytes g) s.threads.client
  · refine .inl ⟨hparse, ?_⟩
    rw [hdeliver, hrun]
    simp [handed, faultOf]
  · obtain ⟨later, hlog, hlater, hends⟩ := handleResponse_ends env j hsound.client
    rw [hstate, hfault] at hdeliver
    refine .inr ⟨j, hparse, ?_, ?_, ?_⟩
    · rw [hdeliver]
      exact Threads.sound_of_took hsound (.respond j)
    · have hmade : handed (RPCEvent.response j :: later) = [j] := congrArg (j :: ·) hlater
      rw [hdeliver, hlog, List.drop_left, hmade]
      rfl
    · rw [hdeliver]
      exact hends

/-- A step of a query leaves what has been read. -/
theorem step_call (env : RPCEnv) {s : Reading} (hs : s.fault = none) (hsound : s.threads.Sound)
    (a : ThreadAction) : (s.step env (.call a)).threads.Sound ∧
      (s.step env (.call a)).calls = s.calls ∧ (s.step env (.call a)).fault = none := by
  rw [step, hs]
  refine ⟨?_, rfl, rfl⟩
  cases hstep : Threads.step env a s.threads with
  | none => exact hsound
  | some t => exact Threads.sound_of_took hsound (Threads.took_of_step hstep)

end Reading

/-! ## What the fragments determine -/

open Classical in
/-- The calls of `HandleResponse` that some fragments lead to, and how the client ends. -/
noncomputable def outcome (env : RPCEnv) :
    List (List Octet) → List (Option ℕ × Json) × Option RPCFault
  | [] => ([], none)
  | g :: gs =>
    match env.parse (Octet.bytes g) with
    | none => ([], some .parse)
    | some j =>
      if Handled env j then ((Octet.ownerOf g, j) :: (outcome env gs).1, (outcome env gs).2)
      else ([(Octet.ownerOf g, j)], some .json)

variable {g : List Octet} {gs : List (List Octet)} {j : Json}

theorem outcome_of_throws (h : env.parse (Octet.bytes g) = none) (gs : List (List Octet)) :
    outcome env (g :: gs) = ([], some .parse) := by
  rw [outcome, h]

theorem outcome_of_handled (h : env.parse (Octet.bytes g) = some j) (hj : Handled env j)
    (gs : List (List Octet)) : outcome env (g :: gs) =
      ((Octet.ownerOf g, j) :: (outcome env gs).1, (outcome env gs).2) := by
  rw [outcome, h]
  exact if_pos hj

theorem outcome_of_not_handled (h : env.parse (Octet.bytes g) = some j) (hj : ¬ Handled env j)
    (gs : List (List Octet)) :
    outcome env (g :: gs) = ([(Octet.ownerOf g, j)], some .json) := by
  rw [outcome, h]
  exact if_neg hj

namespace Reading

/-- What will have been handled, and how the client will have ended, after some more fragments. -/
noncomputable def foreseen (env : RPCEnv) (s : Reading) (gs : List (List Octet)) :
    List (Option ℕ × Json) × Option RPCFault :=
  match s.fault with
  | none => (s.calls ++ (outcome env gs).1, (outcome env gs).2)
  | some e => (s.calls, some e)

/-- Until an exception escapes, the pending queries have promises of their own. -/
def Live (s : Reading) : Prop := s.fault = none → s.threads.Sound

theorem foreseen_of_fault {s : Reading} {e : RPCFault} (hs : s.fault = some e)
    (gs : List (List Octet)) : s.foreseen env gs = (s.calls, some e) := by
  rw [foreseen, hs]

theorem foreseen_of_none {s : Reading} (hs : s.fault = none) (gs : List (List Octet)) :
    s.foreseen env gs = (s.calls ++ (outcome env gs).1, (outcome env gs).2) := by
  rw [foreseen, hs]

/-- A call of `http_on_body` leads to what was foreseen. -/
theorem deliver_foreseen (env : RPCEnv) {s : Reading} (hs : s.Live) (g : List Octet)
    (gs : List (List Octet)) : (s.deliver env g).Live ∧
      (s.deliver env g).foreseen env gs = s.foreseen env (g :: gs) := by
  cases hfault : s.fault with
  | some e =>
    rw [deliver_of_fault hfault, foreseen_of_fault hfault, foreseen_of_fault hfault]
    exact ⟨hs, rfl⟩
  | none =>
    rw [foreseen_of_none hfault]
    obtain ⟨hparse, hrun⟩ | ⟨j, hparse, hsound, hcalls, hends⟩ :=
      deliver_cases env hfault (hs hfault) g
    · rw [hrun, outcome_of_throws hparse]
      exact ⟨nofun, by rw [foreseen, List.append_nil]⟩
    · refine ⟨fun _ => hsound, ?_⟩
      obtain ⟨hj, hend⟩ | ⟨hj, hend⟩ := hends
      · rw [foreseen_of_none hend, hcalls, outcome_of_handled hparse hj, List.append_assoc]
        rfl
      · rw [foreseen_of_fault hend, hcalls, outcome_of_not_handled hparse hj]

/-- A read leads to what was foreseen. -/
theorem foldl_deliver_foreseen (env : RPCEnv) {s : Reading} (hs : s.Live)
    (gs gs' : List (List Octet)) : (gs.foldl (deliver env) s).Live ∧
      (gs.foldl (deliver env) s).foreseen env gs' = s.foreseen env (gs ++ gs') := by
  induction gs generalizing s with
  | nil => exact ⟨hs, rfl⟩
  | cons g gs ih =>
    obtain ⟨hlive, hforeseen⟩ := deliver_foreseen env hs g (gs ++ gs')
    rw [List.cons_append, ← hforeseen]
    exact ih hlive

/-- So does a step of a query. -/
theorem step_call_foreseen (env : RPCEnv) {s : Reading} (hs : s.Live) (a : ThreadAction)
    (gs : List (List Octet)) : (s.step env (.call a)).Live ∧
      (s.step env (.call a)).foreseen env gs = s.foreseen env gs := by
  cases hfault : s.fault with
  | some e =>
    have hstep : s.step env (.call a) = s := by
      rw [step, hfault]
    rw [hstep]
    exact ⟨hs, rfl⟩
  | none =>
    obtain ⟨hsound, hcalls, hend⟩ := step_call env hfault (hs hfault) a
    rw [foreseen_of_none hend, foreseen_of_none hfault, hcalls]
    exact ⟨fun _ => hsound, rfl⟩

end Reading

/-- The fragments that the parser finds. -/
def fragments (es : List SocketEvent) : List (List Octet) :=
  (reads es).flatMap (pieces Octet.owner)

/-- **What the fragments determine**: what is handled, and how the client ends. -/
theorem foreseen_receive (env : RPCEnv) {s : Reading} (hs : s.Live) (es : List SocketEvent) :
    (s.receive env es).foreseen env [] = s.foreseen env (fragments es) := by
  induction es generalizing s with
  | nil => rfl
  | cons a es ih =>
    cases a with
    | read r =>
      obtain ⟨hlive, hforeseen⟩ :=
        Reading.foldl_deliver_foreseen env hs (pieces Octet.owner r) (fragments es)
      exact (ih hlive).trans hforeseen
    | call a =>
      obtain ⟨hlive, hforeseen⟩ := Reading.step_call_foreseen env hs a (fragments es)
      exact (ih hlive).trans hforeseen

theorem live_start (handle : ℕ) (username password : Bytes) :
    (Reading.start handle username password).Live := fun _ =>
  { client :=
      { ids := fun _ _ h => nomatch h
        waiting := fun _ _ h => nomatch h
        results := fun _ _ _ _ h => nomatch h }
    cmdId := (by decide : (0 : ℤ) = Json.toInt32 0)
    numbers := fun _ _ _ h => nomatch h }

/-- What a client has handled in the end, and how it has ended. -/
theorem outcome_receive (env : RPCEnv) (handle : ℕ) (username password : Bytes)
    (es : List SocketEvent) :
    ((Reading.start handle username password).receive env es).calls =
        (outcome env (fragments es)).1 ∧
      ((Reading.start handle username password).receive env es).fault =
        (outcome env (fragments es)).2 := by
  have hforeseen := foreseen_receive env (live_start handle username password) es
  have hstart : (Reading.start handle username password).fault = none := rfl
  rw [Reading.foreseen_of_none hstart] at hforeseen
  cases hfault : ((Reading.start handle username password).receive env es).fault with
  | some e =>
    rw [Reading.foreseen_of_fault hfault] at hforeseen
    exact ⟨(Prod.mk.inj hforeseen).1, (Prod.mk.inj hforeseen).2⟩
  | none =>
    rw [Reading.foreseen_of_none hfault, outcome, List.append_nil] at hforeseen
    exact ⟨(Prod.mk.inj hforeseen).1, (Prod.mk.inj hforeseen).2⟩

/-! ## The fragments of a stream -/

theorem owner_of_mem_framing {bs : Bytes} {a : Octet} (h : a ∈ Octet.framing bs) :
    a.owner = none := by
  obtain ⟨b, -, rfl⟩ := List.mem_map.mp h
  rfl

theorem owner_of_mem_body {i : ℕ} {bs : Bytes} {a : Octet} (h : a ∈ Octet.body i bs) :
    a.owner = some i := by
  obtain ⟨b, -, rfl⟩ := List.mem_map.mp h
  rfl

/-- **The stream is coherent**: a header, or what separates two chunks, stands between two
fragments. -/
theorem apart_stream (k : ℕ) (rs : List (NodeResponse env)) :
    Apart Octet.owner (stream k rs) := by
  refine apart_flatMap fun r _ => .append (apart_flatMap fun c _ => ?_) ?_
  · have hne : Octet.framing c.framing ≠ [] := fun h => c.framing_ne (List.map_eq_nil_iff.mp h)
    exact apart_append (fun _ => owner_of_mem_framing) hne
      (coherent_of_tag fun _ => owner_of_mem_body)
  · exact apart_of_untagged fun _ => owner_of_mem_framing

theorem filter_framing (bs : Bytes) :
    (Octet.framing bs).filter (fun a => a.owner.isSome) = [] :=
  List.filter_eq_nil_iff.mpr fun a ha => by simp [owner_of_mem_framing ha]

theorem filter_body (i : ℕ) (bs : Bytes) :
    (Octet.body i bs).filter (fun a => a.owner.isSome) = Octet.body i bs :=
  List.filter_eq_self.mpr fun a ha => by simp [owner_of_mem_body ha]

/-- What belongs to the bodies. -/
theorem filter_stream (k : ℕ) (rs : List (NodeResponse env)) :
    (stream k rs).filter (fun a => a.owner.isSome) =
      (rs.zipIdx k).flatMap fun r => Octet.body r.2 r.1.body := by
  rw [stream, List.filter_flatMap]
  refine congrArg (fun f => (rs.zipIdx k).flatMap f) (funext fun r => ?_)
  rw [HttpResponse.octets, List.filter_append, filter_framing, List.append_nil,
    List.filter_flatMap, HttpResponse.body, Octet.body, List.map_flatMap]
  refine congrArg (fun f => r.1.chunks.flatMap f) (funext fun c => ?_)
  rw [List.filter_append, filter_framing, filter_body]
  rfl

/-- The fragments together are the bodies, and each belongs to one response. -/
theorem fragments_spec {k : ℕ} {rs : List (NodeResponse env)} (seg : Segmentation (stream k rs)) :
    (fragments seg.events).flatten = (rs.zipIdx k).flatMap (fun r => Octet.body r.2 r.1.body) ∧
      ∀ g ∈ fragments seg.events, IsPiece Octet.owner g := by
  constructor
  · rw [fragments, flatten_flatMap_pieces, seg.flatten_reads, filter_stream]
  · intro g hg
    obtain ⟨r, hr, hg⟩ := List.mem_flatMap.mp hg
    have hin : r <:+: stream k rs := seg.flatten_reads ▸ List.infix_of_mem_flatten hr
    exact isPiece_of_mem ((apart_stream k rs).coherent.part hin) hg

/-! ## When the responses are put together -/

/-- What `HandleResponse` should be called with for some responses, the first of which has the
number `k`. -/
def values (k : ℕ) (rs : List (NodeResponse env)) : List (Option ℕ × Json) :=
  (rs.zipIdx k).map fun r => (some r.2, r.1.value)

/-- `HandleResponse` has been called once for each response, with the value of its complete body,
and no exception of the parser has escaped. -/
structure Reassembled (rs : List (NodeResponse env)) (s : Reading) : Prop where
  calls : s.calls = values 0 rs
  parses : s.fault ≠ some .parse

/-- A body that stands in one piece in one read. -/
def Whole (es : List SocketEvent) (i : ℕ) (body : Bytes) : Prop :=
  ∃ r ∈ reads es, Octet.body i body <:+: r

/-- The bytes of a body that are delivered first. -/
def firstFragment (es : List SocketEvent) (i : ℕ) : Option Bytes :=
  ((fragments es).find? fun g => Octet.ownerOf g = some i).map Octet.bytes

/-- Each body stands in one piece in one read, and `HandleResponse` returns from all but the last.
Of the last, one fragment is enough if it has the value already and `HandleResponse` throws. -/
def Undivided (rs : List (NodeResponse env)) (es : List SocketEvent) : Prop :=
  ∀ i r, rs[i]? = some r →
    (Whole es i r.body ∧ (i + 1 ≠ rs.length → Handled env r.value)) ∨
      (i + 1 = rs.length ∧ ¬ Handled env r.value ∧
        ∃ fragment, firstFragment es i = some fragment ∧ env.parse fragment = some r.value)

/-- What is needed of the fragments of a response: the body stands in one, and the client survives
it unless nothing else follows; or the client ends with the first, which has the value already. -/
def Met (gs : List (List Octet)) (i : ℕ) (last : Prop) (r : NodeResponse env) : Prop :=
  ((∃ g ∈ gs, Octet.body i r.body <:+: g) ∧ (¬ last → Handled env r.value)) ∨
    (last ∧ ¬ Handled env r.value ∧
      ∃ g, gs.find? (fun g => Octet.ownerOf g = some i) = some g ∧
        env.parse (Octet.bytes g) = some r.value)

/-- The fragments lead to the calls that should be made. -/
def Good (gs : List (List Octet)) (k : ℕ) (rs : List (NodeResponse env)) : Prop :=
  (outcome env gs).1 = values k rs ∧ (outcome env gs).2 ≠ some .parse

variable {gs₁ gs₂ : List (List Octet)} {k : ℕ} {r : NodeResponse env} {rs : List (NodeResponse env)}

theorem values_cons (k : ℕ) (r : NodeResponse env) (rs : List (NodeResponse env)) :
    values k (r :: rs) = (some k, r.value) :: values (k + 1) rs := rfl

@[simp] theorem bytes_body (i : ℕ) (bs : Bytes) : Octet.bytes (Octet.body i bs) = bs := by
  rw [Octet.bytes, Octet.body, List.map_map]
  exact List.map_id bs

/-- A fragment that leads to a call leads to one for the response it belongs to. -/
theorem outcome_cons_of_some (h : env.parse (Octet.bytes g) = some j) (gs : List (List Octet)) :
    ∃ calls, (outcome env (g :: gs)).1 = (Octet.ownerOf g, j) :: calls := by
  by_cases hj : Handled env j
  · exact ⟨_, by rw [outcome_of_handled h hj]⟩
  · exact ⟨_, by rw [outcome_of_not_handled h hj]⟩

/-- The fragments of the first response, and of the others. -/
structure Splits (gs₁ gs₂ : List (List Octet)) (k : ℕ) (r : NodeResponse env)
    (rs : List (NodeResponse env)) : Prop where
  pieces : ∀ g ∈ gs₁ ++ gs₂, IsPiece Octet.owner g
  first : gs₁.flatten = Octet.body k r.body
  others : gs₂.flatten = (rs.zipIdx (k + 1)).flatMap fun r => Octet.body r.2 r.1.body

theorem body_ne_nil (r : NodeResponse env) (k : ℕ) : Octet.body k r.body ≠ [] := by
  obtain ⟨c, hc⟩ := List.exists_mem_of_ne_nil _ r.chunks_ne
  obtain ⟨b, hb⟩ := List.exists_mem_of_ne_nil _ c.data_ne
  have hmem : b ∈ r.body := List.mem_flatMap.mpr ⟨c, hc, hb⟩
  exact fun h => List.ne_nil_of_mem hmem (List.map_eq_nil_iff.mp h)

theorem ownerOf_body (r : NodeResponse env) (i : ℕ) :
    Octet.ownerOf (Octet.body i r.body) = some i := by
  cases hbody : Octet.body i r.body with
  | nil => exact absurd hbody (body_ne_nil r i)
  | cons a l => exact owner_of_mem_body (hbody ▸ List.mem_cons_self)

/-- A later body is not of an earlier response. -/
theorem owner_ne_of_later {a : Octet}
    (h : a ∈ (rs.zipIdx (k + 1)).flatMap fun r => Octet.body r.2 r.1.body) :
    a.owner ≠ some k := by
  obtain ⟨x, hx, ha⟩ := List.mem_flatMap.mp h
  have hle := List.le_snd_of_mem_zipIdx hx
  rw [owner_of_mem_body ha]
  intro heq
  have hk := Option.some.inj heq
  omega

namespace Splits

theorem owner_first (h : Splits gs₁ gs₂ k r rs) : ∀ a ∈ gs₁.flatten, a.owner = some k := by
  rw [h.first]
  exact fun _ => owner_of_mem_body

theorem owner_others (h : Splits gs₁ gs₂ k r rs) : ∀ a ∈ gs₂.flatten, a.owner ≠ some k := by
  rw [h.others]
  exact fun _ => owner_ne_of_later

/-- The first fragment, which belongs to the first response. -/
theorem exists_head (h : Splits gs₁ gs₂ k r rs) :
    ∃ g gs, gs₁ = g :: gs ∧ ∀ g' ∈ g :: gs, Octet.ownerOf g' = some k := by
  cases gs₁ with
  | nil => exact absurd h.first.symm (body_ne_nil r k)
  | cons g gs =>
    refine ⟨g, gs, rfl, fun g' hg' => ?_⟩
    obtain ⟨hne, -⟩ := h.pieces g' (List.mem_append_left gs₂ hg')
    cases g' with
    | nil => exact absurd rfl hne
    | cons a g' =>
      exact h.owner_first a (List.mem_flatten.mpr ⟨_, hg', List.mem_cons_self⟩)

/-- The body stands in one fragment exactly if there is no other of the response. -/
theorem mem_iff (h : Splits gs₁ gs₂ k r rs) :
    (∃ g ∈ gs₁ ++ gs₂, Octet.body k r.body <:+: g) ↔ gs₁ = [Octet.body k r.body] := by
  constructor
  · rintro ⟨g, hg, hin⟩
    rw [← h.first] at hin ⊢
    refine eq_singleton_of_infix h.pieces h.owner_first h.owner_others ?_ hg hin
    rw [h.first]
    exact body_ne_nil r k
  · intro heq
    rw [heq]
    exact ⟨_, List.mem_append_left _ (List.mem_singleton.mpr rfl), List.infix_rfl⟩

/-- What leads to the right calls meets what is needed, and so do the others. -/
theorem met_of_good (h : Splits gs₁ gs₂ k r rs) (hgood : Good (gs₁ ++ gs₂) k (r :: rs)) :
    Met (gs₁ ++ gs₂) k (rs = []) r ∧ Good gs₂ (k + 1) rs := by
  obtain ⟨g, gs, rfl, howner⟩ := h.exists_head
  obtain ⟨hcalls, hparses⟩ := hgood
  have hg : Octet.ownerOf g = some k := howner g List.mem_cons_self
  rw [values_cons, List.cons_append] at hcalls
  rw [List.cons_append] at hparses
  cases hparse : env.parse (Octet.bytes g) with
  | none =>
    rw [outcome_of_throws hparse] at hparses
    exact absurd rfl hparses
  | some j =>
    by_cases hj : Handled env j
    · rw [outcome_of_handled hparse hj] at hcalls hparses
      obtain ⟨hhead, hrest⟩ := List.cons.inj hcalls
      obtain ⟨-, rfl⟩ := Prod.mk.inj hhead
      cases gs with
      | nil =>
        refine ⟨.inl ⟨h.mem_iff.mpr ?_, fun _ => hj⟩, hrest, hparses⟩
        rw [← h.first, List.flatten_singleton]
      | cons g' gs =>
        -- A second fragment throws, or leads to a second call for the response.
        have hg' : Octet.ownerOf g' = some k :=
          howner g' (List.mem_cons_of_mem g List.mem_cons_self)
        cases hparse' : env.parse (Octet.bytes g') with
        | none =>
          rw [List.cons_append, outcome_of_throws hparse'] at hparses
          exact absurd rfl hparses
        | some j' =>
          obtain ⟨calls, hcons⟩ := outcome_cons_of_some hparse' (gs ++ gs₂)
          have hrest' := hcons.symm.trans hrest
          cases rs with
          | nil => exact nomatch hrest'
          | cons r' rs =>
            rw [values_cons, hg'] at hrest'
            have hk := Option.some.inj (Prod.mk.inj (List.cons.inj hrest').1).1
            omega
    · rw [outcome_of_not_handled hparse hj] at hcalls
      obtain ⟨hhead, hrest⟩ := List.cons.inj hcalls
      obtain ⟨-, rfl⟩ := Prod.mk.inj hhead
      cases rs with
      | cons r' rs => exact nomatch hrest
      | nil =>
        have hpieces : ∀ g' ∈ gs₂, IsPiece Octet.owner g' := fun g' hg' =>
          h.pieces g' (List.mem_append_right _ hg')
        have hgs₂ : gs₂ = [] := eq_nil_of_flatten hpieces h.others
        refine ⟨.inr ⟨rfl, hj, g, ?_, hparse⟩, ?_⟩
        · rw [List.cons_append, List.find?_cons_of_pos (by simp [hg])]
        · rw [hgs₂]
          exact ⟨rfl, nofun⟩

/-- What meets what is needed leads to the right calls, if the others do. -/
theorem good_of_met (h : Splits gs₁ gs₂ k r rs) (hmet : Met (gs₁ ++ gs₂) k (rs = []) r)
    (hgood : Good gs₂ (k + 1) rs) : Good (gs₁ ++ gs₂) k (r :: rs) := by
  obtain ⟨hmem, hlast⟩ | ⟨rfl, hvalue, g, hfind, hparse⟩ := hmet
  · have hbody := ownerOf_body r k
    have hparse : env.parse (Octet.bytes (Octet.body k r.body)) = some r.value := by
      rw [bytes_body]
      exact r.parsed
    rw [h.mem_iff.mp hmem, List.singleton_append]
    by_cases hvalue : Handled env r.value
    · rw [Good, outcome_of_handled hparse hvalue, hbody, values_cons, hgood.1]
      exact ⟨rfl, hgood.2⟩
    · have hrs : rs = [] := by
        by_contra hrs
        exact hvalue (hlast hrs)
      rw [Good, outcome_of_not_handled hparse hvalue, hbody, hrs]
      exact ⟨rfl, nofun⟩
  · obtain ⟨g', gs, rfl, howner⟩ := h.exists_head
    have hg' : Octet.ownerOf g' = some k := howner g' List.mem_cons_self
    rw [List.cons_append, List.find?_cons_of_pos (by simp [hg'])] at hfind
    obtain rfl := Option.some.inj hfind
    rw [Good, List.cons_append, outcome_of_not_handled hparse hvalue, hg']
    exact ⟨rfl, nofun⟩

/-- What is needed of a later response is needed of the later fragments. -/
theorem met_iff (h : Splits gs₁ gs₂ k r rs) {i : ℕ} (hi : k < i) (last : Prop)
    (r' : NodeResponse env) : Met (gs₁ ++ gs₂) i last r' ↔ Met gs₂ i last r' := by
  obtain ⟨g, gs, rfl, howner⟩ := h.exists_head
  have hne (g' : List Octet) (hg' : g' ∈ g :: gs) : Octet.ownerOf g' ≠ some i := by
    rw [howner g' hg']
    intro heq
    have hk := Option.some.inj heq
    omega
  have hmem : (∃ g' ∈ g :: gs ++ gs₂, Octet.body i r'.body <:+: g') ↔
      ∃ g' ∈ gs₂, Octet.body i r'.body <:+: g' := by
    constructor
    · rintro ⟨g', hg', hin⟩
      obtain hg' | hg' := List.mem_append.mp hg'
      · obtain ⟨a, ha⟩ := List.exists_mem_of_ne_nil _ (body_ne_nil r' i)
        have hk := h.owner_first a (List.mem_flatten.mpr ⟨g', hg', hin.subset ha⟩)
        have heq := Option.some.inj (hk.symm.trans (owner_of_mem_body ha))
        omega
      · exact ⟨g', hg', hin⟩
    · rintro ⟨g', hg', hin⟩
      exact ⟨g', List.mem_append_right _ hg', hin⟩
  have hfind : (g :: gs ++ gs₂).find? (fun g => Octet.ownerOf g = some i) =
      gs₂.find? fun g => Octet.ownerOf g = some i := by
    rw [List.find?_append, List.find?_eq_none.mpr fun g' hg' => by simpa using hne g' hg']
    rfl
  rw [Met, Met, hmem, hfind]

end Splits

/-- The fragments of the first response are cut off the others. -/
theorem exists_splits (hgs : ∀ g ∈ gs, IsPiece Octet.owner g)
    (h : gs.flatten = ((r :: rs).zipIdx k).flatMap fun r => Octet.body r.2 r.1.body) :
    ∃ gs₁ gs₂, gs = gs₁ ++ gs₂ ∧ Splits gs₁ gs₂ k r rs := by
  rw [List.zipIdx_cons, List.flatMap_cons] at h
  obtain ⟨gs₁, gs₂, rfl, hfirst, hrest⟩ :=
    exists_append_of_flatten hgs h (fun _ => owner_of_mem_body) fun _ => owner_ne_of_later
  exact ⟨gs₁, gs₂, rfl, hgs, hfirst, hrest⟩

/-- **The fragments lead to the right calls, if and only if** each response meets what is
needed. -/
theorem good_iff (hgs : ∀ g ∈ gs, IsPiece Octet.owner g)
    (h : gs.flatten = (rs.zipIdx k).flatMap fun r => Octet.body r.2 r.1.body) :
    Good gs k rs ↔ ∀ i r, rs[i]? = some r → Met gs (k + i) (i + 1 = rs.length) r := by
  induction rs generalizing k gs with
  | nil =>
    obtain rfl := eq_nil_of_flatten hgs h
    exact iff_of_true ⟨rfl, nofun⟩ fun i r hr => nomatch hr
  | cons r rs ih =>
    obtain ⟨gs₁, gs₂, rfl, hsplits⟩ := exists_splits hgs h
    have hrest := ih (fun g hg => hgs g (List.mem_append_right gs₁ hg)) hsplits.others
    have hlast : (rs = []) = (0 + 1 = (r :: rs).length) := by
      rw [eq_iff_iff, ← List.length_eq_zero_iff, List.length_cons]
      omega
    have hlater (i : ℕ) (r' : NodeResponse env) :
        Met (gs₁ ++ gs₂) (k + (i + 1)) (i + 1 + 1 = (r :: rs).length) r' ↔
          Met gs₂ (k + 1 + i) (i + 1 = rs.length) r' := by
      rw [hsplits.met_iff (by omega), List.length_cons, Nat.add_right_cancel_iff,
        Nat.add_right_comm k 1 i, Nat.add_assoc]
    constructor
    · intro hgood i r' hr'
      obtain ⟨hmet, hgood⟩ := hsplits.met_of_good hgood
      cases i with
      | zero =>
        obtain rfl := Option.some.inj hr'
        exact hlast ▸ hmet
      | succ i => exact (hlater i r').mpr (hrest.mp hgood i r' hr')
    · intro hall
      refine hsplits.good_of_met (hlast ▸ hall 0 r rfl) (hrest.mpr fun i r' hr' => ?_)
      exact (hlater i r').mp (hall (i + 1) r' hr')

/-- What stands in one read stands in one fragment. -/
theorem whole_iff (es : List SocketEvent) (i : ℕ) (r : NodeResponse env) :
    Whole es i r.body ↔ ∃ g ∈ fragments es, Octet.body i r.body <:+: g := by
  constructor
  · rintro ⟨read, hread, hin⟩
    have htag : ∀ a ∈ Octet.body i r.body, a.owner ≠ none := fun a ha => by
      rw [owner_of_mem_body ha]
      exact nofun
    obtain ⟨g, hg, hin⟩ := exists_mem_pieces htag (body_ne_nil r i) hin
    exact ⟨g, List.mem_flatMap.mpr ⟨read, hread, hg⟩, hin⟩
  · rintro ⟨g, hg, hin⟩
    obtain ⟨read, hread, hg⟩ := List.mem_flatMap.mp hg
    exact ⟨read, hread, hin.trans (infix_of_mem_pieces hg)⟩

/-- **The responses are put together, if and only if** each body arrives undivided. -/
theorem reassembled_iff (env : RPCEnv) (handle : ℕ) (username password : Bytes)
    (rs : List (NodeResponse env)) (seg : Segmentation (stream 0 rs)) :
    Reassembled rs ((Reading.start handle username password).receive env seg.events) ↔
      Undivided rs seg.events := by
  obtain ⟨hcalls, hfault⟩ := outcome_receive env handle username password seg.events
  obtain ⟨hflatten, hpieces⟩ := fragments_spec seg
  have hgood : Reassembled rs ((Reading.start handle username password).receive env seg.events) ↔
      Good (fragments seg.events) 0 rs := by
    rw [Good, ← hcalls, ← hfault]
    exact ⟨fun h => ⟨h.calls, h.parses⟩, fun h => ⟨h.1, h.2⟩⟩
  rw [hgood, good_iff hpieces hflatten]
  refine forall_congr' fun i => forall_congr' fun r => imp_congr_right fun _ => ?_
  rw [Met, whole_iff, Nat.zero_add, firstFragment]
  simp only [Option.map_eq_some_iff, exists_exists_and_eq_and, ne_eq]

/-! ### A response in two reads -/

/-- A body. -/
def resultBody : Bytes := ascii "\x7b\"error\":null,\"id\":0,\"result\":1\x7d"

/-- A parser that knows this body, and throws for what is no more than a part of it. -/
def resultEnv : RPCEnv := { firstEnv with
  parse := fun bs =>
    if bs = resultBody then some (.obj [("error", .null), ("id", .int 0), ("result", .int 1)])
    else none }

/-- The response with this body. -/
def resultResponse : NodeResponse resultEnv where
  chunks := [{
    framing := ascii "HTTP/1.1 200 OK\r\nContent-Length: 32\r\n\r\n"
    data := resultBody
    framing_ne := by decide
    data_ne := by decide }]
  tail := []
  chunks_ne := List.cons_ne_nil _ _
  value := .obj [("error", .null), ("id", .int 0), ("result", .int 1)]
  parsed := by simp [HttpResponse.body, resultEnv]

/-- The response, cut within its body. -/
def resultReads : Segmentation (stream 0 [resultResponse]) where
  events :=
    [.read ((stream 0 [resultResponse]).take 50), .read ((stream 0 [resultResponse]).drop 50)]
  sized := by decide +kernel
  flatten_reads := by decide +kernel
  queries := by simp

/-- A response in two reads is not put together: the parser throws at the first part. -/
theorem not_reassembled : ¬ Reassembled [resultResponse]
    ((Reading.start 0 [] []).receive resultEnv resultReads.events) := by
  intro h
  apply h.parses
  rw [(outcome_receive resultEnv 0 [] [] resultReads.events).2]
  have hfragments : fragments resultReads.events =
      [Octet.body 0 (resultBody.take 11), Octet.body 0 (resultBody.drop 11)] := by
    decide +kernel
  rw [hfragments, outcome_of_throws]
  decide

end ElectrumZ.Net.Responses
