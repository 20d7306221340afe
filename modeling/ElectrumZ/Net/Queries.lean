import ElectrumZ.Foundations.Runs
import ElectrumZ.Net.RPCClient

/-!
# Queries of many threads

`SendQuery` called by any number of threads, while responses arrive: each call takes its id,
registers its query, writes its request and returns in steps of its own, in any order with the steps
of the others.

* `run_sendQuery`: the steps of one call, one after another, are `sendQuery`.
* `took_of_step`: what a step can do.
* `sound_of_runs`: in every state that is reached, each pending query has a promise of its own that
  has no result yet.
-/

namespace ElectrumZ.Net

open Foundations RPCClient

/-! ## The threads -/

/-- Where a call of `SendQuery` stands; `n` is the number of queries that took an id before. -/
inductive Stage
  | entered
  | numbered (n : ℕ) (id : ℤ)
  | added (n : ℕ) (q : RPCQuery)
  | written (n : ℕ) (q : RPCQuery)
  | returned (n : ℕ) (q : RPCQuery)

namespace Stage

/-- The id that was taken, and how many before. -/
def number : Stage → Option (ℕ × ℤ)
  | entered => none
  | numbered n id => some (n, id)
  | added n q | written n q | returned n q => some (n, q.id)

/-- The query that was registered, and how many took an id before. -/
def query : Stage → Option (ℕ × RPCQuery)
  | entered | numbered _ _ => none
  | added n q | written n q | returned n q => some (n, q)

end Stage

/-- A call of `SendQuery` with an object. -/
structure Sending where
  members : List (String × Json)
  stage : Stage

/-- A client, and the calls of `SendQuery` on it, of several threads. -/
structure Threads where
  client : RPCClient
  sendings : List Sending
  /-- The number of queries that have taken an id. -/
  issued : ℕ

/-- The steps of the call `k`, and a response of the node. -/
inductive ThreadAction
  | enter (members : List (String × Json))
  | number (k : ℕ)
  | add (k : ℕ)
  | write (k : ℕ)
  | give (k : ℕ)
  | respond (j : Json)

namespace Threads

/-- No call has been made yet. -/
def start (username password : Bytes) : Threads := ⟨.new username password, [], 0⟩

/-- What a call goes on to do. -/
def advance (t : Threads) (k : ℕ) (members : List (String × Json)) (stage : Stage)
    (client : RPCClient) : Threads :=
  { t with client, sendings := t.sendings.set k ⟨members, stage⟩ }

variable (env : RPCEnv)

/-- One step of a thread. After an exception or a crash the others go on. -/
def step : ThreadAction → Threads → Option Threads
  | .enter members, t => some { t with sendings := t.sendings ++ [⟨members, .entered⟩] }
  | .number k, t =>
    match t.sendings[k]? with
    | some ⟨members, .entered⟩ =>
      some { t.advance k members (.numbered t.issued t.client.cmdId) (nextId t.client).2 with
        issued := t.issued + 1 }
    | _ => none
  | .add k, t =>
    match t.sendings[k]? with
    | some ⟨members, .numbered n id⟩ =>
      let q : RPCQuery := ⟨id, t.client.promises.length⟩
      some (t.advance k members (.added n q) (addQuery q (makePromise t.client).2).2)
    | _ => none
  | .write k, t =>
    match t.sendings[k]? with
    | some ⟨members, .added n q⟩ =>
      (request q.id (.obj members)).map fun j =>
        t.advance k members (.written n q) (RPCClient.writeInternal env j t.client).2
    | _ => none
  | .give k, t =>
    match t.sendings[k]? with
    | some ⟨members, .written n q⟩ => some (t.advance k members (.returned n q) t.client)
    | _ => none
  | .respond j, t => some { t with client := (handleResponse env j t.client).2 }

/-- What the stage of the call `k` tells. -/
def ofCall {α : Type} (f : Stage → Option α) (t : Threads) (k : ℕ) : Option α :=
  t.sendings[k]?.bind fun s => f s.stage

/-- The id the call `k` took, and how many took one before. -/
def numberOf : Threads → ℕ → Option (ℕ × ℤ) := ofCall Stage.number

/-- The query the call `k` registered, and how many took an id before. -/
def queryOf : Threads → ℕ → Option (ℕ × RPCQuery) := ofCall Stage.query

end Threads

/-! ## One call alone -/

/-- **The steps of a call, one after another, are `SendQuery`.** -/
theorem run_sendQuery (env : RPCEnv) (members : List (String × Json)) (t : Threads) :
    ∃ t' stage, Runs (Threads.step env) t [.enter members, .number t.sendings.length,
        .add t.sendings.length, .write t.sendings.length, .give t.sendings.length] t' ∧
      t'.client = (sendQuery env (.obj members) t.client).2 ∧
      t'.sendings = t.sendings ++ [⟨members, stage⟩] := by
  obtain ⟨client, sendings, issued⟩ := t
  have hget (stage : Stage) :
      (sendings ++ [⟨members, stage⟩])[sendings.length]? = some ⟨members, stage⟩ := by simp
  have hset (stage stage' : Stage) : (sendings ++ [Sending.mk members stage]).set
      sendings.length ⟨members, stage'⟩ = sendings ++ [⟨members, stage'⟩] := by simp
  obtain ⟨j, hj, -⟩ := request_obj client.cmdId members
  let q : RPCQuery := ⟨client.cmdId, client.promises.length⟩
  let c := registered q (nextId client).2
  let c' := (RPCClient.writeInternal env j c).2
  refine ⟨⟨c', _, issued + 1⟩, .returned issued q,
    ⟨⟨client, sendings ++ [⟨members, .entered⟩], issued⟩, rfl,
      ⟨(nextId client).2, sendings ++ [⟨members, .numbered issued client.cmdId⟩], issued + 1⟩, ?_,
      ⟨c, sendings ++ [⟨members, .added issued q⟩], issued + 1⟩, ?_,
      ⟨c', sendings ++ [⟨members, .written issued q⟩], issued + 1⟩, ?_,
      ⟨c', sendings ++ [⟨members, .returned issued q⟩], issued + 1⟩, ?_,
      rfl⟩, ?_, rfl⟩
  · simp only [Threads.step, Threads.advance, hget, hset]
  · simp only [Threads.step, Threads.advance, hget, hset]
    rfl
  · simp only [Threads.step, Threads.advance, hget, hset, hj, Option.map_some, q, c']
  · simp only [Threads.step, Threads.advance, hget, hset]
  · exact (sendQuery_snd env hj).symm

/-- The first call, up to its request. -/
def firstCall : List ThreadAction :=
  [.enter [("method", .str "getblockchaininfo")], .number 0, .add 0, .write 0]

/-! ## What a step can do -/

namespace Threads

/-- What a step makes of the state. -/
inductive Took (env : RPCEnv) (t : Threads) : ThreadAction → Threads → Prop
  | enter (members : List (String × Json)) :
    Took env t (.enter members) { t with sendings := t.sendings ++ [⟨members, .entered⟩] }
  | number {k : ℕ} {members : List (String × Json)}
      (hk : t.sendings[k]? = some ⟨members, .entered⟩) :
    Took env t (.number k)
      { t.advance k members (.numbered t.issued t.client.cmdId) (nextId t.client).2 with
        issued := t.issued + 1 }
  | add {k n : ℕ} {members : List (String × Json)} {id : ℤ}
      (hk : t.sendings[k]? = some ⟨members, .numbered n id⟩) :
    Took env t (.add k) (t.advance k members (.added n ⟨id, t.client.promises.length⟩)
      (registered ⟨id, t.client.promises.length⟩ t.client))
  | write {k n : ℕ} {members : List (String × Json)} {q : RPCQuery} {j : Json} {buf : Bytes}
      (hk : t.sendings[k]? = some ⟨members, .added n q⟩) (hj : Carries j q.id) :
    Took env t (.write k) (t.advance k members (.written n q) (sent j buf t.client))
  | give {k n : ℕ} {members : List (String × Json)} {q : RPCQuery}
      (hk : t.sendings[k]? = some ⟨members, .written n q⟩) :
    Took env t (.give k) (t.advance k members (.returned n q) t.client)
  | respond (j : Json) :
    Took env t (.respond j) { t with client := (handleResponse env j t.client).2 }

variable {env : RPCEnv} {a : ThreadAction} {t t' : Threads}

/-- **What a step can do.** -/
theorem took_of_step (h : step env a t = some t') : Took env t a t' := by
  cases a with
  | enter members =>
    obtain rfl := Option.some.inj h
    exact .enter members
  | number k =>
    simp only [step] at h
    split at h
    · next members hk =>
      obtain rfl := Option.some.inj h
      exact .number hk
    · exact nomatch h
  | add k =>
    simp only [step] at h
    split at h
    · next members n id hk =>
      obtain rfl := Option.some.inj h
      exact .add hk
    · exact nomatch h
  | write k =>
    simp only [step] at h
    split at h
    · next members n q hk =>
      obtain ⟨j, hrequest, hj⟩ := request_obj q.id members
      obtain ⟨buf, hbuf⟩ := writeInternal_snd env j t.client
      rw [hrequest, Option.map_some, hbuf] at h
      obtain rfl := Option.some.inj h
      exact .write hk hj
    · exact nomatch h
  | give k =>
    simp only [step] at h
    split at h
    · next members n q hk =>
      obtain rfl := Option.some.inj h
      exact .give hk
    · exact nomatch h
  | respond j =>
    obtain rfl := Option.some.inj h
    exact .respond j

end Threads

/-! ## The pending queries -/

namespace RPCClient

/-- Each pending query has a promise of its own, which has no result yet. -/
structure Sound (c : RPCClient) : Prop where
  ids : ∀ id q, c.queryMap.lookup id = some q → q.id = id ∧ Json.toInt32 id = id
  waiting : ∀ id q, c.queryMap.lookup id = some q → c.promises[q.result]? = some none
  results : ∀ id id' q q', c.queryMap.lookup id = some q → c.queryMap.lookup id' = some q' →
    q.result = q'.result → id = id'

variable {c : RPCClient} {q : RPCQuery} {id : ℤ} {data : Json}

theorem Sound.result_lt (hc : Sound c) (h : c.queryMap.lookup id = some q) :
    q.result < c.promises.length := by
  obtain ⟨hlt, -⟩ := List.getElem?_eq_some_iff.mp (hc.waiting _ _ h)
  exact hlt

/-- What is pending after a registration. -/
theorem lookup_registered {q' : RPCQuery}
    (h : (registered q c).queryMap.lookup id = some q') :
    (id = q.id ∧ q' = q) ∨ c.queryMap.lookup id = some q' := by
  rw [registered, lookup_emplace] at h
  split_ifs at h with hid
  · exact .inl ⟨hid.1, (Option.some.inj h).symm⟩
  · exact .inr h

theorem Sound.registered (hc : Sound c) (hint : Json.toInt32 q.id = q.id)
    (hresult : q.result = c.promises.length) : Sound (registered q c) := by
  refine ⟨fun id q' h => ?_, fun id q' h => ?_, fun id id' q₁ q₂ h₁ h₂ heq => ?_⟩
  · obtain ⟨rfl, rfl⟩ | h := lookup_registered h
    · exact ⟨rfl, hint⟩
    · exact hc.ids id q' h
  · obtain ⟨rfl, rfl⟩ | h := lookup_registered h
    · simp [RPCClient.registered, hresult]
    · have hlt := hc.result_lt h
      rw [RPCClient.registered, List.getElem?_append_left hlt]
      exact hc.waiting id q' h
  · obtain ⟨hid₁, hq₁⟩ | hold₁ := lookup_registered h₁ <;>
      obtain ⟨hid₂, hq₂⟩ | hold₂ := lookup_registered h₂
    · rw [hid₁, hid₂]
    · have hlt := hc.result_lt hold₂
      rw [hq₁] at heq
      omega
    · have hlt := hc.result_lt hold₁
      rw [hq₂] at heq
      omega
    · exact hc.results id id' q₁ q₂ hold₁ hold₂ heq

/-- What is pending after a query has been completed. -/
theorem lookup_completed {id' : ℤ} :
    (completed id q data c).queryMap.lookup id' =
      if id' = id then none else c.queryMap.lookup id' :=
  lookup_erase _ _ _

theorem Sound.completed (hc : Sound c) (hq : c.queryMap.lookup id = some q) :
    Sound (completed id q data c) := by
  have hold (id' : ℤ) (q' : RPCQuery)
      (h : (RPCClient.completed id q data c).queryMap.lookup id' = some q') :
      id' ≠ id ∧ c.queryMap.lookup id' = some q' := by
    rw [lookup_completed] at h
    split_ifs at h with hid
    exact ⟨hid, h⟩
  refine ⟨fun id' q' h => hc.ids id' q' (hold id' q' h).2, fun id' q' h => ?_,
    fun id₁ id₂ q₁ q₂ h₁ h₂ => hc.results id₁ id₂ q₁ q₂ (hold _ _ h₁).2 (hold _ _ h₂).2⟩
  obtain ⟨hne, h⟩ := hold id' q' h
  have hresult : q.result ≠ q'.result := fun heq => hne (hc.results id' id q' q h hq heq.symm)
  rw [RPCClient.completed, List.getElem?_set_ne hresult]
  exact hc.waiting id' q' h

/-- A response, whatever it is, leaves the other pending queries with their promises. -/
theorem Sound.handleResponse (hc : Sound c) (env : RPCEnv) (j : Json) :
    Sound (handleResponse env j c).2 := by
  obtain ⟨id, q, data, -, -, hq, hrun⟩ | ⟨hrun, -⟩ := handleResponse_cases env j hc.waiting
  · rw [hrun]
    exact Sound.completed (c := received j c) ⟨hc.ids, hc.waiting, hc.results⟩ hq
  · rw [hrun]
    exact ⟨hc.ids, hc.waiting, hc.results⟩

/-- A response takes no id. -/
theorem Sound.cmdId_handleResponse (hc : Sound c) (env : RPCEnv) (j : Json) :
    (RPCClient.handleResponse env j c).2.cmdId = c.cmdId := by
  obtain ⟨id, q, data, -, -, -, hrun⟩ | ⟨hrun, -⟩ := handleResponse_cases env j hc.waiting
  · rw [hrun]
    rfl
  · rw [hrun]
    rfl

end RPCClient

namespace Threads

/-- The ids that are taken are numbered through, and each pending query has a promise of its own. -/
structure Sound (t : Threads) : Prop where
  client : t.client.Sound
  cmdId : t.client.cmdId = Json.toInt32 t.issued
  numbers : ∀ k n id, t.numberOf k = some (n, id) → n < t.issued ∧ id = Json.toInt32 n

variable {α : Type} {f : Stage → Option α} {env : RPCEnv} {a : ThreadAction} {t t' : Threads}
  {k : ℕ} {s : Sending} {members : List (String × Json)} {stage : Stage} {c : RPCClient}

theorem ofCall_enter (hf : f .entered = none) (k : ℕ) :
    ofCall f { t with sendings := t.sendings ++ [⟨members, .entered⟩] } k = ofCall f t k := by
  unfold ofCall
  by_cases hk : k < t.sendings.length
  · rw [List.getElem?_append_left hk]
  · rw [List.getElem?_append_right (by omega),
      List.getElem?_eq_none (by omega : t.sendings.length ≤ k), Option.bind_none]
    cases k - t.sendings.length with
    | zero => exact hf
    | succ i => rfl

theorem ofCall_advance (hk : t.sendings[k]? = some s) (k' : ℕ) :
    ofCall f (t.advance k members stage c) k' = if k' = k then f stage else ofCall f t k' := by
  obtain ⟨hlt, -⟩ := List.getElem?_eq_some_iff.mp hk
  rw [ofCall, advance, List.getElem?_set]
  by_cases hkk : k = k'
  · subst hkk
    rw [if_pos rfl, if_pos hlt, if_pos rfl, Option.bind_some]
  · rw [if_neg hkk, if_neg (Ne.symm hkk), ofCall]

theorem ofCall_of_some (hk : t.sendings[k]? = some s) : ofCall f t k = f s.stage := by
  rw [ofCall, hk, Option.bind_some]

/-- A step that tells the same of its call leaves what the calls tell. -/
theorem ofCall_advance_eq (hk : t.sendings[k]? = some s) (hf : f stage = f s.stage) (k' : ℕ) :
    ofCall f (t.advance k members stage c) k' = ofCall f t k' := by
  rw [ofCall_advance hk]
  split_ifs with hkk
  · rw [hkk, ofCall_of_some hk, hf]
  · rfl

/-- Only `cmdId++` changes the numbers that were taken. -/
theorem numberOf_of_took (h : Took env t a t') (hc : t.client.Sound) :
    (t'.issued = t.issued + 1 ∧ t'.client.cmdId = Json.toInt32 (t.client.cmdId + 1) ∧
      ∃ k, ∀ k', t'.numberOf k' =
        if k' = k then some (t.issued, t.client.cmdId) else t.numberOf k') ∨
    (t'.issued = t.issued ∧ t'.client.cmdId = t.client.cmdId ∧
      ∀ k', t'.numberOf k' = t.numberOf k') := by
  cases h with
  | enter members => exact .inr ⟨rfl, rfl, ofCall_enter rfl⟩
  | @number k members hk =>
    exact .inl ⟨rfl, rfl, k, ofCall_advance (c := (nextId t.client).2) hk⟩
  | add hk => exact .inr ⟨rfl, rfl, ofCall_advance_eq hk rfl⟩
  | write hk hj => exact .inr ⟨rfl, rfl, ofCall_advance_eq hk rfl⟩
  | give hk => exact .inr ⟨rfl, rfl, ofCall_advance_eq hk rfl⟩
  | respond j => exact .inr ⟨rfl, hc.cmdId_handleResponse env j, fun _ => rfl⟩

theorem sound_start (username password : Bytes) : Sound (start username password) where
  client :=
    { ids := fun _ _ h => nomatch h
      waiting := fun _ _ h => nomatch h
      results := fun _ _ _ _ h => nomatch h }
  cmdId := (by decide : (0 : ℤ) = Json.toInt32 0)
  numbers := fun _ _ _ h => nomatch h

/-- The ids stay numbered through. -/
theorem Sound.numbers_of_took (ht : Sound t) (h : Took env t a t') :
    t'.client.cmdId = Json.toInt32 t'.issued ∧
      ∀ k n id, t'.numberOf k = some (n, id) → n < t'.issued ∧ id = Json.toInt32 n := by
  obtain ⟨hissued, hcmdId, k, hnumber⟩ | ⟨hissued, hcmdId, hnumber⟩ := numberOf_of_took h ht.client
  · refine ⟨?_, fun k' n id hk' => ?_⟩
    · rw [hcmdId, hissued, ht.cmdId, Json.toInt32_toInt32_add]
      rfl
    · rw [hnumber] at hk'
      rw [hissued]
      split_ifs at hk'
      · obtain ⟨rfl, rfl⟩ := Prod.mk.inj (Option.some.inj hk')
        exact ⟨by omega, ht.cmdId⟩
      · obtain ⟨hlt, hid⟩ := ht.numbers k' n id hk'
        exact ⟨by omega, hid⟩
  · rw [hcmdId, hissued]
    refine ⟨ht.cmdId, fun k' n id hk' => ht.numbers k' n id ?_⟩
    rw [← hnumber, hk']

/-- **A step keeps the pending queries sound.** -/
theorem sound_of_took (ht : Sound t) (h : Took env t a t') : Sound t' := by
  have hnumbers := ht.numbers_of_took h
  refine ⟨?_, hnumbers.1, hnumbers.2⟩
  cases h with
  | enter members => exact ht.client
  | number hk => exact ⟨ht.client.ids, ht.client.waiting, ht.client.results⟩
  | add hk =>
    obtain ⟨-, hid⟩ := ht.numbers _ _ _ (ofCall_of_some hk)
    refine ht.client.registered ?_ rfl
    rw [hid, Json.toInt32_toInt32]
  | write hk hj => exact ⟨ht.client.ids, ht.client.waiting, ht.client.results⟩
  | give hk => exact ht.client
  | respond j => exact ht.client.handleResponse env j

/-- **In every state that is reached** each pending query has a promise of its own, which has no
result yet. -/
theorem sound_of_runs {username password : Bytes} {as : List ThreadAction}
    (h : Runs (step env) (start username password) as t) : Sound t :=
  runs_invariant (fun _ _ _ ht hstep => sound_of_took ht (took_of_step hstep)) h
    (sound_start username password)

end Threads

end ElectrumZ.Net
