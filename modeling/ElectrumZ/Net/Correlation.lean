import ElectrumZ.Net.Queries

/-!
# Responses and their queries

Which query a response completes, in any order of the steps of the calls and the responses.

* `Correlated` is the law: what is pending is what was registered and not answered, each future is
  given the result of a response with the id of its own query, and nothing is written before it is
  registered.
* `fresh_of_bounded`: an id is free when its query is registered, if less than `2 ^ 32` queries are
  issued while one is outstanding.
* `tracked_of_took`: a step keeps the law.
* `correlated_iff`: the law holds in a run exactly if every id that is converted to a pending one is
  that id.
-/

namespace ElectrumZ.Net

open Foundations RPCClient

namespace Threads

variable {env : RPCEnv} {a : ThreadAction} {t t' : Threads}

/-! ## The law -/

/-- No success with the id of the query has arrived since it was registered. -/
def Unsettled (q : RPCQuery) : List RPCEvent → Prop :=
  Since (· = .added q) fun e => ∃ j, e = .response j ∧ Success j ∧ Carries j q.id

/-- What a promise is given is the result of the response that has just arrived, a success with the
id of the query of its call, and the first it is given; what is written is the request of a query
that has been registered. -/
def Justified (calls : ℕ → Option (ℕ × RPCQuery)) (pre : List RPCEvent) : RPCEvent → Prop
  | .set promise data => ∃ k n q pre' j, calls k = some (n, q) ∧ q.result = promise ∧
      pre = pre' ++ [.response j] ∧ .added q ∈ pre' ∧ Success j ∧ Carries j q.id ∧
      j.member "result" = some data ∧ ∀ data', .set promise data' ∉ pre
  | .write _ _ j _ => ∃ k n q, calls k = some (n, q) ∧ .added q ∈ pre ∧ Carries j q.id
  | _ => True

/-- The correlation of the queries that the calls have registered and the responses. -/
structure Correlated (calls : ℕ → Option (ℕ × RPCQuery)) (c : RPCClient) : Prop where
  distinct : c.queryMap.keys.Nodup
  /-- What is pending was registered and not answered since. -/
  pending : ∀ id q, c.queryMap.lookup id = some q ↔ id = q.id ∧ Unsettled q c.log
  /-- Each call has a future of its own. -/
  own : ∀ k k' n n' q q', calls k = some (n, q) → calls k' = some (n', q') →
    q.result = q'.result → k = k'
  /-- A future has the result it was given. -/
  values : ∀ promise data, c.promises[promise]? = some (some data) ↔ .set promise data ∈ c.log
  justified : Each (Justified calls) c.log

/-- The call has taken its id, and its query is not registered yet or is pending. -/
def Outstanding (t : Threads) (k n : ℕ) : Prop :=
  (∃ id, t.numberOf k = some (n, id)) ∧
    ∀ q, t.queryOf k = some (n, q) → t.client.queryMap.lookup q.id = some q

/-- Less than `2 ^ 32` queries have been issued after one that is outstanding. -/
def Bounded (t : Threads) : Prop :=
  ∀ k n, Outstanding t k n → t.issued ≤ n + 2 ^ 32

/-- A success whose id is converted to a pending one carries that id. -/
def Exact (env : RPCEnv) (a : ThreadAction) (t : Threads) : Prop :=
  ∀ j id q, a = .respond j → Answers env j id → t.client.queryMap.lookup id = some q →
    Carries j id

/-! ## What the calls have done -/

/-- The law, and what is registered by which call. -/
structure Registered (calls : ℕ → Option (ℕ × RPCQuery)) (c : RPCClient) : Prop
    extends Correlated calls c where
  added : ∀ q, .added q ∈ c.log ↔ ∃ k n, calls k = some (n, q)
  results : ∀ k n q, calls k = some (n, q) → q.result < c.promises.length

/-- The law, and the numbers of the calls. -/
structure Tracked (t : Threads) : Prop where
  sound : Sound t
  /-- Each call has a number of its own. -/
  numbers : ∀ k k' n id id', t.numberOf k = some (n, id) → t.numberOf k' = some (n, id') → k = k'
  registered : Registered t.queryOf t.client

theorem numberOf_of_queryOf {k n : ℕ} {q : RPCQuery} (h : t.queryOf k = some (n, q)) :
    t.numberOf k = some (n, q.id) := by
  obtain ⟨s, hs, hstage⟩ := Option.bind_eq_some_iff.mp h
  rw [numberOf, ofCall_of_some hs]
  cases hst : s.stage with
  | entered | numbered n id =>
    rw [hst] at hstage
    exact nomatch hstage
  | added n' q' | written n' q' | returned n' q' =>
    rw [hst] at hstage
    obtain ⟨rfl, rfl⟩ := Prod.mk.inj (Option.some.inj hstage)
    rfl

/-- What is unsettled has been registered. -/
theorem added_of_unsettled {q : RPCQuery} {log : List RPCEvent} (h : Unsettled q log) :
    .added q ∈ log := by
  obtain ⟨pre, e, post, rfl, rfl, -⟩ := h
  simp

/-- **The id of a query is free when it is registered.** -/
theorem fresh_of_bounded (ht : Tracked t) (hbound : Bounded t) {k n : ℕ}
    {members : List (String × Json)} {id : ℤ}
    (hk : t.sendings[k]? = some ⟨members, .numbered n id⟩) :
    t.client.queryMap.lookup id = none := by
  cases hq : t.client.queryMap.lookup id with
  | none => rfl
  | some q =>
    obtain ⟨hid, hunsettled⟩ := (ht.registered.pending id q).mp hq
    obtain ⟨k', n', hk'⟩ := (ht.registered.added q).mp (added_of_unsettled hunsettled)
    have hnumber : t.numberOf k = some (n, id) := ofCall_of_some hk
    have hnone : t.queryOf k = none := ofCall_of_some hk
    have hnumber' := numberOf_of_queryOf hk'
    have hout : Outstanding t k n := ⟨⟨id, hnumber⟩, fun q' h => nomatch hnone.symm.trans h⟩
    have hout' : Outstanding t k' n' := by
      refine ⟨⟨_, hnumber'⟩, fun q' h => ?_⟩
      obtain ⟨-, rfl⟩ := Prod.mk.inj (Option.some.inj (hk'.symm.trans h))
      rw [← hid, hq]
    obtain ⟨hlt, hint⟩ := ht.sound.numbers k n id hnumber
    obtain ⟨hlt', hint'⟩ := ht.sound.numbers k' n' q.id hnumber'
    have hle := hbound k n hout
    have hle' := hbound k' n' hout'
    have heq : (n : ℤ) = n' := by
      apply Json.eq_of_toInt32_eq <;> omega
    obtain rfl : n = n' := by omega
    obtain rfl := ht.numbers k k' n _ _ hnumber hnumber'
    exact nomatch hnone.symm.trans hk'

/-! ## What a step keeps -/

variable {calls : ℕ → Option (ℕ × RPCQuery)} {c : RPCClient} {q : RPCQuery} {j : Json}

theorem Justified.mono {calls' : ℕ → Option (ℕ × RPCQuery)} {pre : List RPCEvent} {e : RPCEvent}
    (hmono : ∀ k n q, calls k = some (n, q) → calls' k = some (n, q))
    (h : Justified calls pre e) : Justified calls' pre e := by
  cases e with
  | added q => trivial
  | response j => trivial
  | set promise data =>
    obtain ⟨k, n, q, pre', j, hk, h⟩ := h
    exact ⟨k, n, q, pre', j, hmono k n q hk, h⟩
  | write state socket j buf =>
    obtain ⟨k, n, q, hk, h⟩ := h
    exact ⟨k, n, q, hmono k n q hk, h⟩

/-- What is neither the query nor a response leaves it unsettled or not. -/
theorem unsettled_concat {log : List RPCEvent} {e : RPCEvent} (hadded : e ≠ .added q)
    (hresponse : ∀ j, e ≠ .response j) : Unsettled q (log ++ [e]) ↔ Unsettled q log := by
  rw [Unsettled, since_concat]
  constructor
  · rintro (h | h)
    · exact absurd h hadded
    · exact h.1
  · exact fun h => .inr ⟨h, fun ⟨j, hj, _⟩ => hresponse j hj⟩

/-- A response settles the queries whose id it carries. -/
theorem unsettled_response {log : List RPCEvent} :
    Unsettled q (log ++ [.response j]) ↔ Unsettled q log ∧ ¬ (Success j ∧ Carries j q.id) := by
  rw [Unsettled, since_concat]
  constructor
  · rintro (h | ⟨h, hno⟩)
    · exact nomatch h
    · exact ⟨h, fun hj => hno ⟨j, rfl, hj⟩⟩
  · rintro ⟨h, hno⟩
    refine .inr ⟨h, ?_⟩
    rintro ⟨j', hj', hsettled⟩
    obtain rfl := RPCEvent.response.inj hj'
    exact hno hsettled

theorem Registered.of_eq {calls' : ℕ → Option (ℕ × RPCQuery)} (h : Registered calls c)
    (hcalls : ∀ k, calls' k = calls k) : Registered calls' c := by
  obtain rfl : calls' = calls := funext hcalls
  exact h

/-- Handing a request to `uv_write` keeps the law, if its query is registered. -/
theorem Registered.sent (h : Registered calls c) {k n : ℕ} (hk : calls k = some (n, q))
    (hj : Carries j q.id) (buf : Bytes) : Registered calls (sent j buf c) where
  distinct := h.distinct
  pending := by
    intro id q
    rw [sent_log, unsettled_concat (by simp) (by simp)]
    exact h.pending id q
  own := h.own
  values := fun promise data => (h.values promise data).trans (by simp)
  justified := each_concat.mpr ⟨h.justified, k, n, q, hk, (h.added q).mpr ⟨k, n, hk⟩, hj⟩
  added := fun q => Iff.trans (by simp) (h.added q)
  results := h.results

/-- Registering a query keeps the law, if its id is free. -/
theorem Registered.registered (h : Registered calls c) {k n : ℕ} (hk : calls k = none)
    (hfresh : c.queryMap.lookup q.id = none) (hresult : q.result = c.promises.length) :
    Registered (fun k' => if k' = k then some (n, q) else calls k') (registered q c) := by
  have hold (k' : ℕ) (n' : ℕ) (q' : RPCQuery) (hk' : calls k' = some (n', q')) :
      (if k' = k then some (n, q) else calls k') = some (n', q') := by
    rw [if_neg, hk']
    rintro rfl
    exact nomatch hk.symm.trans hk'
  have hnew (k' : ℕ) (n' : ℕ) (q' : RPCQuery)
      (hk' : (if k' = k then some (n, q) else calls k') = some (n', q')) :
      (k' = k ∧ q' = q) ∨ calls k' = some (n', q') := by
    split_ifs at hk' with hkk
    · exact .inl ⟨hkk, (Prod.mk.inj (Option.some.inj hk')).2.symm⟩
    · exact .inr hk'
  refine ⟨⟨AList.keys_nodup _, fun id q' => ?_, fun k₁ k₂ n₁ n₂ q₁ q₂ h₁ h₂ heq => ?_,
    fun promise data => ?_, each_concat.mpr ⟨h.justified.mono fun _ _ => .mono hold, trivial⟩⟩,
    fun q' => ?_, fun k' n' q' hk' => ?_⟩
  · have hunsettled : Unsettled q' (c.log ++ [.added q]) ↔ q = q' ∨ Unsettled q' c.log := by
      simp [Unsettled, since_concat]
    rw [registered_queryMap, lookup_emplace, registered_log, hunsettled]
    by_cases hid : id = q.id
    · subst hid
      rw [if_pos ⟨rfl, hfresh⟩, Option.some_inj]
      constructor
      · rintro rfl
        exact ⟨rfl, .inl rfl⟩
      · rintro ⟨hid, rfl | hunsettled'⟩
        · rfl
        · have hpending := (h.pending q.id q').mpr ⟨hid, hunsettled'⟩
          exact nomatch hfresh.symm.trans hpending
    · rw [if_neg fun hand => hid hand.1, h.pending id q']
      refine and_congr_right fun hid' => ⟨.inr, ?_⟩
      rintro (rfl | hunsettled')
      · exact absurd hid' hid
      · exact hunsettled'
  · obtain ⟨rfl, rfl⟩ | hold₁ := hnew k₁ n₁ q₁ h₁ <;>
      obtain ⟨hkk, hqq⟩ | hold₂ := hnew k₂ n₂ q₂ h₂
    · exact hkk.symm
    · have hlt := h.results k₂ n₂ q₂ hold₂
      omega
    · have hlt := h.results k₁ n₁ q₁ hold₁
      rw [hqq] at heq
      omega
    · exact h.own k₁ k₂ n₁ n₂ q₁ q₂ hold₁ hold₂ heq
  · refine Iff.trans ?_ ((h.values promise data).trans (by simp))
    rw [registered_promises, List.getElem?_append]
    split_ifs with hlt
    · rfl
    · rw [List.getElem?_eq_none (by omega : c.promises.length ≤ promise)]
      cases promise - c.promises.length <;> simp
  · rw [registered_log, List.mem_append, h.added q']
    constructor
    · rintro (⟨k', n', hk'⟩ | hq')
      · exact ⟨k', n', hold k' n' q' hk'⟩
      · obtain rfl := RPCEvent.added.inj (List.mem_singleton.mp hq')
        exact ⟨k, n, if_pos rfl⟩
    · rintro ⟨k', n', hk'⟩
      obtain ⟨-, rfl⟩ | hk' := hnew k' n' q' hk'
      · exact .inr (List.mem_singleton.mpr rfl)
      · exact .inl ⟨k', n', hk'⟩
  · rw [registered_promises, List.length_append, List.length_singleton]
    obtain ⟨-, rfl⟩ | hk' := hnew k' n' q' hk'
    · omega
    · have hlt := h.results k' n' q' hk'
      omega

/-- A response that completes no query keeps the law. -/
theorem Registered.received (h : Registered calls c) (hc : RPCClient.Sound c)
    (hnone : ∀ id, Answers env j id → c.queryMap.lookup id = none) :
    Registered calls (received j c) where
  distinct := h.distinct
  pending := by
    intro id q
    rw [received_queryMap, received_log, unsettled_response, h.pending id q]
    refine and_congr_right fun hid => ⟨fun hunsettled => ⟨hunsettled, ?_⟩, And.left⟩
    rintro ⟨hsuccess, hcarries⟩
    have hq := (h.pending id q).mpr ⟨hid, hunsettled⟩
    have hanswers : Answers env j id :=
      answers_of_carries hsuccess (hid ▸ hcarries) (hc.ids id q hq).2
    exact nomatch hq.symm.trans (hnone id hanswers)
  own := h.own
  values := fun promise data => (h.values promise data).trans (by simp)
  justified := each_concat.mpr ⟨h.justified, trivial⟩
  added := fun q => Iff.trans (by simp) (h.added q)
  results := h.results

/-- A success that carries the id of the query it completes keeps the law. -/
theorem Registered.completed (h : Registered calls c) (hc : RPCClient.Sound c) {id : ℤ}
    {data : Json} (hq : c.queryMap.lookup id = some q) (hsuccess : Success j)
    (hcarries : Carries j id) (hdata : j.member "result" = some data) :
    Registered calls (RPCClient.completed id q data (RPCClient.received j c)) := by
  obtain ⟨hid, hunsettled⟩ := (h.pending id q).mp hq
  have hadded := added_of_unsettled hunsettled
  obtain ⟨k, n, hk⟩ := (h.added q).mp hadded
  have hwaiting := hc.waiting id q hq
  have hunset (data' : Json) : .set q.result data' ∉ c.log := fun hset =>
    nomatch hwaiting.symm.trans ((h.values q.result data').mpr hset)
  refine ⟨⟨AList.keys_nodup _, fun id' q' => ?_, h.own, fun promise data' => ?_,
    each_concat.mpr ⟨each_concat.mpr ⟨h.justified, trivial⟩, k, n, q, c.log, j, hk, rfl, rfl,
      hadded, hsuccess, hid ▸ hcarries, hdata, fun data' => by simpa using hunset data'⟩⟩,
    fun q' => Iff.trans (by simp) (h.added q'), fun k' n' q' hk' => ?_⟩
  · rw [lookup_completed, completed_log, unsettled_concat (by simp) (by simp), received_log,
      unsettled_response]
    by_cases heq : id' = id
    · subst heq
      rw [if_pos rfl]
      constructor
      · exact nofun
      · rintro ⟨rfl, -, hno⟩
        exact absurd ⟨hsuccess, hcarries⟩ hno
    · rw [if_neg heq, received_queryMap, h.pending id' q']
      refine and_congr_right fun hid' => ⟨fun hunsettled' => ⟨hunsettled', ?_⟩, And.left⟩
      rintro ⟨-, hcarries'⟩
      exact heq (hid'.trans (hcarries'.unique hcarries))
  · rw [completed_promises, received_promises, completed_log, received_log]
    by_cases heq : promise = q.result
    · subst heq
      have hlt := hc.result_lt hq
      rw [List.getElem?_set_self hlt]
      have hunset' := hunset data'
      simp [hunset', eq_comm]
    · rw [List.getElem?_set_ne (Ne.symm heq), h.values promise data']
      simp [heq]
  · simpa using h.results k' n' q' hk'

/-- A response keeps the law, if the id it is converted to is its own. -/
theorem Registered.handleResponse (h : Registered calls c) (hc : RPCClient.Sound c)
    (hexact : ∀ id q, Answers env j id → c.queryMap.lookup id = some q → Carries j id) :
    Registered calls (handleResponse env j c).2 := by
  obtain ⟨id, q, data, hanswers, hdata, hq, hrun⟩ | ⟨hrun, hnone⟩ :=
    handleResponse_cases env j hc.waiting
  · rw [hrun]
    exact h.completed hc hq hanswers.1 (hexact id q hanswers hq) hdata
  · rw [hrun]
    exact h.received hc hnone

/-- A response whose id is converted to another one that is pending breaks the law. -/
theorem not_correlated_of_inexact (h : Registered calls c) (hc : RPCClient.Sound c) {id : ℤ}
    (hanswers : Answers env j id) (hq : c.queryMap.lookup id = some q)
    (hcarries : ¬ Carries j id) : ¬ Correlated calls (RPCClient.handleResponse env j c).2 := by
  intro hafter
  obtain ⟨id', q', data, hanswers', -, hq', hrun⟩ | ⟨-, hnone⟩ :=
    handleResponse_cases env j hc.waiting
  · obtain rfl := hanswers.unique hanswers'
    obtain rfl := Option.some.inj (hq.symm.trans hq')
    obtain ⟨rfl, hunsettled⟩ := (h.pending id q).mp hq
    rw [hrun] at hafter
    have hpending := hafter.pending q.id q
    rw [lookup_completed, if_pos rfl, completed_log, unsettled_concat (by simp) (by simp),
      received_log, unsettled_response] at hpending
    exact nomatch hpending.mpr ⟨rfl, hunsettled, fun hsettled => hcarries hsettled.2⟩
  · exact nomatch hq.symm.trans (hnone id hanswers)

/-! ## Runs -/

/-- Each call keeps a number of its own. -/
theorem Tracked.numbers_of_took (ht : Tracked t) (h : Took env t a t') {k k' n : ℕ} {id id' : ℤ}
    (hk : t'.numberOf k = some (n, id)) (hk' : t'.numberOf k' = some (n, id')) : k = k' := by
  obtain ⟨-, -, k₀, hnumber⟩ | ⟨-, -, hnumber⟩ := numberOf_of_took h ht.sound.client
  · rw [hnumber] at hk hk'
    split_ifs at hk hk' with h₁ h₂ h₂
    · rw [h₁, h₂]
    · obtain ⟨rfl, -⟩ := Prod.mk.inj (Option.some.inj hk)
      exact absurd (ht.sound.numbers _ _ _ hk').1 (lt_irrefl _)
    · obtain ⟨rfl, -⟩ := Prod.mk.inj (Option.some.inj hk')
      exact absurd (ht.sound.numbers _ _ _ hk).1 (lt_irrefl _)
    · exact ht.numbers k k' n id id' hk hk'
  · rw [hnumber] at hk hk'
    exact ht.numbers k k' n id id' hk hk'

/-- **A step keeps the law**, if an id that is converted to a pending one is its own. -/
theorem tracked_of_took (ht : Tracked t) (hbound : Bounded t) (h : Took env t a t')
    (hexact : Exact env a t) : Tracked t' := by
  refine ⟨sound_of_took ht.sound h, fun _ _ _ _ _ hk hk' => ht.numbers_of_took h hk hk', ?_⟩
  have hreg := ht.registered
  cases h with
  | enter members => exact hreg.of_eq (ofCall_enter rfl)
  | number hk =>
    have hnext : Registered t.queryOf (nextId t.client).2 :=
      ⟨⟨hreg.distinct, hreg.pending, hreg.own, hreg.values, hreg.justified⟩, hreg.added,
        hreg.results⟩
    exact hnext.of_eq (ofCall_advance_eq (c := (nextId t.client).2) hk rfl)
  | add hk =>
    have hfresh := fresh_of_bounded ht hbound hk
    exact (hreg.registered (ofCall_of_some hk) hfresh rfl).of_eq (ofCall_advance hk)
  | write hk hj => exact (hreg.sent (ofCall_of_some hk) hj _).of_eq (ofCall_advance_eq hk rfl)
  | give hk => exact hreg.of_eq (ofCall_advance_eq hk rfl)
  | respond j =>
    exact hreg.handleResponse ht.sound.client fun id q => hexact j id q rfl

theorem tracked_start (username password : Bytes) : Tracked (start username password) where
  sound := sound_start username password
  numbers := fun _ _ _ _ _ h => nomatch h
  registered :=
    { distinct := AList.keys_nodup _
      pending := fun id q => by
        constructor
        · exact nofun
        · exact fun h => absurd h.2 not_since_nil
      own := fun _ _ _ _ _ _ h => nomatch h
      values := fun promise data => by simp [start, new]
      justified := each_nil
      added := fun q => by simp [start, new, queryOf, ofCall]
      results := fun _ _ _ h => nomatch h }

theorem always_tracked (env : RPCEnv) (username password : Bytes) (as : List ThreadAction)
    (hbound : Always (step env) Bounded (start username password) as)
    (hexact : Throughout (step env) (Exact env) (start username password) as) :
    Always (step env) Tracked (start username password) as :=
  always_of_throughout
    (fun _ _ _ ht hb hstep hexact _ => tracked_of_took ht hb (took_of_step hstep) hexact) hbound
    (tracked_start username password) hexact

/-- **The law holds in a run, if and only if** every id that is converted to a pending one is that
id. -/
theorem correlated_iff (env : RPCEnv) (username password : Bytes) (as : List ThreadAction)
    (hbound : Always (step env) Bounded (start username password) as) :
    Always (step env) (fun t => Correlated t.queryOf t.client) (start username password) as ↔
      Throughout (step env) (Exact env) (start username password) as := by
  refine always_iff_throughout (I := Tracked) (A := Bounded)
    (fun t ht => ht.registered.toCorrelated) ?_ ?_ hbound (tracked_start username password)
  · intro a t t' ht hb hstep hexact _
    exact tracked_of_took ht hb (took_of_step hstep) hexact
  · rintro _ t t' ht hstep hlaw j id q rfl hanswers hq
    by_contra hcarries
    obtain rfl := Option.some.inj hstep
    exact not_correlated_of_inexact ht.registered ht.sound.client hanswers hq hcarries hlaw

theorem issued_of_took (h : Took env t a t') : t'.issued ≤ t.issued + 1 := by
  cases h with
  | number hk => exact le_rfl
  | _ => exact Nat.le_succ t.issued

/-- Up to `2 ^ 32` steps issue no more than that many queries. -/
theorem always_bounded {as : List ThreadAction} (h : t.issued + as.length ≤ 2 ^ 32) :
    Always (step env) Bounded t as := by
  induction as generalizing t with
  | nil =>
    rw [List.length_nil] at h
    intro k n _
    omega
  | cons a as ih =>
    rw [List.length_cons] at h
    refine ⟨fun k n _ => by omega, fun t' hstep => ih ?_⟩
    have hissued := issued_of_took (took_of_step hstep)
    omega

/-- A success with the id. -/
def reply (id : ℤ) : Json := .obj [("result", .str "main"), ("error", .null), ("id", .int id)]

theorem exact_firstCall : ∀ a ∈ firstCall, ∀ t, Exact env a t := by
  intro a ha t j id q hj
  subst hj
  simp [firstCall] at ha

/-- A success with the id, and a result of its own. -/
def success (result : String) (id : ℤ) : Json :=
  .obj [("result", .str result), ("error", .null), ("id", .int id)]

/-- Two calls pending together. Their responses come in the other order. -/
def crossed : List ThreadAction :=
  [.enter [("method", .str "getblockchaininfo")], .enter [("method", .str "getbestblockhash")],
    .number 0, .number 1, .add 1, .add 0, .write 0, .write 1, .respond (success "hash" 1),
    .respond (success "main" 0)]

/-- The client of the two calls. -/
def crossedEnv : RPCEnv :=
  { firstEnv with
    dump := fun j =>
      match j.member "id" with
      | some (.int 1) =>
        ascii "\x7b\"id\":1,\"jsonrpc\":\"2.0\",\"method\":\"getbestblockhash\"\x7d"
      | _ => firstEnv.dump j }

theorem exact_success {result : String} {n : ℤ} (hn : Json.toInt32 n = n) :
    Exact crossedEnv (.respond (success result n)) t := by
  rintro j id q hj ⟨-, v, hv, hid⟩ -
  obtain rfl := ThreadAction.respond.inj hj
  obtain rfl : Json.int n = v := Option.some.inj hv
  obtain rfl : Json.toInt32 n = id := Option.some.inj hid
  exact congrArg (fun n => some (Json.int n)) hn.symm

/-- Each of the two calls gets its own result. The second one has the first promise. -/
theorem correlated_first :
    Always (step crossedEnv) (fun t => Correlated t.queryOf t.client) (start [] []) crossed ∧
    ∃ t, Runs (step crossedEnv) (start [] []) crossed t ∧
      t.queryOf 0 = some (0, ⟨0, 1⟩) ∧ t.queryOf 1 = some (1, ⟨1, 0⟩) ∧
      t.client.promises = [some (.str "hash"), some (.str "main")] := by
  constructor
  · refine (correlated_iff crossedEnv [] [] _ (always_bounded (by decide))).mpr ?_
    apply throughout_of_forall
    intro a ha t
    simp only [crossed, List.mem_cons, List.not_mem_nil, or_false] at ha
    obtain rfl | rfl | rfl | rfl | rfl | rfl | rfl | rfl | rfl | rfl := ha
    all_goals first
      | exact exact_success (by decide)
      | exact fun _ _ _ hj => by cases hj
  · exact ⟨_, ⟨_, rfl, _, rfl, _, rfl, _, rfl, _, rfl, _, rfl, _, rfl, _, rfl, _, rfl, _, rfl, rfl⟩,
      rfl, rfl, rfl⟩

/-- A response with the id `2 ^ 32` completes the query with the id 0. -/
theorem not_correlated_wrapped :
    ¬ Always (step firstEnv) (fun t => Correlated t.queryOf t.client) (start [] [])
      (firstCall ++ [.respond (reply (2 ^ 32))]) := by
  intro h
  have hcall : Always (step firstEnv) Tracked (start [] []) firstCall :=
    always_tracked firstEnv [] [] firstCall (always_bounded (by decide))
      (throughout_of_forall exact_firstCall)
  have htracked := hcall.last ⟨_, rfl, _, rfl, _, rfl, _, rfl, rfl⟩
  have hlast := ((((h.2 _ rfl).2 _ rfl).2 _ rfl).2 _ rfl).2 _ rfl
  have hanswers : Answers firstEnv (reply (2 ^ 32)) 0 :=
    ⟨rfl, _, rfl, congrArg some (by decide : Json.toInt32 (2 ^ 32) = 0)⟩
  have hcarries : ¬ Carries (reply (2 ^ 32)) 0 := fun hcarries =>
    absurd (Json.int.inj (Option.some.inj hcarries)) (by decide)
  exact not_correlated_of_inexact (q := ⟨0, 0⟩) htracked.registered htracked.sound.client hanswers
    rfl hcarries hlast

end Threads

end ElectrumZ.Net
