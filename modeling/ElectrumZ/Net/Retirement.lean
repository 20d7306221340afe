import ElectrumZ.Net.Queries

/-!
# Responses that retire their query

What the arrival of a response with a pending id makes of the query.

* `retires_iff_success`: the query is retired, alone and with a result, exactly if the response is
  a success.
* `unanswered_of_took`: while every pending query is answered by a success, what is pending has not
  been answered.
* `all_retire_iff`: the responses of a run all retire their queries, and none is left when all have
  been answered, exactly if the responses with a pending id are successes.
-/

namespace ElectrumZ.Net

open Foundations RPCClient

namespace RPCClient

variable {env : RPCEnv} {c : RPCClient} {q : RPCQuery} {id : ℤ} {j : Json}

/-- The response is handled without an exception, its query leaves the map and is given a result,
and the other queries stay as they are. -/
def Retires (env : RPCEnv) (j : Json) (id : ℤ) (c : RPCClient) : Prop :=
  ∃ r c' q data, handleResponse env j c = (.ok r, c') ∧ c.queryMap.lookup id = some q ∧
    c'.promises[q.result]? = some (some data) ∧
    (∀ id', c'.queryMap.lookup id' = if id' = id then none else c.queryMap.lookup id') ∧
    ∀ promise, promise ≠ q.result → c'.promises[promise]? = c.promises[promise]?

/-- A response that is no success leaves its query. -/
theorem not_retires_of_failure (hq : c.queryMap.lookup id = some q) (hj : ¬ Success j) :
    ¬ Retires env j id c := by
  rintro ⟨r, c', q', data, hrun, -, -, hmap, -⟩
  obtain ⟨hstate, -⟩ := handleResponse_of_not_success env c hj
  rw [hrun] at hstate
  obtain rfl : c' = received j c := hstate
  have hleft := hmap id
  rw [if_pos rfl] at hleft
  exact absurd (hq.symm.trans hleft) nofun

/-- **A response retires its query exactly if it is a success.** -/
theorem retires_iff_success (hc : Sound c) (hq : c.queryMap.lookup id = some q)
    (hj : Carries j id) : Retires env j id c ↔ Success j := by
  constructor
  · intro hretires
    by_contra hfailure
    exact not_retires_of_failure hq hfailure hretires
  · intro hsuccess
    have hanswers : Answers env j id := answers_of_carries hsuccess hj (hc.ids id q hq).2
    obtain ⟨id', q', data, hanswers', -, hq', hrun⟩ | ⟨-, hnone⟩ :=
      handleResponse_cases env j hc.waiting
    · obtain rfl := hanswers.unique hanswers'
      refine ⟨1, _, q', data, hrun, hq', ?_, fun id' => lookup_completed, fun promise hne => ?_⟩
      · exact List.getElem?_set_self (hc.result_lt hq')
      · exact List.getElem?_set_ne (Ne.symm hne)
    · exact absurd (hq.symm.trans (hnone id hanswers)) nofun

end RPCClient

namespace Threads

variable {env : RPCEnv} {a : ThreadAction} {t t' : Threads}

/-! ## Runs -/

/-- A response with a pending id retires its query. -/
def Retiring (env : RPCEnv) (a : ThreadAction) (t : Threads) : Prop :=
  ∀ j id q, a = .respond j → t.client.queryMap.lookup id = some q → Carries j id →
    Retires env j id t.client

/-- A response with a pending id is a success. -/
def Succeeding (a : ThreadAction) (t : Threads) : Prop :=
  ∀ j id q, a = .respond j → t.client.queryMap.lookup id = some q → Carries j id → Success j

/-- No response with the id of the query has arrived since it was registered. -/
def Unanswered (q : RPCQuery) : List RPCEvent → Prop :=
  Since (· = .added q) fun e => ∃ j, e = .response j ∧ Carries j q.id

/-- Nothing is pending if every query has been answered. -/
def Emptied (t : Threads) : Prop :=
  (∀ q, ¬ Unanswered q t.client.log) → t.client.queryMap = ∅

/-- What is pending has not been answered. -/
def Awaiting (t : Threads) : Prop :=
  ∀ id q, t.client.queryMap.lookup id = some q → Unanswered q t.client.log

theorem Awaiting.emptied (h : Awaiting t) : Emptied t := by
  intro hall
  apply AList.ext
  rcases hentries : t.client.queryMap.entries with _ | ⟨⟨id, q⟩, entries⟩
  · rfl
  · have hq : t.client.queryMap.lookup id = some q := by
      rw [← Option.mem_def, AList.mem_lookup_iff, hentries]
      exact List.mem_cons_self
    exact absurd (h id q hq) (hall q)

/-- What happens besides responses leaves what is unanswered. -/
theorem unanswered_concat {q : RPCQuery} {log : List RPCEvent} {e : RPCEvent}
    (h : Unanswered q log) (he : ∀ j, e ≠ .response j) : Unanswered q (log ++ [e]) := by
  refine since_concat.mpr (.inr ⟨h, ?_⟩)
  rintro ⟨j, rfl, -⟩
  exact he j rfl

/-- **A step keeps what is pending unanswered**, if a response with a pending id is a success. -/
theorem awaiting_of_took (ht : Sound t) (hwait : Awaiting t) (h : Took env t a t')
    (hsucceed : Succeeding a t) : Awaiting t' := by
  intro id q hq
  cases h with
  | enter members => exact hwait id q hq
  | number hk => exact hwait id q hq
  | give hk => exact hwait id q hq
  | add hk =>
    obtain ⟨-, rfl⟩ | hq := lookup_registered hq
    · exact since_concat.mpr (.inl rfl)
    · exact unanswered_concat (hwait id q hq) nofun
  | write hk hj => exact unanswered_concat (hwait id q hq) nofun
  | respond j =>
    have hkeep (hq : t.client.queryMap.lookup id = some q) (hno : ¬ Answers env j id) :
        Unanswered q (t.client.log ++ [.response j]) := by
      obtain ⟨hid, hint⟩ := ht.client.ids id q hq
      refine since_concat.mpr (.inr ⟨hwait id q hq, ?_⟩)
      rintro ⟨j', hj', hcarries⟩
      obtain rfl := RPCEvent.response.inj hj'
      rw [hid] at hcarries
      have hsuccess := hsucceed j id q rfl hq hcarries
      exact hno (answers_of_carries hsuccess hcarries hint)
    obtain ⟨id', q', data, hanswers, -, hq', hrun⟩ | ⟨hrun, hnone⟩ :=
      handleResponse_cases env j ht.client.waiting
    · simp only [hrun] at hq ⊢
      rw [lookup_completed] at hq
      split_ifs at hq with hid
      exact unanswered_concat (hkeep hq fun h => hid (h.unique hanswers)) nofun
    · simp only [hrun] at hq ⊢
      refine hkeep hq fun h => ?_
      exact absurd (hq.symm.trans (hnone id h)) nofun

theorem awaiting_start (username password : Bytes) : Awaiting (start username password) :=
  fun _ _ h => nomatch h

theorem retiring_iff_succeeding (ht : Sound t) : Retiring env a t ↔ Succeeding a t := by
  constructor
  · exact fun h j id q ha hq hj => (retires_iff_success ht.client hq hj).mp (h j id q ha hq hj)
  · exact fun h j id q ha hq hj => (retires_iff_success ht.client hq hj).mpr (h j id q ha hq hj)

/-- **The responses of a run all retire their queries**, and none is left when all have been
answered, if and only if the responses with a pending id are successes. -/
theorem all_retire_iff (env : RPCEnv) (username password : Bytes) (as : List ThreadAction) :
    (Throughout (step env) (Retiring env) (start username password) as ∧
      Always (step env) Emptied (start username password) as) ↔
    Throughout (step env) Succeeding (start username password) as := by
  have hiff : Throughout (step env) (Retiring env) (start username password) as ↔
      Throughout (step env) Succeeding (start username password) as :=
    throughout_congr (fun _ _ _ ht hstep => sound_of_took ht (took_of_step hstep))
      (fun _ _ ht => retiring_iff_succeeding ht) (sound_start username password)
  refine ⟨fun h => hiff.mp h.1, fun h => ⟨hiff.mpr h, ?_⟩⟩
  have halways : Always (step env) (fun t => Sound t ∧ Awaiting t) (start username password)
      as := by
    refine always_of_throughout (A := fun _ => True) ?_ ?_ ?_ h
    · rintro a t t' ⟨ht, hwait⟩ - hstep hsucceed -
      have htook := took_of_step hstep
      exact ⟨sound_of_took ht htook, awaiting_of_took ht hwait htook hsucceed⟩
    · exact always_of_forall fun _ => trivial
    · exact ⟨sound_start username password, awaiting_start username password⟩
  exact halways.mono fun t ht => ht.2.emptied

/-- After the first call, a response that is no success leaves its query. -/
theorem first_not_retiring {j : Json} (hcarries : Carries j 0) (hj : ¬ Success j) :
    ¬ Throughout (step firstEnv) (Retiring firstEnv) (start [] [])
      (firstCall ++ [.respond j]) := by
  intro h
  have hlast := ((((h _ rfl).2 _ rfl).2 _ rfl).2 _ rfl).2 _ rfl
  exact not_retires_of_failure rfl hj (hlast.1 j 0 ⟨0, 0⟩ rfl rfl hcarries)

/-- Neither a response with an error nor one without the member retires its query. -/
theorem all_retire_fails :
    ¬ (Throughout (step firstEnv) (Retiring firstEnv) (start [] [])
        (firstCall ++ [.respond (.obj [("error", .str "busy"), ("id", .int 0)])]) ∧
      Always (step firstEnv) Emptied (start [] [])
        (firstCall ++ [.respond (.obj [("error", .str "busy"), ("id", .int 0)])])) ∧
    ¬ (Throughout (step firstEnv) (Retiring firstEnv) (start [] [])
        (firstCall ++ [.respond (.obj [("id", .int 0)])]) ∧
      Always (step firstEnv) Emptied (start [] [])
        (firstCall ++ [.respond (.obj [("id", .int 0)])])) := by
  constructor
  · rintro ⟨h, -⟩
    refine first_not_retiring ?_ ?_ h
    · rfl
    · rw [Success, Json.atMember, Json.lookup_cons_ite, if_pos rfl]
      simp
  · rintro ⟨h, -⟩
    refine first_not_retiring ?_ ?_ h
    · rfl
    · rw [Success, Json.atMember, Json.lookup_cons_ite, if_neg (by decide)]
      simp

end Threads

end ElectrumZ.Net
