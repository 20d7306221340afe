import ElectrumZ.Blockchain.Lookup
import ElectrumZ.Foundations.Trace

/-!
# Return codes of the lookups

What `StartTXOTxn`, `GetTXOStats` and `GetTXOs` make of the codes LMDB returns, over all traces.
Zero is success for LMDB and one is `TXO_OK`, so a negated test of `StartTXOTxn` never takes the
branch it is written for.

* `trace_startTXOTxn`: how `StartTXOTxn` ends. It never returns zero.
* `codes_iff`: when a failure is told from a success.
-/

namespace ElectrumZ.Blockchain

open Foundations Bitcoin Dialog

/-- The calls of a run with what they returned. -/
abbrev Calls := List (Exchange Call fun _ => Reply)

variable {α : Type} {tr : Calls} {dbn : Dbi} {scriptHash : UInt256} {ntx : List TXO}

/-- A first call. -/
theorem trace_call_bind_iff {c : Call} {f : ℤ → Prog α} {res : Except Stop α} :
    Trace (call c >>= f) tr res ↔ ∃ r tr', tr = ⟨c, r⟩ :: tr' ∧ Trace (f r.code) tr' res :=
  trace_ask_iff

/-! ## Opening a transaction -/

/-- How the map grows: not at all, with the code of the call that failed, or by a resize. -/
theorem trace_growMap {res : Except Stop ℤ} (h : Trace growMap tr res) :
    ∃ i tr', tr = ⟨.envInfo, i⟩ :: tr' ∧ (i.code ≠ 0 ∧ tr' = [] ∧ res = .ok i.code ∨
      i.code = 0 ∧ ∃ size, ∃ m : Reply, tr' = [⟨.setMapsize size, m⟩] ∧
        (m.code ≠ 0 ∧ res = .ok m.code ∨ m.code = 0 ∧ res = .ok TXO_RESIZED)) := by
  obtain ⟨i, tr', rfl, hinfo⟩ := trace_query_bind_iff.mp h
  refine ⟨i, tr', rfl, ?_⟩
  split_ifs at hinfo with hi
  · obtain ⟨rfl, rfl⟩ := trace_pure_iff.mp hinfo
    exact .inl ⟨hi, rfl, rfl⟩
  · obtain ⟨m, tr'', rfl, hsize⟩ := trace_call_bind_iff.mp hinfo
    refine .inr ⟨not_not.mp hi, i.mapsize - i.mapsize % MAPSIZE_BASE_UNIT + MAPSIZE_BASE_UNIT, m,
      ?_⟩
    split_ifs at hsize with hm <;> obtain ⟨rfl, rfl⟩ := trace_pure_iff.mp hsize
    · exact ⟨rfl, .inl ⟨hm, rfl⟩⟩
    · exact ⟨rfl, .inr ⟨not_not.mp hm, rfl⟩⟩

/-- `IncreaseMapSize` grows the map under the lock. -/
theorem trace_increaseMapSize {res : Except Stop ℤ} (h : Trace increaseMapSize tr res) :
    ∃ l tr' u, tr = ⟨.lockResize, l⟩ :: (tr' ++ [⟨.unlockResize, u⟩]) ∧ Trace growMap tr' res := by
  obtain ⟨l, tr₁, rfl, hlock⟩ := trace_call_bind_iff.mp h
  obtain ⟨e, hgrow, rfl⟩ | ⟨tr', err, tr₂, rfl, hgrow, hunlock⟩ := trace_bind_iff.mp hlock
  · obtain ⟨i, tr', -, ⟨-, -, hres⟩ | ⟨-, size, m, -, ⟨-, hres⟩ | ⟨-, hres⟩⟩⟩ :=
      trace_growMap hgrow <;> exact nomatch hres
  · obtain ⟨u, tr₃, rfl, hdone⟩ := trace_call_bind_iff.mp hunlock
    obtain ⟨rfl, rfl⟩ := trace_pure_iff.mp hdone
    exact ⟨l, tr', u, rfl, hgrow⟩

/-- How `StartTXOTxn` ends. -/
theorem trace_startTXOTxn {res : Except Stop ℤ} (h : Trace (startTXOTxn dbn) tr res) :
    ∃ b tr', tr = ⟨.txnBegin, b⟩ :: tr' ∧ (b.code ≠ 0 ∧ tr' = [] ∧ res = .ok b.code ∨
      b.code = 0 ∧ ∃ d tr'', tr' = ⟨.dbiOpen dbn false, d⟩ :: tr'' ∧
        (d.code = 0 ∧ tr'' = [] ∧ res = .ok TXO_OK ∨
          d.code ≠ 0 ∧ d.code ≠ MDB_MAP_FULL ∧ tr'' = [] ∧ res = .ok d.code ∨
          d.code = MDB_MAP_FULL ∧ Trace increaseMapSize tr'' res)) := by
  obtain ⟨b, tr', rfl, hbegin⟩ := trace_call_bind_iff.mp h
  refine ⟨b, tr', rfl, ?_⟩
  split_ifs at hbegin with hb
  · obtain ⟨rfl, rfl⟩ := trace_pure_iff.mp hbegin
    exact .inl ⟨hb, rfl, rfl⟩
  · obtain ⟨d, tr'', rfl, hopen⟩ := trace_call_bind_iff.mp hbegin
    refine .inr ⟨not_not.mp hb, d, tr'', rfl, ?_⟩
    split_ifs at hopen with hd hfull
    · exact .inr (.inr ⟨hfull, hopen⟩)
    · obtain ⟨rfl, rfl⟩ := trace_pure_iff.mp hopen
      exact .inr (.inl ⟨hd, hfull, rfl, rfl⟩)
    · obtain ⟨rfl, rfl⟩ := trace_pure_iff.mp hopen
      exact .inl ⟨not_not.mp hd, rfl, rfl⟩

/-- The calls of `IncreaseMapSize`. -/
def Call.resizing : Call → Bool
  | .lockResize | .unlockResize | .envInfo | .setMapsize _ => true
  | _ => false

/-- The calls whose codes `StartTXOTxn` hands on. -/
def Call.coded : Call → Bool
  | .txnBegin | .dbiOpen _ _ | .envInfo | .setMapsize _ => true
  | _ => false

/-- The calls on a transaction that has been started. -/
def Call.onStarted : Call → Bool
  | .txnCommit | .txnAbort | .stat _ | .get _ _ => true
  | _ => false

/-- One of the calls returned the number of `TXO_OK`. -/
def Confused (tr : Calls) : Prop := ∃ e ∈ tr, e.1.coded = true ∧ e.2.code = TXO_OK

/-- `IncreaseMapSize` does not return zero, and `TXO_OK` only for a call that returned one. -/
theorem increaseMapSize_spec {res : Except Stop ℤ} (h : Trace increaseMapSize tr res) :
    ∃ err, res = .ok err ∧ err ≠ 0 ∧ (∀ e ∈ tr, e.1.resizing = true) ∧
      (err = TXO_OK ↔ Confused tr) := by
  obtain ⟨l, tr₁, u, rfl, hgrow⟩ := trace_increaseMapSize h
  obtain ⟨i, tr₂, rfl, ⟨hi, rfl, rfl⟩ | ⟨hi, size, m, rfl, hm⟩⟩ := trace_growMap hgrow
  · refine ⟨i.code, rfl, hi, by simp [Call.resizing], ?_⟩
    simp [Confused, Call.coded]
  · obtain ⟨hm, rfl⟩ | ⟨hm, rfl⟩ := hm
    · refine ⟨m.code, rfl, hm, by simp [Call.resizing], ?_⟩
      simp [Confused, Call.coded, hi, TXO_OK]
    · refine ⟨TXO_RESIZED, rfl, by decide, by simp [Call.resizing], ?_⟩
      simp [Confused, Call.coded, hi, hm, TXO_OK, TXO_RESIZED]

/-- The call was made, and it failed. -/
def Fails (c : Call) (tr : Calls) : Prop := ∃ r : Reply, ⟨c, r⟩ ∈ tr ∧ r.code ≠ 0

/-- `StartTXOTxn` fails: the transaction does not begin, or its table is not opened. -/
def StartFails (dbn : Dbi) (tr : Calls) : Prop :=
  Fails .txnBegin tr ∨ Fails (.dbiOpen dbn false) tr

/-- **What `StartTXOTxn` returns**: not zero, and `TXO_OK` also for a call that returned one. -/
theorem startTXOTxn_spec {res : Except Stop ℤ} (h : Trace (startTXOTxn dbn) tr res) :
    ∃ err, res = .ok err ∧ err ≠ 0 ∧ (∀ e ∈ tr, e.1.onStarted = false) ∧
      (err = TXO_OK ↔ ¬ StartFails dbn tr ∨ Confused tr) := by
  obtain ⟨b, tr₁, rfl, ⟨hb, rfl, rfl⟩ | ⟨hb, d, tr₂, rfl, hopen⟩⟩ := trace_startTXOTxn h
  · refine ⟨b.code, rfl, hb, by simp [Call.onStarted], ?_⟩
    simp [StartFails, Fails, hb, Confused, Call.coded]
  · obtain ⟨hd, rfl, rfl⟩ | ⟨hd, -, rfl, rfl⟩ | ⟨hd, hgrow⟩ := hopen
    · refine ⟨TXO_OK, rfl, by decide, by simp [Call.onStarted], ?_⟩
      simp [StartFails, Fails, hb, hd]
    · refine ⟨d.code, rfl, hd, by simp [Call.onStarted], ?_⟩
      simp [StartFails, Fails, hb, hd, Confused, Call.coded, TXO_OK]
    · obtain ⟨err, rfl, herr, hcalls, hok⟩ := increaseMapSize_spec hgrow
      refine ⟨err, rfl, herr, ?_, ?_⟩
      · have hresizing (c : Call) : c.resizing = true → c.onStarted = false := by
          cases c <;> simp [Call.resizing, Call.onStarted]
        simpa [Call.onStarted] using fun e he => hresizing e.1 (hcalls e he)
      · rw [hok]
        simp [StartFails, Fails, hb, hd, Confused, Call.coded, TXO_OK, MDB_MAP_FULL]

/-! ## The lookups -/

/-- What `GetTXOs` makes of the answer of `mdb_get`. -/
def answerLookup (decode : Bytes → Prog COutPoint) (ntx : List TXO) (r : Reply) :
    Prog (ℤ × List TXO) :=
  if r.code = MDB_NOTFOUND then do
    let _ ← call .txnAbort
    return (TXO_NOTFOUND, ntx)
  else if r.code = EINVAL then do
    let _ ← call .txnAbort
    return (r.code, ntx)
  else do
    let _outPoint ← decode r.data
    let _ ← call .txnCommit
    return (TXO_OK, ntx)

/-- `GetTXOs` with any decoder of the value it finds. -/
def getTXOsWith (decode : Bytes → Prog COutPoint) (scriptHash : UInt256) (ntx : List TXO) :
    Prog (ℤ × List TXO) := do
  let err ← startTXOTxn .addr
  if err = 0 then return (err, ntx)
  let r ← Dialog.query (.get .addr scriptHash.serialize)
  answerLookup decode ntx r

theorem getTXOs_eq (scriptHash : UInt256) (ntx : List TXO) :
    getTXOs scriptHash ntx = getTXOsWith readOutPoint scriptHash ntx := rfl

/-- A lookup starts its transaction, and then searches whatever came of it. -/
theorem trace_getTXOsWith {decode : Bytes → Prog COutPoint} {res : Except Stop (ℤ × List TXO)} :
    Trace (getTXOsWith decode scriptHash ntx) tr res ↔ ∃ tr₁ err r tr₂,
      tr = tr₁ ++ ⟨.get .addr scriptHash.serialize, r⟩ :: tr₂ ∧
        Trace (startTXOTxn .addr) tr₁ (.ok err) ∧ Trace (answerLookup decode ntx r) tr₂ res := by
  rw [getTXOsWith, trace_bind_iff]
  constructor
  · rintro (⟨e, h, rfl⟩ | ⟨tr₁, err, tr₂, rfl, hstart, hsearch⟩)
    · obtain ⟨err, herr, -⟩ := startTXOTxn_spec h
      exact nomatch herr
    · obtain ⟨err', herr, hne, -⟩ := startTXOTxn_spec hstart
      obtain rfl := Except.ok.inj herr
      rw [if_neg hne] at hsearch
      obtain ⟨r, tr₃, rfl, hanswer⟩ := trace_query_bind_iff.mp hsearch
      exact ⟨tr₁, err, r, tr₃, rfl, hstart, hanswer⟩
  · rintro ⟨tr₁, err, r, tr₂, rfl, hstart, hanswer⟩
    obtain ⟨err', herr, hne, -⟩ := startTXOTxn_spec hstart
    obtain rfl := Except.ok.inj herr
    refine .inr ⟨tr₁, err, _, rfl, hstart, ?_⟩
    rw [if_neg hne]
    exact trace_query_bind_iff.mpr ⟨r, tr₂, rfl, hanswer⟩

/-- The branches of `GetTXOs` after the search. -/
theorem trace_answerLookup {r : Reply} {res : Except Stop (ℤ × List TXO)}
    (h : Trace (answerLookup readOutPoint ntx r) tr res) :
    (r.code = MDB_NOTFOUND ∧ (∃ a, tr = [⟨.txnAbort, a⟩]) ∧ res = .ok (TXO_NOTFOUND, ntx)) ∨
    (r.code = EINVAL ∧ (∃ a, tr = [⟨.txnAbort, a⟩]) ∧ res = .ok (EINVAL, ntx)) ∨
    ((r.code ≠ MDB_NOTFOUND ∧ r.code ≠ EINVAL) ∧
      (36 ≤ r.data.length ∧ (∃ a, tr = [⟨.txnCommit, a⟩]) ∧ res = .ok (TXO_OK, ntx) ∨
        r.data.length < 36 ∧ tr = [] ∧ res = .error (.thrown .endOfData))) := by
  rw [answerLookup] at h
  split_ifs at h with hnone hinval
  · obtain ⟨a, tr', rfl, hdone⟩ := trace_call_bind_iff.mp h
    obtain ⟨rfl, rfl⟩ := trace_pure_iff.mp hdone
    exact .inl ⟨hnone, ⟨a, rfl⟩, rfl⟩
  · obtain ⟨a, tr', rfl, hdone⟩ := trace_call_bind_iff.mp h
    obtain ⟨rfl, rfl⟩ := trace_pure_iff.mp hdone
    exact .inr (.inl ⟨hinval, ⟨a, rfl⟩, by rw [hinval]⟩)
  · refine .inr (.inr ⟨⟨hnone, hinval⟩, ?_⟩)
    by_cases hlen : 36 ≤ r.data.length
    · obtain ⟨o, ho⟩ := readOutPoint_of_le hlen
      rw [ho] at h
      obtain ⟨a, tr', rfl, hdone⟩ := trace_call_bind_iff.mp h
      obtain ⟨rfl, rfl⟩ := trace_pure_iff.mp hdone
      exact .inl ⟨hlen, ⟨a, rfl⟩, rfl⟩
    · have hlt : r.data.length < 36 := by omega
      rw [readOutPoint_of_lt hlt] at h
      obtain ⟨rfl, rfl⟩ := trace_fail_iff.mp h
      exact .inr ⟨hlt, rfl, rfl⟩

/-- The branches of `GetTXOStats`. -/
theorem trace_getTXOStats {res : Except Stop ℤ} (h : Trace (getTXOStats dbn) tr res) :
    ∃ tr₁ err r tr₂, tr = tr₁ ++ ⟨.stat dbn, r⟩ :: tr₂ ∧
      Trace (startTXOTxn dbn) tr₁ (.ok err) ∧
      (r.code ≠ 0 ∧ tr₂ = [] ∨ r.code = 0 ∧ ∃ a, tr₂ = [⟨.txnCommit, a⟩]) ∧ res = .ok r.code := by
  obtain ⟨e, hstart, rfl⟩ | ⟨tr₁, err, tr₂, rfl, hstart, hstat⟩ := trace_bind_iff.mp h
  · obtain ⟨err, herr, -⟩ := startTXOTxn_spec hstart
    exact nomatch herr
  · obtain ⟨err', herr, hne, -⟩ := startTXOTxn_spec hstart
    obtain rfl := Except.ok.inj herr
    rw [if_neg hne] at hstat
    obtain ⟨r, tr₃, rfl, hrest⟩ := trace_call_bind_iff.mp hstat
    refine ⟨tr₁, err, r, tr₃, rfl, hstart, ?_⟩
    split_ifs at hrest with hr
    · obtain ⟨rfl, rfl⟩ := trace_pure_iff.mp hrest
      exact ⟨.inl ⟨hr, rfl⟩, rfl⟩
    · obtain ⟨a, tr₄, rfl, hdone⟩ := trace_call_bind_iff.mp hrest
      obtain ⟨rfl, rfl⟩ := trace_pure_iff.mp hdone
      exact ⟨.inr ⟨not_not.mp hr, a, rfl⟩, rfl⟩

/-! ## Failures and successes -/

/-- A failure of `StartTXOTxn` is told from its success. -/
def StartHonest (dbn : Dbi) (tr : Calls) (res : Except Stop ℤ) : Prop :=
  StartFails dbn tr → res ≠ .ok TXO_OK

/-- When `StartTXOTxn` fails, `GetTXOStats` leaves the transaction alone and fails. -/
def StatsHonest (dbn : Dbi) (tr : Calls) (res : Except Stop ℤ) : Prop :=
  StartFails dbn tr → (∀ e ∈ tr, e.1.onStarted = false) ∧ ∃ err, res = .ok err ∧ err ≠ 0

/-- When `StartTXOTxn` fails, `GetTXOs` leaves the transaction alone and fails. It returns `TXO_OK`
only for a successful `mdb_get`, and where that failed, any decoder would do. -/
structure LookupHonest (scriptHash : UInt256) (ntx : List TXO) (tr : Calls)
    (res : Except Stop (ℤ × List TXO)) : Prop where
  start : StartFails .addr tr → (∀ e ∈ tr, e.1.onStarted = false) ∧
    ∃ err ntx', res = .ok (err, ntx') ∧ err ≠ TXO_OK
  ok : ∀ ntx', res = .ok (TXO_OK, ntx') →
    ∃ r : Reply, ⟨.get .addr scriptHash.serialize, r⟩ ∈ tr ∧ r.code = 0
  decodes : Fails (.get .addr scriptHash.serialize) tr →
    ∀ decode, Trace (getTXOsWith decode scriptHash ntx) tr res

theorem startHonest_iff : Each (fun tr res => StartHonest dbn tr res ↔
    ¬ (StartFails dbn tr ∧ Confused tr)) (startTXOTxn dbn) := by
  intro tr res h
  obtain ⟨err, rfl, -, -, hok⟩ := startTXOTxn_spec h
  rw [StartHonest, ne_eq, Except.ok.injEq, hok]
  tauto

theorem statsHonest_iff :
    Each (fun tr res => StatsHonest dbn tr res ↔ ¬ StartFails dbn tr) (getTXOStats dbn) := by
  intro tr res h
  obtain ⟨tr₁, err, r, tr₂, rfl, -, -, -⟩ := trace_getTXOStats h
  refine ⟨fun hhonest hfails => ?_, fun hstart hfails => absurd hfails hstart⟩
  have hstat := (hhonest hfails).1 ⟨.stat dbn, r⟩ (by simp)
  exact nomatch hstat

/-- A lookup searches once. -/
theorem mem_get_iff (scriptHash : UInt256) {tr₁ tr₂ : Calls} {err : ℤ} {r : Reply} (r' : Reply)
    {res : Except Stop (ℤ × List TXO)} (hstart : Trace (startTXOTxn .addr) tr₁ (.ok err))
    (hanswer : Trace (answerLookup readOutPoint ntx r) tr₂ res) :
    ⟨.get .addr scriptHash.serialize, r'⟩ ∈ tr₁ ++ ⟨.get .addr scriptHash.serialize, r⟩ :: tr₂ ↔
      r' = r := by
  obtain ⟨-, -, -, hcalls, -⟩ := startTXOTxn_spec hstart
  have hno₁ : (⟨.get .addr scriptHash.serialize, r'⟩ : Exchange Call fun _ => Reply) ∉ tr₁ :=
    fun hmem => nomatch hcalls _ hmem
  have hno₂ : (⟨.get .addr scriptHash.serialize, r'⟩ : Exchange Call fun _ => Reply) ∉ tr₂ := by
    obtain ⟨-, ⟨a, rfl⟩, -⟩ | ⟨-, ⟨a, rfl⟩, -⟩ | ⟨-, ⟨-, ⟨a, rfl⟩, -⟩ | ⟨-, rfl, -⟩⟩ :=
      trace_answerLookup hanswer <;> simp
  simp [hno₁, hno₂]

/-- Without a value to decode, any decoder does. -/
theorem answerLookup_congr {r : Reply} (h : r.code = MDB_NOTFOUND ∨ r.code = EINVAL)
    (decode decode' : Bytes → Prog COutPoint) :
    answerLookup decode ntx r = answerLookup decode' ntx r := by
  rw [answerLookup, answerLookup]
  split_ifs with hnone hinval
  · rfl
  · rfl
  · exact absurd h (not_or.mpr ⟨hnone, hinval⟩)

/-- A decoder that fails shows wherever it is run. -/
theorem answerLookup_fails {r : Reply} {res : Except Stop (ℤ × List TXO)}
    (h : Trace (answerLookup (fun _ => .fail (.err 0)) ntx r) tr res) :
    (∀ ntx', res ≠ .ok (TXO_OK, ntx')) ∧ res ≠ .error (.thrown .endOfData) := by
  rw [answerLookup] at h
  split_ifs at h with hnone hinval
  · obtain ⟨a, tr', rfl, hdone⟩ := trace_call_bind_iff.mp h
    obtain ⟨rfl, rfl⟩ := trace_pure_iff.mp hdone
    exact ⟨fun ntx' => by simp [TXO_NOTFOUND, TXO_OK], nofun⟩
  · obtain ⟨a, tr', rfl, hdone⟩ := trace_call_bind_iff.mp h
    obtain ⟨rfl, rfl⟩ := trace_pure_iff.mp hdone
    exact ⟨fun ntx' => by simp [hinval, EINVAL, TXO_OK], nofun⟩
  · obtain ⟨rfl, rfl⟩ := trace_fail_iff.mp h
    exact ⟨nofun, by simp⟩

theorem lookupHonest_iff : Each (fun tr res => LookupHonest scriptHash ntx tr res ↔
    ¬ StartFails .addr tr ∧ ∀ r : Reply, ⟨.get .addr scriptHash.serialize, r⟩ ∈ tr →
      r.code = 0 ∨ r.code = MDB_NOTFOUND ∨ r.code = EINVAL) (getTXOs scriptHash ntx) := by
  intro tr res h
  rw [getTXOs_eq] at h
  obtain ⟨tr₁, err, r, tr₂, rfl, hstart, hanswer⟩ := trace_getTXOsWith.mp h
  have hmem (r' : Reply) := mem_get_iff scriptHash r' hstart hanswer
  have hbranch := trace_answerLookup hanswer
  constructor
  · intro hhonest
    refine ⟨fun hfails => ?_, fun r' hr' => ?_⟩
    · have hget := (hhonest.start hfails).1 ⟨.get .addr scriptHash.serialize, r⟩ (by simp)
      exact nomatch hget
    · obtain rfl := (hmem r').mp hr'
      by_contra hcode
      obtain ⟨hzero, hother⟩ := not_or.mp hcode
      obtain ⟨_, _, _, _, -, -, hdecode⟩ := trace_getTXOsWith.mp
        (hhonest.decodes ⟨r', hr', hzero⟩ fun _ => .fail (.err 0))
      obtain ⟨hok, hthrown⟩ := answerLookup_fails hdecode
      obtain ⟨hnone, -⟩ | ⟨hinval, -⟩ | ⟨-, ⟨-, -, hres⟩ | ⟨-, -, hres⟩⟩ := hbranch
      · exact hother (.inl hnone)
      · exact hother (.inr hinval)
      · exact hok _ hres
      · exact hthrown hres
  · rintro ⟨hstart', hcodes⟩
    have hcode := hcodes r ((hmem r).mpr rfl)
    refine ⟨fun hfails => absurd hfails hstart', fun ntx' hres => ?_, ?_⟩
    · refine ⟨r, (hmem r).mpr rfl, ?_⟩
      obtain ⟨hnone, -, hres'⟩ | ⟨hinval, -, hres'⟩ | ⟨hother, -⟩ := hbranch
      · simp [hres', TXO_NOTFOUND, TXO_OK] at hres
      · simp [hres', EINVAL, TXO_OK] at hres
      · exact hcode.resolve_right (not_or.mpr hother)
    · rintro ⟨r', hr', hzero⟩ decode
      obtain rfl := (hmem r').mp hr'
      refine trace_getTXOsWith.mpr ⟨tr₁, err, r', tr₂, rfl, hstart, ?_⟩
      rw [answerLookup_congr (hcode.resolve_left hzero) decode readOutPoint]
      exact hanswer

/-- **When failed calls are told from successes.** `StartTXOTxn` returns `TXO_OK` for a failure if a
call it makes returns one; its callers notice no failure of it, and `GetTXOs` takes all codes but
two for a success. -/
theorem codes_iff (dbn : Dbi) (scriptHash : UInt256) (ntx : List TXO) :
    Each (fun tr res => StartHonest dbn tr res ↔ ¬ (StartFails dbn tr ∧ Confused tr))
      (startTXOTxn dbn) ∧
    Each (fun tr res => StatsHonest dbn tr res ↔ ¬ StartFails dbn tr) (getTXOStats dbn) ∧
    Each (fun tr res => LookupHonest scriptHash ntx tr res ↔
      ¬ StartFails .addr tr ∧ ∀ r : Reply, ⟨.get .addr scriptHash.serialize, r⟩ ∈ tr →
        r.code = 0 ∨ r.code = MDB_NOTFOUND ∨ r.code = EINVAL) (getTXOs scriptHash ntx) :=
  ⟨startHonest_iff, statsHonest_iff, lookupHonest_iff⟩

/-- A lookup in an empty table. -/
def notFound : Calls :=
  [⟨.txnBegin, {}⟩, ⟨.dbiOpen .addr false, {}⟩,
    ⟨.get .addr (UInt256.zero).serialize, { code := MDB_NOTFOUND }⟩, ⟨.txnAbort, {}⟩]

theorem trace_notFound : Trace (getTXOs .zero []) notFound (.ok (TXO_NOTFOUND, [])) :=
  .ask _ (.ask _ (.ask _ (.ask _ (.done _))))

/-- It finds nothing, and says so. -/
theorem lookupHonest_notFound :
    LookupHonest .zero [] notFound (.ok (TXO_NOTFOUND, [])) := by
  refine ((codes_iff .addr .zero []).2.2 _ _ trace_notFound).mpr ⟨?_, ?_⟩
  · simp [StartFails, Fails, notFound]
  · simp [notFound]

/-- `MDB_BAD_TXN` of LMDB. -/
def MDB_BAD_TXN : ℤ := -30782

/-- `EPERM` from `mdb_txn_begin` is returned as `TXO_OK`, the statistics are asked for after any
other failure of it, and a lookup in a transaction that is bad returns `TXO_OK`. -/
theorem not_honest :
    ¬ (∀ dbn, Each (StartHonest dbn) (startTXOTxn dbn)) ∧
    ¬ (∀ dbn, Each (StatsHonest dbn) (getTXOStats dbn)) ∧
    ¬ ∀ scriptHash ntx, Each (LookupHonest scriptHash ntx) (getTXOs scriptHash ntx) := by
  refine ⟨fun h => ?_, fun h => ?_, fun h => ?_⟩
  · have hstart : Trace (startTXOTxn .addr) [⟨.txnBegin, { code := 1 }⟩] (.ok TXO_OK) :=
      .ask _ (.done _)
    refine h .addr _ _ hstart (.inl ⟨{ code := 1 }, by simp, by decide⟩) rfl
  · have hstats : Trace (getTXOStats .addr) [⟨.txnBegin, { code := EINVAL }⟩,
        ⟨.stat .addr, { code := EINVAL }⟩] (.ok EINVAL) := .ask _ (.ask _ (.done _))
    have hcalls := (h .addr _ _ hstats (.inl ⟨{ code := EINVAL }, by simp, by decide⟩)).1
    exact nomatch hcalls ⟨.stat .addr, { code := EINVAL }⟩ (by simp)
  · have hlookup : Trace (getTXOs .zero []) [⟨.txnBegin, {}⟩, ⟨.dbiOpen .addr false, {}⟩,
        ⟨.get .addr (UInt256.zero).serialize,
          { code := MDB_BAD_TXN, data := List.replicate 36 0 }⟩, ⟨.txnCommit, {}⟩]
        (.ok (TXO_OK, [])) := .ask _ (.ask _ (.ask _ (.ask _ (.done _))))
    obtain ⟨r, hr, hcode⟩ := (h _ _ _ _ hlookup).ok [] rfl
    simp only [List.mem_cons, Sigma.mk.injEq, reduceCtorEq, false_and, true_and, heq_eq_eq,
      List.not_mem_nil, or_false, false_or] at hr
    rw [hr] at hcode
    exact absurd hcode (by decide)

end ElectrumZ.Blockchain
