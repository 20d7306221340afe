import ElectrumZ.Bitcoin.Sha256
import ElectrumZ.Blockchain.ReturnCodes
import ElectrumZ.Blockchain.Worker

/-!
# Write transactions and how they end

`TxnState` follows the transaction of a program through its calls, and refuses a call on a
transaction that has been closed, a second transaction before the first is closed, and a resize
while it is open. `Closes` says that a run makes no such call and leaves no transaction open.

* `Within`: a part of a block goes on, closes the transaction, or leaks it.
* `indexBlock_closes`: an attempt at a block closes its transaction if and only if the codes it met
  were harmless.
* `closes_iff`: the same for a whole worker, and for the lookups.
-/

namespace ElectrumZ.Blockchain

open Foundations Bitcoin Dialog

/-! ## The monitor -/

/-- A transaction of the program: none has begun, one is active, or the last one is closed. -/
inductive TxnState
  | unbegun
  | active
  | closed
  deriving DecidableEq, Repr

namespace TxnState

/-- What an exchange does to the transaction; `none` for one that must not happen. -/
def step (t : TxnState) : Exchange Call (fun _ => Reply) → Option TxnState
  | ⟨.txnBegin, r⟩ => if r.code ≠ 0 then some t else if t = active then none else some active
  | ⟨.txnCommit, _⟩ | ⟨.txnAbort, _⟩ =>
    match t with
    | unbegun => some unbegun
    | active => some closed
    | closed => none
  | ⟨.dbiOpen _ _, _⟩ | ⟨.setDupsort _ _, _⟩ | ⟨.put _ _ _, _⟩ | ⟨.cursorOpen _, _⟩
  | ⟨.cursorPut _ _ _, _⟩ | ⟨.cursorClose, _⟩ | ⟨.stat _, _⟩ | ⟨.get _ _, _⟩ =>
    if t = closed then none else some t
  | ⟨.lockResize, _⟩ => if t = active then none else some t
  | ⟨.envCreate, _⟩ | ⟨.setMaxdbs _, _⟩ | ⟨.envOpen, _⟩ | ⟨.envInfo, _⟩ | ⟨.setMapsize _, _⟩
  | ⟨.unlockResize, _⟩ | ⟨.tally _, _⟩ => some t

/-- What a run does to the transaction. -/
def follow (t : TxnState) (tr : Calls) : Option TxnState := tr.foldlM step t

/-- The run makes no forbidden call, and leaves no transaction active. -/
def Closes (t : TxnState) (tr : Calls) : Prop := ∃ t', t.follow tr = some t' ∧ t' ≠ active

variable {t t' : TxnState} {tr tr' : Calls} {e : Exchange Call fun _ => Reply}

theorem follow_nil : t.follow [] = some t := rfl

theorem follow_cons : t.follow (e :: tr) = (t.step e).bind (follow · tr) := List.foldlM_cons

theorem follow_append : t.follow (tr ++ tr') = (t.follow tr).bind (follow · tr') :=
  List.foldlM_append

theorem closes_nil : t.Closes [] ↔ t ≠ active := by
  simp [Closes, follow_nil]

theorem closes_cons (h : t.step e = some t') : t.Closes (e :: tr) ↔ t'.Closes tr := by
  rw [Closes, follow_cons, h]
  rfl

theorem closes_append (h : t.follow tr = some t') : t.Closes (tr ++ tr') ↔ t'.Closes tr' := by
  rw [Closes, follow_append, h]
  rfl

theorem not_closes_of_none (h : t.follow tr = none) : ¬ t.Closes (tr ++ tr') := by
  rintro ⟨t'', h', -⟩
  rw [follow_append, h] at h'
  exact nomatch h'

/-- Resizing is no call on the transaction, but must not happen within one. -/
theorem follow_increaseMapSize {res : Except Stop ℤ} (h : Trace increaseMapSize tr res) :
    t.follow tr = if t = active then none else some t := by
  obtain ⟨l, tr₁, u, rfl, hgrow⟩ := trace_increaseMapSize h
  obtain ⟨i, tr₂, rfl, ⟨-, rfl, -⟩ | ⟨-, size, m, rfl, -⟩⟩ := trace_growMap hgrow <;>
    cases t <;> rfl

end TxnState

open TxnState

/-! ## One block -/

/-- The codes an attempt at a block deals with: tables open, and the puts succeed, find the map
full, or in `addr` find the pair. -/
def Harmless : Exchange Call (fun _ => Reply) → Prop
  | ⟨.dbiOpen _ _, r⟩ | ⟨.setDupsort _ _, r⟩ => r.code = 0
  | ⟨.put .addr _ _, r⟩ => r.code = 0 ∨ r.code = MDB_MAP_FULL ∨ r.code = MDB_KEYEXIST
  | ⟨.put _ _ _, r⟩ | ⟨.cursorPut _ _ _, r⟩ => r.code = 0 ∨ r.code = MDB_MAP_FULL
  | _ => True

/-- How a part of an attempt ends: the transaction stays active for the next, or is closed by a
retry or a failed resize, or is left open. -/
inductive Within {α : Type} (tr : Calls) : Except Stop α → Prop
  | goesOn (a : α) (hcodes : ∀ e ∈ tr, Harmless e) (h : active.follow tr = some active) :
    Within tr (.ok a)
  | closes (stop : Stop) (hcodes : ∀ e ∈ tr, Harmless e) (h : active.follow tr = some closed) :
    Within tr (.error stop)
  | leaks (err : ℤ) (hcodes : ¬ ∀ e ∈ tr, Harmless e) (h : ¬ active.Closes tr) :
    Within tr (.error (.err err))

variable {α β : Type} {tr : Calls} {sha256 : Bytes → UInt256}

theorem within_pure (a : α) : Each Within (pure a : Prog α) := by
  intro tr res h
  obtain ⟨rfl, rfl⟩ := trace_pure_iff.mp h
  exact .goesOn a (by simp) rfl

/-- The parts of an attempt compose. -/
theorem within_bind {d : Prog α} {f : α → Prog β} (hd : Each Within d)
    (hf : ∀ a, Each Within (f a)) : Each Within (d >>= f) := by
  intro tr res h
  obtain ⟨e, h₁, rfl⟩ | ⟨tr₁, a, tr₂, rfl, h₁, h₂⟩ := trace_bind_iff.mp h
  · cases hd _ _ h₁ with
    | closes _ hcodes hfollow => exact .closes _ hcodes hfollow
    | leaks _ hcodes hfollow => exact .leaks _ hcodes hfollow
  · cases hd _ _ h₁ with
    | goesOn _ hcodes₁ hfollow₁ =>
      cases hf a _ _ h₂ with
      | goesOn b hcodes hfollow =>
        refine .goesOn b (List.forall_mem_append.mpr ⟨hcodes₁, hcodes⟩) ?_
        rw [follow_append, hfollow₁]
        exact hfollow
      | closes _ hcodes hfollow =>
        refine .closes _ (List.forall_mem_append.mpr ⟨hcodes₁, hcodes⟩) ?_
        rw [follow_append, hfollow₁]
        exact hfollow
      | leaks _ hcodes hfollow =>
        refine .leaks _ (fun h => hcodes (List.forall_mem_append.mp h).2) ?_
        rwa [closes_append hfollow₁]

/-- A run ends with an error and does not close the transaction. -/
def Leaks (tr : Calls) (res : Except Stop α) : Prop :=
  (∃ err, res = .error (.err err)) ∧ ¬ active.Closes tr

theorem leaks_fail (err : ℤ) : Each Leaks (.fail (.err err) : Prog α) := by
  intro tr res h
  obtain ⟨rfl, rfl⟩ := trace_fail_iff.mp h
  exact ⟨⟨err, rfl⟩, by simp [closes_nil]⟩

/-- A call on the open transaction, and what follows by its code. -/
theorem within_call_bind {c : Call} {f : ℤ → Prog α}
    (hstep : ∀ r : Reply, active.step ⟨c, r⟩ = some active)
    (hgood : ∀ r : Reply, Harmless ⟨c, r⟩ → Each Within (f r.code))
    (hbad : ∀ r : Reply, ¬ Harmless ⟨c, r⟩ → Each Leaks (f r.code)) :
    Each Within (call c >>= f) := by
  intro tr res h
  obtain ⟨r, tr', rfl, hrest⟩ := trace_call_bind_iff.mp h
  by_cases hcode : Harmless ⟨c, r⟩
  · cases hgood r hcode _ _ hrest with
    | goesOn a hcodes hfollow =>
      refine .goesOn a (List.forall_mem_cons.mpr ⟨hcode, hcodes⟩) ?_
      rw [follow_cons, hstep]
      exact hfollow
    | closes stop hcodes hfollow =>
      refine .closes stop (List.forall_mem_cons.mpr ⟨hcode, hcodes⟩) ?_
      rw [follow_cons, hstep]
      exact hfollow
    | leaks err hcodes hleaks =>
      refine .leaks err (fun h => hcodes (List.forall_mem_cons.mp h).2) ?_
      rwa [closes_cons (hstep r)]
  · obtain ⟨⟨err, rfl⟩, hleaks⟩ := hbad r hcode _ _ hrest
    refine .leaks err (fun h => hcode (List.forall_mem_cons.mp h).1) ?_
    rwa [closes_cons (hstep r)]

/-- A call on the open transaction whose code is not looked at. -/
theorem within_call {c : Call} (hstep : ∀ r : Reply, active.step ⟨c, r⟩ = some active)
    (hcode : ∀ r : Reply, Harmless ⟨c, r⟩) : Each Within (call c) :=
  within_call_bind hstep (fun r _ => within_pure r.code) fun r h => absurd (hcode r) h

/-- Resizing on the open transaction. -/
theorem leaks_increaseMapSize : Each Leaks (increaseMapSize >>= fun err => .fail (.err err) :
    Prog α) := by
  intro tr res h
  obtain ⟨e, hgrow, rfl⟩ | ⟨tr₁, err, tr₂, rfl, hgrow, hfail⟩ := trace_bind_iff.mp h
  · obtain ⟨err, herr, -⟩ := increaseMapSize_spec hgrow
    exact nomatch herr
  · obtain ⟨rfl, rfl⟩ := trace_fail_iff.mp hfail
    exact ⟨⟨err, rfl⟩, not_closes_of_none (follow_increaseMapSize hgrow)⟩

theorem within_openTable (dbn : Dbi) (dupsort : Bool) : Each Within (openTable dbn dupsort) := by
  refine within_call_bind (fun _ => rfl) (fun r hcode => ?_) (fun r hcode => ?_)
  · have hzero : r.code = 0 := hcode
    rw [if_neg (not_not.mpr hzero)]
    exact within_pure ()
  · have hne : r.code ≠ 0 := hcode
    rw [if_pos hne]
    split_ifs
    · exact leaks_increaseMapSize
    · exact leaks_fail r.code

/-- A full map closes the transaction, whether it can be enlarged or not. -/
theorem within_tryBlockAgain : Each Within tryBlockAgain := by
  intro tr res h
  obtain ⟨a, tr₁, rfl, habort⟩ := trace_call_bind_iff.mp h
  obtain ⟨e, hgrow, rfl⟩ | ⟨tr₂, err, tr₃, rfl, hgrow, hfail⟩ := trace_bind_iff.mp habort
  · obtain ⟨err, herr, -⟩ := increaseMapSize_spec hgrow
    exact nomatch herr
  · have hfollow := follow_increaseMapSize (t := closed) hgrow
    obtain ⟨-, -, -, hcalls, -⟩ := increaseMapSize_spec hgrow
    have hharmless (c : Call) (r : Reply) : c.resizing = true → Harmless ⟨c, r⟩ := by
      cases c <;> simp [Call.resizing, Harmless]
    obtain ⟨stop, rfl, rfl⟩ : ∃ stop, tr₃ = [] ∧ res = .error stop := by
      split_ifs at hfail <;> obtain ⟨rfl, rfl⟩ := trace_fail_iff.mp hfail <;>
        exact ⟨_, rfl, rfl⟩
    refine .closes stop ?_ ?_
    · simpa [Harmless] using fun e he => hharmless e.1 e.2 (hcalls e he)
    · rw [List.append_nil]
      exact hfollow

theorem within_putFailed (err : ℤ) (h : err = MDB_MAP_FULL) : Each Within (putFailed err) := by
  rw [putFailed, if_pos h]
  exact within_tryBlockAgain

theorem within_indexOutput (txHash : UInt256) (n : ℕ) (ntxo : CTxOut) :
    Each Within (indexOutput sha256 txHash n ntxo) := by
  refine within_call_bind (fun _ => rfl) (fun r hcode => ?_) (fun r hcode => ?_)
  · split_ifs with hne hfull hexists
    · exact within_tryBlockAgain
    · exact within_pure ()
    · exact absurd hcode (not_or.mpr ⟨hne, not_or.mpr ⟨hfull, hexists⟩⟩)
    · refine within_call_bind (fun _ => rfl) (fun r hcode => ?_) (fun r hcode => ?_)
      · split_ifs with hne
        · exact within_putFailed _ (hcode.resolve_left hne)
        · exact within_pure ()
      · obtain ⟨hne, hfull⟩ := not_or.mp hcode
        rw [if_pos hne, putFailed, if_neg hfull]
        exact leaks_fail _
  · obtain ⟨hne, hother⟩ := not_or.mp hcode
    obtain ⟨hfull, hexists⟩ := not_or.mp hother
    rw [if_pos hne, if_neg hfull, if_neg hexists]
    exact leaks_fail _

theorem within_indexOutputs (txHash : UInt256) (n : ℕ) (vout : List CTxOut) :
    Each Within (indexOutputs sha256 txHash n vout) := by
  induction vout generalizing n with
  | nil => exact within_pure ()
  | cons o vout ih => exact within_bind (within_indexOutput txHash n o) fun _ => ih (n + 1)

theorem within_indexTx (mode : ℕ) (tx : CTransaction) : Each Within (indexTx sha256 mode tx) := by
  have hbody : Each Within (indexInOut sha256 mode tx) := by
    rw [indexInOut]
    split_ifs
    · rw [spendInputs_eq]
      exact within_pure ()
    · exact within_indexOutputs _ 0 _
  refine within_bind (within_call (fun _ => rfl) fun _ => trivial) fun _ => ?_
  refine within_bind hbody fun _ => ?_
  refine within_bind (within_call (fun _ => rfl) fun _ => trivial) fun _ => ?_
  exact within_bind (within_call (fun _ => rfl) fun _ => trivial) fun _ => within_pure ()

theorem within_indexTxs (mode : ℕ) (vtx : List CTransaction) :
    Each Within (indexTxs sha256 mode vtx) := by
  induction vtx with
  | nil => exact within_pure ()
  | cons tx vtx ih => exact within_bind (within_indexTx mode tx) fun _ => ih

theorem within_putHeader (header : CBlockHeader) : Each Within (putHeader sha256 header) := by
  refine within_call_bind (fun _ => rfl) (fun r hcode => ?_) (fun r hcode => ?_)
  · split_ifs with hne
    · exact within_putFailed _ (hcode.resolve_left hne)
    · exact within_pure ()
  · obtain ⟨hne, hfull⟩ := not_or.mp hcode
    rw [if_pos hne, putFailed, if_neg hfull]
    exact leaks_fail _

/-- A block begins its transaction, or ends with the code it got for it. -/
theorem trace_beginBlock {res : Except Stop Unit} (h : Trace beginBlock tr res) :
    ∃ b tr', tr = ⟨.txnBegin, b⟩ :: tr' ∧
      (b.code ≠ 0 ∧ tr' = [] ∧ res = .error (.err b.code) ∨ b.code = 0 ∧ Within tr' res) := by
  obtain ⟨b, tr', rfl, hrest⟩ := trace_call_bind_iff.mp h
  refine ⟨b, tr', rfl, ?_⟩
  by_cases hb : b.code = 0
  · refine .inr ⟨hb, ?_⟩
    have hcheck : check b.code = pure () := by rw [check, if_neg (not_not.mpr hb)]
    rw [hcheck] at hrest
    have hset : Each Within (call (.setDupsort .txo txoCmp) >>= check) := by
      refine within_call_bind (fun _ => rfl) (fun r hcode => ?_) (fun r hcode => ?_)
      · have hzero : r.code = 0 := hcode
        rw [check, if_neg (not_not.mpr hzero)]
        exact within_pure ()
      · have hne : r.code ≠ 0 := hcode
        rw [check, if_pos hne]
        exact leaks_fail r.code
    exact within_bind (within_openTable .txo true) (fun _ =>
      within_bind (within_openTable .addr true) fun _ =>
        within_bind (within_openTable .blk false) fun _ => hset) _ _ hrest
  · have hcheck : check b.code = .fail (.err b.code) := by rw [check, if_pos hb]
    rw [hcheck] at hrest
    obtain ⟨rfl, rfl⟩ := trace_fail_iff.mp hrest
    exact .inl ⟨hb, rfl, rfl⟩

/-- A run closes its transaction if and only if it met harmless codes, and one that does not ends
with an error. -/
def Verdict (t : TxnState) (tr : Calls) (res : Except Stop α) : Prop :=
  (t.Closes tr ↔ ∀ e ∈ tr, Harmless e) ∧ (¬ t.Closes tr → ∃ err, res = .error (.err err))

theorem Within.verdict {res : Except Stop α} {stop : Stop} (h : Within tr res)
    (hres : res = .error stop) : Verdict active tr res := by
  cases h with
  | goesOn => exact nomatch hres
  | closes _ hcodes hfollow =>
    have hcloses : active.Closes tr := ⟨closed, hfollow, by decide⟩
    exact ⟨iff_of_true hcloses hcodes, fun h => absurd hcloses h⟩
  | leaks err hcodes hleaks => exact ⟨iff_of_false hleaks hcodes, fun _ => ⟨err, rfl⟩⟩

/-- Behind a part that goes on, the rest decides. -/
theorem Within.verdict_append {a : α} {tr' : Calls} {res : Except Stop β}
    (h : Within tr (.ok a : Except Stop α)) (h' : Verdict active tr' res) :
    Verdict active (tr ++ tr') res := by
  cases h with
  | goesOn _ hcodes hfollow =>
    rw [Verdict, closes_append hfollow, List.forall_mem_append]
    exact ⟨h'.1.trans (and_iff_right hcodes).symm, h'.2⟩

theorem verdict_bind {d : Prog α} {f : α → Prog β} (hd : Each Within d)
    (hf : ∀ a, Each (Verdict active) (f a)) : Each (Verdict active) (d >>= f) := by
  intro tr res h
  obtain ⟨e, h₁, rfl⟩ | ⟨tr₁, a, tr₂, rfl, h₁, h₂⟩ := trace_bind_iff.mp h
  · obtain ⟨hiff, hleaks⟩ := (hd _ _ h₁).verdict rfl
    refine ⟨hiff, fun hopen => ?_⟩
    obtain ⟨err, herr⟩ := hleaks hopen
    exact ⟨err, congrArg Except.error (Except.error.inj herr)⟩
  · exact (hd _ _ h₁).verdict_append (hf a _ _ h₂)

theorem verdict_commit : Each (Verdict active) (do
    let _ ← call .txnCommit
    let _ ← call (.tally .block) : Prog Unit) := by
  intro tr res h
  obtain ⟨c, tr₁, rfl, htally⟩ := trace_call_bind_iff.mp h
  obtain ⟨b, tr₂, rfl, hdone⟩ := trace_call_bind_iff.mp htally
  obtain ⟨rfl, rfl⟩ := trace_pure_iff.mp hdone
  have hcloses : active.Closes [⟨.txnCommit, c⟩, ⟨.tally .block, b⟩] := ⟨closed, rfl, by decide⟩
  exact ⟨iff_of_true hcloses (by simp [Harmless]), fun h => absurd hcloses h⟩

/-- **An attempt at a block closes its transaction if and only if it met harmless codes.** One that
leaks it ends the worker. -/
theorem indexBlock_verdict {mode : ℕ} {blk : CBlock} {t : TxnState} (ht : t ≠ active) :
    Each (Verdict t) (indexBlock sha256 mode blk) := by
  have hrest : Each (Verdict active) (do
      putHeader sha256 blk.header
      indexTxs sha256 mode blk.vtx
      let _ ← call .txnCommit
      let _ ← call (.tally .block) : Prog Unit) :=
    verdict_bind (within_putHeader _) fun _ => verdict_bind (within_indexTxs mode _) fun _ =>
      verdict_commit
  -- behind a transaction that has begun, the state before it does not matter
  have hbegun {b : Reply} {tr : Calls} {res : Except Stop Unit} (hb : b.code = 0)
      (h : Verdict active tr res) : Verdict t (⟨.txnBegin, b⟩ :: tr) res := by
    have hstep : t.step ⟨.txnBegin, b⟩ = some active := by
      rw [TxnState.step, if_neg (not_not.mpr hb), if_neg ht]
    rw [Verdict, closes_cons hstep, List.forall_mem_cons]
    exact ⟨h.1.trans (and_iff_right trivial).symm, h.2⟩
  intro tr res h
  obtain ⟨e, hbegin, rfl⟩ | ⟨tr₁, ⟨⟩, tr₂, rfl, hbegin, hbody⟩ := trace_bind_iff.mp h
  · obtain ⟨b, tr', rfl, ⟨hb, rfl, hres⟩ | ⟨hb, hwithin⟩⟩ := trace_beginBlock hbegin
    · have hstep : t.step ⟨.txnBegin, b⟩ = some t := by rw [TxnState.step, if_pos hb]
      have hcloses : t.Closes [⟨.txnBegin, b⟩] := (closes_cons hstep).mpr (closes_nil.mpr ht)
      exact ⟨iff_of_true hcloses (by simp [Harmless]), fun h => absurd hcloses h⟩
    · exact hbegun hb (hwithin.verdict rfl)
  · obtain ⟨b, tr', rfl, ⟨-, -, hres⟩ | ⟨hb, hwithin⟩⟩ := trace_beginBlock hbegin
    · exact nomatch hres
    · exact hbegun hb (hwithin.verdict_append (hrest _ _ hbody))

/-! ## The worker -/

/-- The calls of a worker that has ended. -/
def callsOf : Except (Stop × Calls) Calls → Calls
  | .ok tr => tr
  | .error (_, tr) => tr

/-- The calls so far were harmless and the transactions are closed. -/
def Clean (tr : Calls) : Prop := unbegun.Closes tr ∧ ∀ e ∈ tr, Harmless e

/-- Clean calls stay clean through an attempt, or it ends the worker. -/
theorem indexBlock_clean (sha256 : Bytes → UInt256) (answer : Calls → Call → Reply) (mode : ℕ)
    (blk : CBlock) {past : Calls} (h : Clean past) :
    Attempted Clean (fun p => unbegun.Closes p.2 ↔ ∀ e ∈ p.2, Harmless e)
      ((indexBlock sha256 mode blk).run (recorded answer) past) := by
  obtain ⟨tr, hpast, htrace⟩ := run_recorded answer (indexBlock sha256 mode blk) past
  obtain ⟨⟨t, hfollow, ht⟩, hcodes⟩ := h
  obtain ⟨hiff, hleaks⟩ := indexBlock_verdict ht _ _ htrace
  rcases hrun : (indexBlock sha256 mode blk).run (recorded answer) past with ⟨res, tr'⟩
  rw [hrun] at hpast htrace hleaks
  obtain rfl : tr' = past ++ tr := hpast
  have hall : unbegun.Closes (past ++ tr) ↔ ∀ e ∈ past ++ tr, Harmless e := by
    rw [closes_append hfollow, List.forall_mem_append, hiff]
    exact (and_iff_right hcodes).symm
  have hclean (hres : ∀ err, res ≠ .error (.err err)) : Clean (past ++ tr) := by
    have hcloses : unbegun.Closes (past ++ tr) := by
      rw [closes_append hfollow]
      by_contra hopen
      obtain ⟨err, herr⟩ := hleaks hopen
      exact hres err herr
    exact ⟨hcloses, hall.mp hcloses⟩
  rcases res with stop | ⟨⟩
  · cases stop with
    | again => exact hclean nofun
    | err | thrown | blocked => exact hall
  · exact hclean nofun

/-- **A worker closes all its transactions if and only if it met harmless codes.** -/
theorem preloadFunc_closes_iff {answer : Calls → Call → Reply} {retries rounds mode : ℕ}
    {blks : List Bytes} {r : Except (Stop × Calls) Calls}
    (h : preloadFunc (recorded answer) sha256 retries rounds mode blks [] = some r) :
    unbegun.Closes (callsOf r) ↔ ∀ e ∈ callsOf r, Harmless e := by
  have hends : Ends Clean (fun p => unbegun.Closes p.2 ↔ ∀ e ∈ p.2, Harmless e) r :=
    preloadFunc_invariant (fun tr htr => iff_of_true htr.1 htr.2)
      (fun blk _ hs => indexBlock_clean sha256 answer mode blk hs) h
      ⟨⟨unbegun, rfl, by decide⟩, by simp⟩
  cases r with
  | ok tr => exact iff_of_true hends.1 hends.2
  | error p => exact hends

/-! ## The lookups -/

variable {dbn : Dbi} {scriptHash : UInt256} {ntx : List TXO}

/-- `mdb_dbi_open` found the map full. -/
def OpensFull (dbn : Dbi) (tr : Calls) : Prop :=
  ∃ r : Reply, ⟨.dbiOpen dbn false, r⟩ ∈ tr ∧ r.code = MDB_MAP_FULL

/-- A transaction that has begun, and its table. -/
theorem follow_begun {b d : Reply} (hb : b.code = 0) :
    unbegun.follow (⟨.txnBegin, b⟩ :: ⟨.dbiOpen dbn false, d⟩ :: tr) = active.follow tr := by
  have hstep : unbegun.step ⟨.txnBegin, b⟩ = some active := by
    rw [TxnState.step, if_neg (not_not.mpr hb), if_neg (by decide)]
  rw [follow_cons, hstep]
  rfl

/-- The transaction `StartTXOTxn` leaves: none that has begun, one that is active, or one that is
active during a resize. -/
theorem follow_startTXOTxn {res : Except Stop ℤ} (h : Trace (startTXOTxn dbn) tr res) :
    (Fails .txnBegin tr ∧ unbegun.follow tr = some unbegun) ∨
      ¬ Fails .txnBegin tr ∧ (OpensFull dbn tr ∧ unbegun.follow tr = none ∨
        ¬ OpensFull dbn tr ∧ unbegun.follow tr = some active) := by
  obtain ⟨b, tr₁, rfl, ⟨hb, rfl, -⟩ | ⟨hb, d, tr₂, rfl, hopen⟩⟩ := trace_startTXOTxn h
  · refine .inl ⟨⟨b, by simp, hb⟩, ?_⟩
    rw [follow_cons, TxnState.step, if_pos hb]
    rfl
  · rw [follow_begun hb]
    obtain ⟨hd, rfl, -⟩ | ⟨-, hd, rfl, -⟩ | ⟨hd, hgrow⟩ := hopen
    · refine .inr ⟨by simp [Fails, hb], .inr ⟨?_, rfl⟩⟩
      simp [OpensFull, hd, MDB_MAP_FULL]
    · exact .inr ⟨by simp [Fails, hb], .inr ⟨by simp [OpensFull, hd], rfl⟩⟩
    · obtain ⟨-, -, -, hcalls, -⟩ := increaseMapSize_spec hgrow
      refine .inr ⟨?_, .inl ⟨⟨d, by simp, hd⟩, follow_increaseMapSize hgrow⟩⟩
      rintro ⟨r, hr, hcode⟩
      simp only [List.mem_cons, Sigma.mk.injEq, heq_eq_eq, true_and, reduceCtorEq, false_and,
        false_or] at hr
      obtain rfl | hr := hr
      · exact hcode hb
      · cases hcalls _ hr

/-- `StartTXOTxn` closes its transaction, or hands it to its caller with its table open. -/
def Hands (dbn : Dbi) (tr : Calls) : Prop :=
  unbegun.Closes tr ∨ unbegun.follow tr = some active ∧
    ∃ r : Reply, ⟨.dbiOpen dbn false, r⟩ ∈ tr ∧ r.code = 0

theorem startTXOTxn_hands_iff :
    Each (fun tr _ => Hands dbn tr ↔ ¬ Fails (.dbiOpen dbn false) tr) (startTXOTxn dbn) := by
  intro tr res h
  obtain ⟨b, tr₁, rfl, ⟨hb, rfl, -⟩ | ⟨hb, d, tr₂, rfl, hopen⟩⟩ := trace_startTXOTxn h
  · refine iff_of_true (.inl ⟨unbegun, ?_, by decide⟩) (by simp [Fails])
    rw [follow_cons, TxnState.step, if_pos hb]
    rfl
  · rw [Hands, Closes, follow_begun hb]
    obtain ⟨hd, rfl, -⟩ | ⟨hd, -, rfl, -⟩ | ⟨hd, hgrow⟩ := hopen
    · exact iff_of_true (.inr ⟨rfl, d, by simp, hd⟩) (by simp [Fails, hd])
    · exact iff_of_false (by simp [follow_nil, hd]) (by simp [Fails, hd])
    · rw [follow_increaseMapSize hgrow, if_pos rfl]
      exact iff_of_false (by simp) (by simp [Fails, hd, MDB_MAP_FULL])

/-- Without a transaction, the calls of a lookup are on none. -/
theorem follow_unbegun (h : ∀ e ∈ tr, e.1.onStarted = true) :
    unbegun.follow tr = some unbegun := by
  induction tr with
  | nil => rfl
  | cons e tr ih =>
    obtain ⟨he, htr⟩ := List.forall_mem_cons.mp h
    have hstep : unbegun.step e = some unbegun := by
      obtain ⟨c, r⟩ := e
      cases c <;> first | rfl | exact nomatch he
    rw [follow_cons, hstep]
    exact ih htr

/-- What a lookup does with the transaction it has started decides, if it has begun. -/
theorem lookup_closes_iff {res : Except Stop ℤ} {tr' : Calls}
    (hstart : Trace (startTXOTxn dbn) tr res) (h : ∀ e ∈ tr', e.1.onStarted = true) :
    unbegun.Closes (tr ++ tr') ↔
      Fails .txnBegin (tr ++ tr') ∨ ¬ OpensFull dbn (tr ++ tr') ∧ active.Closes tr' := by
  have hbegin : Fails .txnBegin (tr ++ tr') ↔ Fails .txnBegin tr :=
    exists_congr fun r => and_congr_left fun _ => List.mem_append.trans
      (or_iff_left fun hr => nomatch h _ hr)
  have hopen : OpensFull dbn (tr ++ tr') ↔ OpensFull dbn tr :=
    exists_congr fun r => and_congr_left fun _ => List.mem_append.trans
      (or_iff_left fun hr => nomatch h _ hr)
  rw [hbegin, hopen]
  obtain ⟨hfails, hfollow⟩ | ⟨hbegun, ⟨hfull, hfollow⟩ | ⟨hfull, hfollow⟩⟩ :=
    follow_startTXOTxn hstart
  · rw [closes_append hfollow]
    exact iff_of_true ⟨unbegun, follow_unbegun h, by decide⟩ (.inl hfails)
  · exact iff_of_false (not_closes_of_none hfollow) (by tauto)
  · rw [closes_append hfollow]
    tauto

/-- `GetTXOStats` closes its transaction unless the map was full, or the query fails. -/
theorem getTXOStats_closes_iff : Each (fun tr _ => unbegun.Closes tr ↔
    Fails .txnBegin tr ∨ ¬ OpensFull dbn tr ∧ ¬ Fails (.stat dbn) tr) (getTXOStats dbn) := by
  intro tr res h
  obtain ⟨tr₁, err, r, tr₂, rfl, hstart, hrest, -⟩ := trace_getTXOStats h
  obtain ⟨-, -, -, hcalls, -⟩ := startTXOTxn_spec hstart
  have hmem (r' : Reply) (hr' : ⟨.stat dbn, r'⟩ ∈ tr₁) : False := nomatch hcalls _ hr'
  obtain ⟨hr, rfl⟩ | ⟨hr, a, rfl⟩ := hrest
  · rw [lookup_closes_iff hstart (by simp [Call.onStarted])]
    have hopen : ¬ active.Closes [⟨.stat dbn, r⟩] := by
      simp [Closes, follow_cons, TxnState.step, follow_nil]
    have hfails : Fails (.stat dbn) (tr₁ ++ [⟨.stat dbn, r⟩]) := ⟨r, by simp, hr⟩
    tauto
  · rw [lookup_closes_iff hstart (by simp [Call.onStarted])]
    have hcloses : active.Closes [⟨.stat dbn, r⟩, ⟨.txnCommit, a⟩] := ⟨closed, rfl, by decide⟩
    have hfails : ¬ Fails (.stat dbn) (tr₁ ++ [⟨.stat dbn, r⟩, ⟨.txnCommit, a⟩]) := by
      rintro ⟨r', hr', hcode⟩
      simp only [List.mem_append, List.mem_cons, Sigma.mk.injEq, heq_eq_eq, true_and,
        reduceCtorEq, false_and, List.not_mem_nil, or_false] at hr'
      obtain hr' | rfl := hr'
      · exact hmem _ hr'
      · exact hcode hr
    tauto

/-- `GetTXOs` closes its transaction unless the map was full, or what it finds cannot be decoded. -/
theorem getTXOs_closes_iff : Each (fun tr _ => unbegun.Closes tr ↔
    Fails .txnBegin tr ∨ ¬ OpensFull .addr tr ∧
      ∀ r : Reply, ⟨.get .addr scriptHash.serialize, r⟩ ∈ tr →
        r.code = MDB_NOTFOUND ∨ r.code = EINVAL ∨ 36 ≤ r.data.length)
    (getTXOs scriptHash ntx) := by
  intro tr res h
  rw [getTXOs_eq] at h
  obtain ⟨tr₁, err, r, tr₂, rfl, hstart, hanswer⟩ := trace_getTXOsWith.mp h
  have hmem (r' : Reply) := mem_get_iff scriptHash r' hstart hanswer
  have hbranch := trace_answerLookup hanswer
  have hcalls : ∀ e ∈ (⟨.get .addr scriptHash.serialize, r⟩ :: tr₂ : Calls),
      e.1.onStarted = true := by
    obtain ⟨-, ⟨a, rfl⟩, -⟩ | ⟨-, ⟨a, rfl⟩, -⟩ | ⟨-, ⟨-, ⟨a, rfl⟩, -⟩ | ⟨-, rfl, -⟩⟩ := hbranch <;>
      simp [Call.onStarted]
  rw [lookup_closes_iff hstart hcalls]
  simp only [hmem, forall_eq]
  suffices hsearch : active.Closes (⟨.get .addr scriptHash.serialize, r⟩ :: tr₂) ↔
      r.code = MDB_NOTFOUND ∨ r.code = EINVAL ∨ 36 ≤ r.data.length by rw [hsearch]
  obtain ⟨hnone, ⟨a, rfl⟩, -⟩ | ⟨hinval, ⟨a, rfl⟩, -⟩ |
    ⟨⟨hnone, hinval⟩, ⟨hlen, ⟨a, rfl⟩, -⟩ | ⟨hlt, rfl, -⟩⟩ := hbranch
  · exact iff_of_true ⟨closed, rfl, by decide⟩ (.inl hnone)
  · exact iff_of_true ⟨closed, rfl, by decide⟩ (.inr (.inl hinval))
  · exact iff_of_true ⟨closed, rfl, by decide⟩ (.inr (.inr hlen))
  · refine iff_of_false ?_ (by omega)
    simp [Closes, follow_cons, TxnState.step, follow_nil]

/-- **When write transactions are closed.** -/
theorem closes_iff (dbn : Dbi) (scriptHash : UInt256) (ntx : List TXO) (sha256 : Bytes → UInt256)
    (answer : Calls → Call → Reply) (retries rounds mode : ℕ) (blks : List Bytes) :
    Each (fun tr _ => Hands dbn tr ↔ ¬ Fails (.dbiOpen dbn false) tr) (startTXOTxn dbn) ∧
    Each (fun tr _ => unbegun.Closes tr ↔
      Fails .txnBegin tr ∨ ¬ OpensFull dbn tr ∧ ¬ Fails (.stat dbn) tr) (getTXOStats dbn) ∧
    Each (fun tr _ => unbegun.Closes tr ↔
      Fails .txnBegin tr ∨ ¬ OpensFull .addr tr ∧
        ∀ r : Reply, ⟨.get .addr scriptHash.serialize, r⟩ ∈ tr →
          r.code = MDB_NOTFOUND ∨ r.code = EINVAL ∨ 36 ≤ r.data.length)
      (getTXOs scriptHash ntx) ∧
    ∀ r, preloadFunc (recorded answer) sha256 retries rounds mode blks [] = some r →
      (unbegun.Closes (callsOf r) ↔ ∀ e ∈ callsOf r, Harmless e) :=
  ⟨startTXOTxn_hands_iff, getTXOStats_closes_iff, getTXOs_closes_iff,
    fun _ h => preloadFunc_closes_iff h⟩

/-- A worker none of whose calls fails meets harmless codes only. -/
theorem harmless_of_no_failure {sha256 : Bytes → UInt256} {retries rounds mode : ℕ}
    {blks : List Bytes} {r : Except (Stop × Calls) Calls}
    (h : preloadFunc (recorded fun _ _ => {}) sha256 retries rounds mode blks [] = some r) :
    ∀ e ∈ callsOf r, Harmless e := by
  have hcode (c : Call) : Harmless ⟨c, {}⟩ := by
    cases c with
    | put dbi => cases dbi <;> simp [Harmless]
    | _ => simp [Harmless]
  have hattempt (blk : CBlock) (tr : Calls) (htr : ∀ e ∈ tr, Harmless e) :
      ∀ e ∈ ((indexBlock sha256 mode blk).run (recorded fun _ _ => {}) tr).2, Harmless e := by
    refine run_invariant (I := fun tr : Calls => ∀ e ∈ tr, Harmless e) (fun c tr htr => ?_) _ htr
    exact List.forall_mem_append.mpr ⟨htr, List.forall_mem_singleton.mpr (hcode c)⟩
  have hends : Ends (fun tr => ∀ e ∈ tr, Harmless e) (fun p => ∀ e ∈ p.2, Harmless e) r := by
    exact preloadFunc_invariant (I := fun tr : Calls => ∀ e ∈ tr, Harmless e)
      (fun _ htr => htr) (fun blk tr htr => attempted_of (hattempt blk tr htr)) h (by simp)
  cases r <;> exact hends

/-- A lookup that finds nothing closes its transaction, and so does a worker over a file with one
block when no call fails. -/
theorem closes_notFound : unbegun.Closes notFound ∧
    ∃ rounds r, preloadFunc (recorded fun _ _ => {}) (fun _ => .zero) 1 rounds 0
      [twoOutputs.content] [] = some r ∧ unbegun.Closes (callsOf r) := by
  obtain ⟨n, hn⟩ := preloadFunc_eq (recorded fun _ _ => {}) (fun _ => .zero) 1 0 [twoOutputs] []
  have hiff := closes_iff .addr .zero [] (fun _ => .zero) (fun _ _ => {}) 1 n 0 [twoOutputs.content]
  have hrun := hn n (le_refl n)
  refine ⟨(hiff.2.2.1 _ _ trace_notFound).mpr (.inr ⟨?_, ?_⟩), n, _, hrun,
    (hiff.2.2.2 _ hrun).mpr (harmless_of_no_failure hrun)⟩
  · simp [OpensFull, notFound, MDB_MAP_FULL]
  · simp [notFound]

/-- `EACCES` of `mdb_dbi_open`. -/
def EACCES : ℤ := 13

/-- No table can be opened. -/
def forbidden (_ : Calls) : Call → Reply
  | .dbiOpen _ _ => { code := EACCES }
  | _ => {}

/-- A table that is not opened leaves the transaction open, in `StartTXOTxn` and in the worker, and
so do a query that fails and a value that is too short. -/
theorem not_closes :
    ¬ (∀ dbn, Each (fun tr _ => Hands dbn tr) (startTXOTxn dbn)) ∧
    ¬ (∀ dbn, Each (fun tr _ => unbegun.Closes tr) (getTXOStats dbn)) ∧
    ¬ (∀ scriptHash ntx, Each (fun tr _ => unbegun.Closes tr) (getTXOs scriptHash ntx)) ∧
    ¬ ∀ sha256 answer retries rounds mode blks r,
      preloadFunc (recorded answer) sha256 retries rounds mode blks [] = some r →
      unbegun.Closes (callsOf r) := by
  refine ⟨fun h => ?_, fun h => ?_, fun h => ?_, fun h => ?_⟩
  · have hstart : Trace (startTXOTxn .addr)
        [⟨.txnBegin, {}⟩, ⟨.dbiOpen .addr false, { code := EACCES }⟩] (.ok EACCES) :=
      .ask _ (.ask _ (.done _))
    obtain ⟨t, hfollow, ht⟩ | ⟨-, r, hr, hcode⟩ := h .addr _ _ hstart
    · exact ht (Option.some.inj hfollow.symm)
    · simp only [List.mem_cons, Sigma.mk.injEq, reduceCtorEq, false_and, heq_eq_eq, true_and,
        List.not_mem_nil, or_false, false_or] at hr
      rw [hr] at hcode
      exact absurd hcode (by decide)
  · have hstats : Trace (getTXOStats .addr) [⟨.txnBegin, {}⟩, ⟨.dbiOpen .addr false, {}⟩,
        ⟨.stat .addr, { code := EINVAL }⟩] (.ok EINVAL) := .ask _ (.ask _ (.ask _ (.done _)))
    obtain ⟨t, hfollow, ht⟩ := h .addr _ _ hstats
    exact ht (Option.some.inj hfollow.symm)
  · have hlookup : Trace (getTXOs .zero []) [⟨.txnBegin, {}⟩, ⟨.dbiOpen .addr false, {}⟩,
        ⟨.get .addr (UInt256.zero).serialize, {}⟩] (.error (.thrown .endOfData)) :=
      .ask _ (.ask _ (.ask _ (.fail _)))
    obtain ⟨t, hfollow, ht⟩ := h _ _ _ _ hlookup
    exact ht (Option.some.inj hfollow.symm)
  · obtain ⟨n, hn⟩ := preloadFunc_eq (recorded forbidden) Sha256.digest 1 0 [twoOutputs] []
    obtain ⟨t, hfollow, ht⟩ := h _ _ _ _ _ _ _ (hn n (le_refl n))
    exact ht (Option.some.inj hfollow.symm)

end ElectrumZ.Blockchain
