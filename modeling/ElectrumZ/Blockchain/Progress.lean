import ElectrumZ.Blockchain.Atomicity
import ElectrumZ.Foundations.Discipline
import Mathlib.Algebra.BigOperators.Group.Finset.Basic
import Mathlib.Algebra.Order.BigOperators.Group.List
import Mathlib.Tactic.Ring

/-!
# The preload comes to an end

A worker that waits, for the transaction or for the resize lock, waits for one that goes on. And a
preload that finds the map full only so often makes only so many steps.

* `Gauge`: what a worker holds, and how many calls of its attempt are left at most.
* `spends_afterBegin` and `obeys_indexBlock`: **an attempt keeps the discipline**.
* `Budget.spend`: a step uses up some of what is left, or finds the map full.
* `preload_ends`: **no deadlock, and no run for ever**.
-/

namespace ElectrumZ.Blockchain

open Foundations Bitcoin

/-! ## The discipline of an attempt -/

/-- What a worker holds that others wait for. -/
inductive Holding
  | nothing
  | txn
  | lock
  deriving DecidableEq, Repr

/-- What a worker holds, and how many calls are left at most. -/
structure Gauge where
  hold : Holding
  fuel : ℕ

/-- The calls in their places: those of an attempt within a transaction, those of `IncreaseMapSize`
under its lock and without one. -/
def Holding.allows : Holding → Call → Prop
  | .nothing, c => c = .txnBegin ∨ c = .lockResize ∨ c = .tally .block
  | .txn, c => c.inner = true ∨ c = .txnCommit ∨ c = .txnAbort
  | .lock, c => c = .envInfo ∨ (∃ size, c = .setMapsize size) ∨ c = .unlockResize

/-- What a call takes or gives back. -/
def Holding.next (h : Holding) : Call → Holding
  | .txnBegin => .txn
  | .lockResize => .lock
  | .txnCommit | .txnAbort | .unlockResize => .nothing
  | _ => h

/-- A call uses one up. A put that finds the map full makes the worker start over, with `limit`. -/
def attemptDiscipline (limit : ℕ) : Discipline Call (fun _ => Reply) Gauge where
  allows g c := 0 < g.fuel ∧ g.hold.allows c
  considers c r := (Passes ⟨c, r⟩ ∨ c.unplanned = false ∧ r.code = MDB_MAP_FULL) ∧
    (c = .txnBegin → r.code = 0)
  next g c r :=
    ⟨g.hold.next c, if c.unplanned = false ∧ r.code = MDB_MAP_FULL then limit else g.fuel - 1⟩

/-- How an attempt ends that needs `cost` calls at most: it holds nothing, and can start over if it
is about to. -/
def Ended (cost : ℕ) : Except Stop Unit → Gauge → Prop
  | .error .again, g => g.hold = .nothing ∧ cost ≤ g.fuel
  | _, g => g.hold = .nothing

/-- How a part of an attempt ends: within the transaction with `n` calls left, or for good. -/
def Passed (cost n : ℕ) {α : Type} : Except Stop α → Gauge → Prop
  | .ok _, g => g.hold = .txn ∧ n ≤ g.fuel
  | .error .again, g => g.hold = .nothing ∧ cost ≤ g.fuel
  | .error _, g => g.hold = .nothing

/-- The part makes at most `n` calls, unless it starts over. -/
def Spends (limit cost n : ℕ) {α : Type} (d : Prog α) : Prop :=
  ∀ m g, g.hold = .txn → n + m ≤ g.fuel → d.Obeys (attemptDiscipline limit) (Passed cost m) g

section Parts

variable {α β : Type} {limit cost m n : ℕ} {g : Gauge}

theorem spends_pure (a : α) : Spends limit cost 0 (pure a : Prog α) := by
  intro m g hg hm
  exact ⟨hg, by omega⟩

theorem Spends.mono {d : Prog α} (h : Spends limit cost n d) (hle : n ≤ m) :
    Spends limit cost m d :=
  fun m' g hg hm' => h m' g hg (by omega)

theorem Spends.bind {d : Prog α} {f : α → Prog β} (hd : Spends limit cost m d)
    (hf : ∀ a, Spends limit cost n (f a)) : Spends limit cost (m + n) (d >>= f) := by
  intro m' g hg hm'
  refine (hd (n + m') g hg (by omega)).bind (fun a g ⟨hg, hle⟩ => hf a m' g hg hle) ?_
  intro stop g h
  cases stop <;> exact h

theorem obeys_call {D : Discipline Call (fun _ => Reply) Gauge}
    {Post : Except Stop α → Gauge → Prop} {c : Call} {f : ℤ → Prog α} (hc : D.allows g c)
    (hf : ∀ r, D.considers c r → (f r.code).Obeys D Post (D.next g c r)) :
    (call c >>= f).Obeys D Post g :=
  ⟨hc, hf⟩

/-- A call that is no put uses up one call. -/
theorem next_planned {c : Call} (hput : c.unplanned = true) (limit : ℕ) (g : Gauge) (r : Reply) :
    (attemptDiscipline limit).next g c r = ⟨g.hold.next c, g.fuel - 1⟩ := by
  simp [attemptDiscipline, hput]

/-- A call within the transaction that is no put. -/
theorem spends_call {c : Call} {f : ℤ → Prog α} (hc : c.inner = true) (hput : c.unplanned = true)
    (hf : ∀ r, Passes ⟨c, r⟩ → Spends limit cost n (f r.code)) :
    Spends limit cost (1 + n) (call c >>= f) := by
  intro m g hg hm
  refine ⟨⟨by omega, by rw [hg]; exact .inl hc⟩, fun r hr => ?_⟩
  have hpasses : Passes ⟨c, r⟩ := by
    obtain ⟨hpasses | ⟨hc', -⟩, -⟩ := hr
    · exact hpasses
    · cases hput.symm.trans hc'
  refine hf r hpasses m _ ?_ ?_
  · change g.hold.next c = .txn
    cases c <;> first | exact hg | cases hc
  · change n + m ≤ if c.unplanned = false ∧ r.code = MDB_MAP_FULL then limit else g.fuel - 1
    rw [if_neg (by simp [hput])]
    omega

/-- A call of `IncreaseMapSize`, or before it. -/
theorem obeys_leaving {Post : Except Stop α → Gauge → Prop} {c : Call} {f : ℤ → Prog α}
    (hput : c.unplanned = true) (hfuel : 0 < g.fuel) (hc : g.hold.allows c)
    (hf : ∀ err, (f err).Obeys (attemptDiscipline limit) Post ⟨g.hold.next c, g.fuel - 1⟩) :
    (call c >>= f).Obeys (attemptDiscipline limit) Post g := by
  refine obeys_call ⟨hfuel, hc⟩ fun r _ => ?_
  rw [next_planned hput]
  exact hf r.code

/-- Under the lock the map is enlarged, or not. -/
theorem obeys_growMap {Post : Except Stop α → Gauge → Prop} {f : ℤ → Prog α} (hg : g.hold = .lock)
    (hfuel : n + 2 ≤ g.fuel)
    (hf : ∀ err g', g'.hold = .lock → n ≤ g'.fuel →
      (f err).Obeys (attemptDiscipline limit) Post g') :
    (growMap >>= f).Obeys (attemptDiscipline limit) Post g := by
  rw [growMap, Dialog.bind_assoc]
  refine Dialog.obeys_query_bind ⟨by omega, by rw [hg]; exact .inl rfl⟩ fun r _ => ?_
  rw [next_planned rfl]
  change ((if r.code ≠ 0 then pure r.code else _) >>= f).Obeys _ _ _
  split_ifs
  · exact hf r.code _ hg (by simp only; omega)
  · rw [Dialog.bind_assoc]
    refine obeys_leaving rfl (by simp only; omega) ?_ fun err => ?_
    · change g.hold.allows _
      rw [hg]
      exact .inr (.inl ⟨_, rfl⟩)
    · split_ifs
      · exact hf err _ hg (by simp only; omega)
      · exact hf TXO_RESIZED _ hg (by simp only; omega)

/-- The abort, `IncreaseMapSize`, and the way back to the start. -/
theorem obeys_tryBlockAgain (hfuel : 5 + cost ≤ g.fuel) (hg : g.hold = .txn) :
    tryBlockAgain.Obeys (attemptDiscipline limit) (Passed cost m) g := by
  refine obeys_leaving rfl (by omega) (by rw [hg]; exact .inr (.inr rfl)) fun _ => ?_
  rw [increaseMapSize, Dialog.bind_assoc]
  refine obeys_leaving rfl (by simp only; omega) (.inr (.inl rfl)) fun _ => ?_
  rw [Dialog.bind_assoc]
  refine obeys_growMap (n := 1 + cost) rfl (by simp only; omega) fun err g' hg' hfuel' => ?_
  rw [Dialog.bind_assoc]
  refine obeys_leaving rfl (by omega) (by rw [hg']; exact .inr (.inr rfl)) fun _ => ?_
  change Dialog.Obeys _ _ (if err ≠ TXO_RESIZED then (.fail (.err err) : Prog Unit)
    else .fail .again) _
  split_ifs
  · rfl
  · exact ⟨rfl, by simp only; omega⟩

/-- A put. -/
theorem spends_put {c : Call} {f : ℤ → Prog Unit} (hlimit : 5 + cost ≤ limit) (hc : c.inner = true)
    (hf : ∀ r, Passes ⟨c, r⟩ → Spends limit cost n (f r.code))
    (hfull : f MDB_MAP_FULL = tryBlockAgain) : Spends limit cost (1 + n) (call c >>= f) := by
  intro m g hg hm
  refine obeys_call ⟨by omega, by rw [hg]; exact .inl hc⟩ fun r hr => ?_
  have hhold : g.hold.next c = .txn := by cases c <;> first | exact hg | cases hc
  change (f r.code).Obeys _ _ (Gauge.mk (g.hold.next c)
    (if c.unplanned = false ∧ r.code = MDB_MAP_FULL then limit else g.fuel - 1))
  split_ifs with hput
  · rw [hput.2, hfull]
    exact obeys_tryBlockAgain hlimit hhold
  · refine hf r (hr.1.resolve_right hput) m _ hhold ?_
    change n + m ≤ g.fuel - 1
    omega

variable {sha256 : Bytes → UInt256}

/-- A put that starts over unless it returns zero. -/
theorem spends_store {c : Call} (hlimit : 5 + cost ≤ limit) (hc : c.inner = true)
    (hpasses : ∀ r : Reply, Passes ⟨c, r⟩ → r.code = 0) :
    Spends limit cost 1 (call c >>= fun err => if err ≠ 0 then putFailed err else pure ()) := by
  refine spends_put (n := 0) hlimit hc (fun r hr => ?_) ?_
  · rw [if_neg (not_not.mpr (hpasses r hr))]
    exact spends_pure ()
  · rw [if_pos (by decide), putFailed, if_pos rfl]

theorem spends_openTable (dbn : Dbi) (dupsort : Bool) :
    Spends limit cost 1 (openTable dbn dupsort) := by
  refine spends_call (n := 0) rfl rfl fun r hr => ?_
  have hcode : r.code = 0 := hr
  rw [if_neg (not_not.mpr hcode)]
  exact spends_pure ()

theorem spends_putHeader (hlimit : 5 + cost ≤ limit) (header : CBlockHeader) :
    Spends limit cost 1 (putHeader sha256 header) :=
  spends_store hlimit rfl fun _ hr => hr

theorem spends_indexOutput (hlimit : 5 + cost ≤ limit) (txHash : UInt256) (i : ℕ)
    (ntxo : CTxOut) : Spends limit cost 2 (indexOutput sha256 txHash i ntxo) := by
  refine spends_put (n := 1) hlimit rfl (fun r hr => ?_) ?_
  · obtain hcode | hcode : r.code = 0 ∨ r.code = MDB_KEYEXIST := hr
    · rw [if_neg (not_not.mpr hcode)]
      exact spends_store hlimit rfl fun _ hr => hr
    · rw [hcode, if_pos (by decide), if_neg (by decide), if_pos rfl]
      exact (spends_pure ()).mono (by omega)
  · rw [if_pos (by decide), if_pos rfl]

theorem spends_indexOutputs (hlimit : 5 + cost ≤ limit) (txHash : UInt256) (i : ℕ)
    (vout : List CTxOut) :
    Spends limit cost (2 * vout.length) (indexOutputs sha256 txHash i vout) := by
  induction vout generalizing i with
  | nil => exact spends_pure ()
  | cons o vout ih =>
    refine Spends.mono ((spends_indexOutput hlimit txHash i o).bind fun _ => ih (i + 1)) ?_
    rw [List.length_cons]
    omega

/-- The calls for a transaction, at most. -/
def txCost (tx : CTransaction) : ℕ := 3 + 2 * tx.vout.length

theorem spends_indexTx (hlimit : 5 + cost ≤ limit) (mode : ℕ) (tx : CTransaction) :
    Spends limit cost (txCost tx) (indexTx sha256 mode tx) := by
  have hbody : Spends limit cost (2 * tx.vout.length) (indexInOut sha256 mode tx) := by
    unfold indexInOut
    split_ifs
    · rw [spendInputs_eq]
      exact (spends_pure ()).mono (Nat.zero_le _)
    · exact spends_indexOutputs hlimit _ 0 _
  have hclose : Spends limit cost 2 (call .cursorClose >>= fun _ => call (.tally .tx) >>= fun _ =>
      (pure () : Prog Unit)) :=
    spends_call (n := 1) rfl rfl fun _ _ => spends_call (n := 0) rfl rfl fun _ _ => spends_pure ()
  refine Spends.mono (spends_call rfl rfl fun _ _ => hbody.bind fun _ => hclose) ?_
  rw [txCost]
  omega

theorem spends_indexTxs (hlimit : 5 + cost ≤ limit) (mode : ℕ) (vtx : List CTransaction) :
    Spends limit cost (vtx.map txCost).sum (indexTxs sha256 mode vtx) := by
  induction vtx with
  | nil => exact spends_pure ()
  | cons tx vtx ih =>
    rw [List.map_cons, List.sum_cons]
    exact (spends_indexTx hlimit mode tx).bind fun _ => ih

/-- The calls of an attempt, at most. -/
def blockCost (blk : CBlock) : ℕ := 8 + (blk.vtx.map txCost).sum

theorem spends_afterBegin (hlimit : 5 + cost ≤ limit) (mode : ℕ) (blk : CBlock) :
    Spends limit cost (5 + (blk.vtx.map txCost).sum) (afterBegin sha256 mode blk) := by
  have hdupsort : Spends limit cost (1 + (1 + (blk.vtx.map txCost).sum))
      (call (.setDupsort .txo txoCmp) >>= fun err => check err >>= fun _ =>
        putHeader sha256 blk.header >>= fun _ => indexTxs sha256 mode blk.vtx) := by
    refine spends_call rfl rfl fun r hr => ?_
    have hcode : r.code = 0 := hr
    rw [check, if_neg (not_not.mpr hcode)]
    exact (spends_putHeader hlimit _).bind fun _ => spends_indexTxs hlimit mode _
  refine Spends.mono ((spends_openTable .txo true).bind fun _ => (spends_openTable .addr true).bind
    fun _ => (spends_openTable .blk false).bind fun _ => hdupsort) ?_
  omega

/-- **An attempt keeps the discipline**: it makes the calls of a transaction only within one, those
of `IncreaseMapSize` only under its lock, gives back what it holds however it ends, and makes no
more than `blockCost` calls unless the map is full. -/
theorem obeys_indexBlock (mode : ℕ) (blk : CBlock) {g : Gauge}
    (hlimit : 5 + blockCost blk ≤ limit) (hg : g.hold = .nothing) (hfuel : blockCost blk ≤ g.fuel) :
    (indexBlock sha256 mode blk).Obeys (attemptDiscipline limit) (Ended (blockCost blk)) g := by
  have hbody : Spends limit (blockCost blk) (5 + (blk.vtx.map txCost).sum)
      (afterBegin sha256 mode blk) := spends_afterBegin hlimit mode blk
  unfold blockCost at hfuel
  rw [indexBlock_eq_afterBegin]
  refine obeys_call ⟨by omega, by rw [hg]; exact .inl rfl⟩ fun r hr => ?_
  rw [next_planned rfl, hr.2 rfl, check, if_neg (not_not.mpr rfl)]
  refine (hbody 2 _ rfl (by simp only; omega)).bind (fun _ g' hended => ?_) ?_
  · obtain ⟨hg', hfuel'⟩ := hended
    refine obeys_leaving rfl (by omega) (by rw [hg']; exact .inr (.inl rfl)) fun _ => ?_
    exact obeys_leaving rfl (by simp only; omega) (.inr (.inr rfl)) fun _ => rfl
  · intro stop g' h
    cases stop <;> exact h

end Parts

namespace Pool

variable {sha256 : Bytes → UInt256} {files : List Bytes} {s s' : Pool} {k limit : ℕ}
  {w w' : Position} {hold : ℕ → Holding} {charge : ℕ → ℕ}

/-! ## What is left to do -/

/-- The steps that the rest of a file takes, at most: a pass for every byte, and the calls for its
blocks. -/
def restCost (rest : Bytes) : ℕ := ((blocksOf rest).map blockCost).sum + rest.length

/-- The same with the pass that finds the end, the pass that leaves, and the next look at the list
of files. -/
def scanCost (bf : CBufferedFile) (rest : Bytes) : ℕ :=
  restCost rest + (if bf.eof then 0 else 1) + 2

theorem scanCost_le (bf : CBufferedFile) (rest : Bytes) : scanCost bf rest ≤ restCost rest + 3 := by
  unfold scanCost
  split_ifs <;> omega

theorem scanCost_of_more {bf : CBufferedFile} {rest : Bytes} (h : bf.eof = false) :
    scanCost bf rest = restCost rest + 3 := by
  simp [scanCost, h]

/-- The steps for files that have not been taken. -/
def filesCost (files : List Bytes) : ℕ := (files.map fun content => restCost content + 3).sum

/-- The blocks can be started over within the limit. -/
def Affordable (limit : ℕ) (blks : List CBlock) : Prop := ∀ b ∈ blks, 5 + blockCost b ≤ limit

/-- A worker holds this, and has so many steps to make at most before it takes another file. -/
inductive Charged (limit : ℕ) : Position → Holding → ℕ → Prop
  | idle : Charged limit .idle .nothing 1
  | reading {bf : CBufferedFile} {rest : Bytes} (hbefore : Before bf rest)
      (hlimit : Affordable limit (blocksOf rest)) :
      Charged limit (.reading bf) .nothing (scanCost bf rest)
  | indexing {bf : CBufferedFile} {rest : Bytes} {blk : CBlock} {c : Call}
      {p : Reply → Prog Unit} {g : Gauge} (hbefore : Before bf rest)
      (hlimit : Affordable limit (blk :: blocksOf rest))
      (hp : (Dialog.ask c p).Obeys (attemptDiscipline limit) (Ended (blockCost blk)) g) :
      Charged limit (.indexing bf blk (.ask c p)) g.hold (g.fuel + scanCost bf rest)
  | finished : Charged limit .finished .nothing 0
  | gaveUp {stop : Stop} : Charged limit (.gaveUp stop) .nothing 0

theorem Charged.of_idle {h : Holding} {m : ℕ} (hc : Charged limit .idle h m) :
    h = .nothing ∧ m = 1 := by
  cases hc
  exact ⟨rfl, rfl⟩

theorem Charged.of_reading {bf : CBufferedFile} {h : Holding} {m : ℕ}
    (hc : Charged limit (.reading bf) h m) : ∃ rest, Before bf rest ∧
      Affordable limit (blocksOf rest) ∧ h = .nothing ∧ m = scanCost bf rest := by
  cases hc with
  | reading hbefore hlimit => exact ⟨_, hbefore, hlimit, rfl, rfl⟩

theorem Charged.of_indexing {bf : CBufferedFile} {blk : CBlock} {p : Prog Unit} {h : Holding}
    {m : ℕ} (hc : Charged limit (.indexing bf blk p) h m) : ∃ rest c k g, Before bf rest ∧
      Affordable limit (blk :: blocksOf rest) ∧ p = .ask c k ∧
      p.Obeys (attemptDiscipline limit) (Ended (blockCost blk)) g ∧ h = g.hold ∧
      m = g.fuel + scanCost bf rest := by
  cases hc with
  | indexing hbefore hlimit hp => exact ⟨_, _, _, _, hbefore, hlimit, rfl, hp, rfl, rfl⟩

theorem Charged.of_ended {h : Holding} {m : ℕ} (hc : Charged limit w h m) (hw : w.ended = true) :
    h = .nothing := by
  cases hc with
  | finished | gaveUp => rfl
  | idle | reading | indexing => cases hw

theorem Charged.of_holds {h : Holding} {m : ℕ} (hc : Charged limit w h m) (hh : h ≠ .nothing) :
    ∃ bf blk p, w = .indexing bf blk p := by
  cases hc with
  | indexing => exact ⟨_, _, _, rfl⟩
  | idle | reading | finished | gaveUp => exact absurd rfl hh

/-- What every worker holds and has left to do; whoever the transaction or the lock belongs to holds
it. -/
structure Budget (limit : ℕ) (s : Pool) (hold : ℕ → Holding) (charge : ℕ → ℕ) : Prop where
  charged : ∀ k w, s.workers[k]? = some w → Charged limit w (hold k) (charge k)
  owner : ∀ k, s.owner = some k → k < s.workers.length ∧ hold k = .txn
  resizing : ∀ k, s.resizing = some k → k < s.workers.length ∧ hold k = .lock

/-- The steps that are left at most, for the workers, the files and the second phase. -/
def total (files : List Bytes) (s : Pool) (charge : ℕ → ℕ) : ℕ :=
  ∑ k ∈ Finset.range s.workers.length, charge k + filesCost (files.drop s.pos_txo) +
    (if s.mode = 0 then filesCost files + s.workers.length + 1 else 0) +
    if s.returned then 0 else 1

theorem sum_update {n : ℕ} (f : ℕ → ℕ) (hk : k < n) (m : ℕ) :
    ∑ i ∈ Finset.range n, Function.update f k m i + f k = ∑ i ∈ Finset.range n, f i + m := by
  have hmem := Finset.mem_range.mpr hk
  rw [← Finset.add_sum_erase _ _ hmem, ← Finset.add_sum_erase _ f hmem, Function.update_self]
  have hrest : ∑ i ∈ (Finset.range n).erase k, Function.update f k m i =
      ∑ i ∈ (Finset.range n).erase k, f i := by
    refine Finset.sum_congr rfl fun i hi => ?_
    rw [Function.update_of_ne (Finset.ne_of_mem_erase hi)]
  rw [hrest]
  ring

/-! ## A step of a worker -/

/-- A worker moves on. -/
theorem Budget.set {h' : Holding} {m' : ℕ} (h : Budget limit s hold charge)
    (hw : s.workers[k]? = some w) (hworkers : s'.workers = s.workers.set k w')
    (hw' : Charged limit w' h' m')
    (howner : ∀ j, s'.owner = some j → j = k ∧ h' = .txn ∨ j ≠ k ∧ s.owner = some j)
    (hlock : ∀ j, s'.resizing = some j → j = k ∧ h' = .lock ∨ j ≠ k ∧ s.resizing = some j) :
    Budget limit s' (Function.update hold k h') (Function.update charge k m') := by
  have hk : k < s.workers.length := (List.getElem?_eq_some_iff.mp hw).1
  have hlen : s'.workers.length = s.workers.length := by rw [hworkers, List.length_set]
  refine ⟨fun j wj hj => ?_, fun j hj => ?_, fun j hj => ?_⟩
  · rw [hworkers] at hj
    by_cases hjk : j = k
    · subst hjk
      rw [List.getElem?_set_self hk] at hj
      rw [Function.update_self, Function.update_self, ← Option.some.inj hj]
      exact hw'
    · rw [List.getElem?_set_ne (Ne.symm hjk)] at hj
      rw [Function.update_of_ne hjk, Function.update_of_ne hjk]
      exact h.charged j wj hj
  · rw [hlen]
    obtain ⟨rfl, hhold⟩ | ⟨hjk, hj⟩ := howner j hj
    · exact ⟨hk, by rw [Function.update_self, hhold]⟩
    · rw [Function.update_of_ne hjk]
      exact h.owner j hj
  · rw [hlen]
    obtain ⟨rfl, hhold⟩ | ⟨hjk, hj⟩ := hlock j hj
    · exact ⟨hk, by rw [Function.update_self, hhold]⟩
    · rw [Function.update_of_ne hjk]
      exact h.resizing j hj

/-- A worker that holds nothing moves on, and others hold what they held. -/
theorem Budget.move {m' : ℕ} (h : Budget limit s hold charge) (hw : s.workers[k]? = some w)
    (hnothing : hold k = .nothing) (hworkers : s'.workers = s.workers.set k w')
    (hw' : Charged limit w' .nothing m') (howner : s'.owner = s.owner)
    (hlock : s'.resizing = s.resizing) :
    Budget limit s' (Function.update hold k .nothing) (Function.update charge k m') := by
  refine h.set hw hworkers hw' (fun j hj => .inr ?_) (fun j hj => .inr ?_)
  · rw [howner] at hj
    refine ⟨?_, hj⟩
    rintro rfl
    cases hnothing.symm.trans (h.owner j hj).2
  · rw [hlock] at hj
    refine ⟨?_, hj⟩
    rintro rfl
    cases hnothing.symm.trans (h.resizing j hj).2

theorem move_workers (s : Pool) (k : ℕ) (w : Position) :
    (s.move k w).workers = s.workers.set k w := rfl

/-- What a step of one worker makes of the total. -/
theorem total_update (files : List Bytes) (charge : ℕ → ℕ) (m' : ℕ) (hw : s.workers[k]? = some w)
    (hworkers : s'.workers = s.workers.set k w') (hmode : s'.mode = s.mode)
    (hreturned : s'.returned = s.returned) :
    total files s' (Function.update charge k m') + charge k + filesCost (files.drop s.pos_txo) =
      total files s charge + m' + filesCost (files.drop s'.pos_txo) := by
  have hk : k < s.workers.length := (List.getElem?_eq_some_iff.mp hw).1
  have hsum := sum_update charge hk m'
  rw [total, total, hworkers, List.length_set, hmode, hreturned]
  omega

/-- The rest of an attempt is left as the worker's position. -/
theorem charged_settle {bf : CBufferedFile} {rest : Bytes} {blk : CBlock} {p : Prog Unit}
    {g : Gauge} (mode : ℕ) (hbefore : Before bf rest)
    (hlimit : Affordable limit (blk :: blocksOf rest))
    (hp : p.Obeys (attemptDiscipline limit) (Ended (blockCost blk)) g) :
    ∃ m ≤ g.fuel + scanCost bf rest,
      Charged limit (Position.settle sha256 mode bf blk p) g.hold m := by
  have hrest : Affordable limit (blocksOf rest) := fun b hb => hlimit b (List.mem_cons_of_mem _ hb)
  cases p with
  | done u =>
    have hg : g.hold = .nothing := hp
    rw [hg]
    exact ⟨_, by omega, .reading hbefore hrest⟩
  | ask c p => exact ⟨_, le_refl _, .indexing hbefore hlimit hp⟩
  | fail stop =>
    by_cases hagain : stop = .again
    · subst hagain
      obtain ⟨hg, hfuel⟩ : g.hold = .nothing ∧ blockCost blk ≤ g.fuel := hp
      have hobeys : (indexBlock sha256 mode blk).Obeys (attemptDiscipline limit)
          (Ended (blockCost blk)) g :=
        obeys_indexBlock mode blk (hlimit blk List.mem_cons_self) hg hfuel
      change ∃ m ≤ _, Charged limit (.indexing bf blk (indexBlock sha256 mode blk)) g.hold m
      rw [indexBlock_ask] at hobeys ⊢
      exact ⟨_, le_refl _, .indexing hbefore hlimit hobeys⟩
    · have hg : g.hold = .nothing := by
        cases stop with
        | again => exact absurd rfl hagain
        | _ => exact hp
      have hsettle : Position.settle sha256 mode bf blk (.fail stop) = .gaveUp stop := by
        cases stop with
        | again => exact absurd rfl hagain
        | _ => rfl
      rw [hsettle, hg]
      exact ⟨0, Nat.zero_le _, .gaveUp⟩

theorem restCost_pass {rest : Bytes} (hne : rest ≠ []) : match (scanPass rest).1 with
    | .leave => True
    | .again => restCost (scanPass rest).2 + 1 ≤ restCost rest
    | .block blk => restCost (scanPass rest).2 + blockCost blk + 1 ≤ restCost rest := by
  have hpass := length_scanPass rest
  have hpos := List.length_pos_of_ne_nil hne
  have hblocks := blocksOf_pass rest
  cases hscan : (scanPass rest).1 with
  | leave => trivial
  | again =>
    simp only [hscan] at hblocks ⊢
    rw [restCost, restCost, hblocks]
    omega
  | block blk =>
    simp only [hscan] at hblocks ⊢
    rw [restCost, restCost, hblocks, List.map_cons, List.sum_cons]
    omega

/-- The step of a worker that takes a file, or finds that there is none left. -/
theorem Budget.take (h : Budget limit s hold charge)
    (hfiles : ∀ content ∈ files, Affordable limit (blocksOf content))
    (hw : s.workers[k]? = some .idle) (hstep : step sha256 files (.take k) s = some s') :
    ∃ hold' charge', Budget limit s' hold' charge' ∧
      total files s' charge' + 1 ≤ total files s charge := by
  obtain ⟨hhold, hcharge⟩ := (h.charged k _ hw).of_idle
  simp only [step, hw] at hstep
  cases hfile : files[s.pos_txo]? with
  | none =>
    simp only [hfile] at hstep
    obtain rfl := Option.some.inj hstep
    refine ⟨_, _, h.move hw hhold rfl .finished rfl rfl, ?_⟩
    have htotal := total_update files charge 0 hw (move_workers s k .finished) rfl rfl
    change _ + filesCost (files.drop s.pos_txo) = _ + filesCost (files.drop s.pos_txo) at htotal
    omega
  | some content =>
    simp only [hfile] at hstep
    obtain rfl := Option.some.inj hstep
    obtain ⟨hpos, hcontent⟩ := List.getElem?_eq_some_iff.mp hfile
    have hbefore := openBlockFile_before content
    refine ⟨_, _, h.move hw hhold rfl (.reading hbefore (hfiles content ?_)) rfl rfl, ?_⟩
    · exact hcontent ▸ List.getElem_mem hpos
    have htotal := total_update files charge (scanCost (openBlockFile content) content) hw
      (move_workers (s.popped k) k (.reading (openBlockFile content))) rfl rfl
    have hdrop : filesCost (files.drop s.pos_txo) =
        restCost content + 3 + filesCost (files.drop (s.pos_txo + 1)) := by
      rw [List.drop_eq_getElem_cons hpos, hcontent, filesCost, filesCost, List.map_cons,
        List.sum_cons]
    have hscan := scanCost_le (openBlockFile content) content
    change _ + filesCost (files.drop s.pos_txo) =
      _ + filesCost (files.drop (s.pos_txo + 1)) at htotal
    omega

/-- The step of a worker that makes a pass over its file. -/
theorem Budget.pass {bf : CBufferedFile} (h : Budget limit s hold charge)
    (hw : s.workers[k]? = some (.reading bf)) (hstep : step sha256 files (.pass k) s = some s') :
    ∃ hold' charge', Budget limit s' hold' charge' ∧
      total files s' charge' + 1 ≤ total files s charge := by
  obtain ⟨rest, hbefore, hlimit, hhold, hcharge⟩ := (h.charged k _ hw).of_reading
  have hmoves {w' : Position} {m' : ℕ} (hw' : Charged limit w' .nothing m')
      (hm : m' + 1 ≤ scanCost bf rest) : ∃ hold' charge', Budget limit (s.move k w') hold' charge' ∧
        total files (s.move k w') charge' + 1 ≤ total files s charge := by
    refine ⟨_, _, h.move hw hhold rfl hw' rfl rfl, ?_⟩
    have htotal := total_update files charge m' hw (move_workers s k w') rfl rfl
    change _ + filesCost (files.drop s.pos_txo) = _ + filesCost (files.drop s.pos_txo) at htotal
    omega
  have hidle : 1 + 1 ≤ scanCost bf rest := by
    unfold scanCost
    omega
  simp only [step, hw] at hstep
  cases heof : bf.eof with
  | true =>
    have hleave : scanStep bf = (.leave, bf) := by rw [scanStep, if_pos heof]
    simp only [hleave] at hstep
    obtain rfl := Option.some.inj hstep
    exact hmoves .idle hidle
  | false =>
    obtain ⟨bf', hscan, hbefore', hshort⟩ := scanStep_pass hbefore heof
    have hblocks := blocksOf_pass rest
    simp only [hscan] at hstep
    by_cases hne : rest = []
    · -- nothing is left, and the pass finds the end
      subst hne
      have heof' : bf'.eof = true := hshort (by decide)
      obtain rfl := Option.some.inj hstep
      refine hmoves (.reading hbefore' hlimit) ?_
      have hnil : (scanPass []).2 = [] := rfl
      unfold scanCost
      rw [heof, heof', hnil]
      simp
    have hcost := restCost_pass hne
    cases hpass : (scanPass rest).1 with
    | leave =>
      simp only [hpass] at hstep
      obtain rfl := Option.some.inj hstep
      exact hmoves .idle hidle
    | again =>
      simp only [hpass] at hstep hcost hblocks
      obtain rfl := Option.some.inj hstep
      refine hmoves (.reading hbefore' (hblocks ▸ hlimit)) ?_
      have hend := scanCost_le bf' (scanPass rest).2
      rw [scanCost_of_more heof]
      omega
    | block blk =>
      simp only [hpass] at hstep hcost hblocks
      obtain rfl := Option.some.inj hstep
      rw [hblocks] at hlimit
      have hobeys : (indexBlock sha256 s.mode blk).Obeys (attemptDiscipline limit)
          (Ended (blockCost blk)) ⟨.nothing, blockCost blk⟩ :=
        obeys_indexBlock s.mode blk (hlimit blk List.mem_cons_self) rfl (le_refl _)
      have hscan' : blockCost blk + scanCost bf' (scanPass rest).2 + 1 ≤ scanCost bf rest := by
        have hend := scanCost_le bf' (scanPass rest).2
        rw [scanCost_of_more heof]
        omega
      rw [indexBlock_ask] at hobeys ⊢
      exact hmoves (.indexing hbefore' hlimit hobeys) hscan'

/-- Whom the transaction and the lock belong to after a call in its place. -/
theorem made_holds {g : Gauge} {c : Call} (blk : CBlock) (store : Store)
    (h : Budget limit s hold charge) (hhold : hold k = g.hold) (hallows : g.hold.allows c) :
    (∀ j, (s.made k blk c store).owner = some j →
      j = k ∧ g.hold.next c = .txn ∨ j ≠ k ∧ s.owner = some j) ∧
    ∀ j, (s.made k blk c store).resizing = some j →
      j = k ∧ g.hold.next c = .lock ∨ j ≠ k ∧ s.resizing = some j := by
  have howner (j : ℕ) (hj : s.owner = some j) (hjk : j = k) : g.hold = .txn :=
    hhold.symm.trans (hjk ▸ (h.owner j hj).2)
  have hlock (j : ℕ) (hj : s.resizing = some j) (hjk : j = k) : g.hold = .lock :=
    hhold.symm.trans (hjk ▸ (h.resizing j hj).2)
  constructor
  · intro j hj
    cases c with
    | txnBegin => exact .inl ⟨(Option.some.inj hj).symm, rfl⟩
    | txnCommit | txnAbort => cases hj
    | _ =>
      by_cases hjk : j = k
      · have hg := howner j hj hjk
        refine .inl ⟨hjk, ?_⟩
        rw [hg] at hallows ⊢
        simp [Holding.allows, Holding.next, Call.inner] at hallows ⊢
      · exact .inr ⟨hjk, hj⟩
  · intro j hj
    cases c with
    | lockResize => exact .inl ⟨(Option.some.inj hj).symm, rfl⟩
    | unlockResize => cases hj
    | _ =>
      by_cases hjk : j = k
      · have hg := hlock j hj hjk
        refine .inl ⟨hjk, ?_⟩
        rw [hg] at hallows ⊢
        simp [Holding.allows, Holding.next] at hallows ⊢
      · exact .inr ⟨hjk, hj⟩

/-- Only a begin is refused an answer, and otherwise it succeeds. -/
theorem answer_spec (full : Bool) (c : Call) (s : Store) :
    (∃ r store, answer full c s = (.ok r, store) ∧ (c = .txnBegin → r.code = 0)) ∨
      c = .txnBegin ∧ ∃ stop store, answer full c s = (.error stop, store) := by
  obtain hlmdb | ⟨hput, hfull⟩ := answer_cases full c s
  · rw [hlmdb]
    cases c with
    | txnBegin =>
      rw [lmdb]
      cases s.txn with
      | none => exact .inl ⟨_, _, rfl, fun _ => rfl⟩
      | some ts => exact .inr ⟨rfl, _, _, rfl⟩
    | setMapsize size =>
      rw [lmdb]
      split_ifs <;> exact .inl ⟨_, _, rfl, by simp⟩
    | dbiOpen | setDupsort | put | cursorPut | stat =>
      rw [lmdb, Store.inTxn]
      cases s.txn <;> exact .inl ⟨_, _, rfl, by simp⟩
    | _ => exact .inl ⟨_, _, rfl, by simp⟩
  · refine .inl ⟨_, _, hfull, ?_⟩
    rintro rfl
    cases hput

/-- The action is a call that is to find the map full. -/
def isFull : PoolAction → Bool
  | .call _ full => full
  | _ => false

theorem answer_false (c : Call) (s : Store) : answer false c s = lmdb c s := by
  cases c <;> rfl

/-- A call uses one up, or finds the map full as it is to. -/
theorem fuel_next {g : Gauge} {c : Call} {s store : Store} {full : Bool} {r : Reply}
    (hfuel : 0 < g.fuel) (hanswer : answer full c s = (.ok r, store)) (limit : ℕ) :
    ((attemptDiscipline limit).next g c r).fuel + 1 ≤ g.fuel + if full then limit else 0 := by
  change (if c.unplanned = false ∧ r.code = MDB_MAP_FULL then limit else g.fuel - 1) + 1 ≤ _
  cases full with
  | true =>
    rw [if_pos rfl]
    split_ifs <;> omega
  | false =>
    have hcode : ¬ (c.unplanned = false ∧ r.code = MDB_MAP_FULL) := by
      rintro ⟨hput, hr⟩
      have hinner : c.inner = true := by cases c <;> first | rfl | cases hput
      rw [answer_false] at hanswer
      exact lmdb_code hinner (by rw [hanswer]) hr
    rw [if_neg hcode]
    omega

/-- The step of a worker that makes a call. -/
theorem Budget.call {bf : CBufferedFile} {blk : CBlock} {p : Prog Unit} {full : Bool}
    (h : Budget limit s hold charge) (hw : s.workers[k]? = some (.indexing bf blk p))
    (hfine : Fine (.call k full) s) (hstep : step sha256 files (.call k full) s = some s') :
    ∃ hold' charge', Budget limit s' hold' charge' ∧
      total files s' charge' + 1 ≤ total files s charge + if full then limit else 0 := by
  obtain ⟨rest, c, p, g, hbefore, hlimit, rfl, ⟨⟨hfuel, hallows⟩, hp⟩, hhold, hcharge⟩ :=
    (h.charged k _ hw).of_indexing
  have hnext : s.nextCall k = some c := by rw [nextCall, hw]
  simp only [step, hw] at hstep
  split_ifs at hstep with hwaits
  replace hwaits := Bool.eq_false_iff.mpr hwaits
  obtain ⟨r, store, hanswer, hbegin⟩ | ⟨rfl, stop, store, hanswer⟩ := answer_spec full c s.store
  · simp only [hanswer] at hstep
    obtain rfl := Option.some.inj hstep
    obtain ⟨hworkers, hpos, -, hreturned⟩ := made_spec s k blk c store
    have hobeys := hp r ⟨hfine c r hnext (by rw [hanswer]), hbegin⟩
    obtain ⟨m, hm, hsettle⟩ : ∃ m ≤ _, Charged limit
        (Position.settle sha256 s.mode bf blk (p r)) (g.hold.next c) m :=
      charged_settle s.mode hbefore hlimit hobeys
    obtain ⟨howner, hlock⟩ := made_holds blk store h hhold hallows
    have hmoved : ((s.made k blk c store).move k (.settle sha256 s.mode bf blk (p r))).workers =
        s.workers.set k (.settle sha256 s.mode bf blk (p r)) := by rw [move_workers, hworkers]
    refine ⟨_, _, h.set hw hmoved hsettle howner hlock, ?_⟩
    have htotal := total_update files charge m hw hmoved (made_mode s k blk c store) hreturned
    change _ = _ + filesCost (files.drop (s.made k blk c store).pos_txo) at htotal
    rw [hpos] at htotal
    have hleft := fuel_next hfuel hanswer limit
    omega
  · have hg : g.hold = .nothing := by
      cases hg : g.hold with
      | nothing => rfl
      | txn | lock => simp [hg, Holding.allows, Call.inner] at hallows
    simp only [hanswer] at hstep
    obtain rfl := Option.some.inj hstep
    refine ⟨_, _, h.move hw (hhold.trans hg) rfl .gaveUp rfl rfl, ?_⟩
    have htotal := total_update files charge 0 hw (move_workers s k (.gaveUp stop)) rfl rfl
    change _ + filesCost (files.drop s.pos_txo) = _ + filesCost (files.drop s.pos_txo) at htotal
    change total files (s.move k (.gaveUp stop)) _ + 1 ≤ _
    omega

/-- **A step** uses up some of what is left, or finds the map full. -/
theorem Budget.spend {a : PoolAction} (h : Budget limit s hold charge)
    (hfiles : ∀ content ∈ files, Affordable limit (blocksOf content)) (hfine : Fine a s)
    (hreturned : s.returned = false) (hstep : step sha256 files a s = some s') :
    ∃ hold' charge', Budget limit s' hold' charge' ∧
      total files s' charge' + 1 ≤ total files s charge + if isFull a then limit else 0 := by
  cases a with
  | take k =>
    obtain ⟨w, hw, rfl⟩ : ∃ w, s.workers[k]? = some w ∧ w = .idle := by
      rw [step] at hstep
      split at hstep
      · exact ⟨_, ‹_›, rfl⟩
      · cases hstep
    exact h.take hfiles hw hstep
  | pass k =>
    obtain ⟨bf, hw⟩ : ∃ bf, s.workers[k]? = some (.reading bf) := by
      rw [step] at hstep
      split at hstep
      · exact ⟨_, ‹_›⟩
      · cases hstep
    exact h.pass hw hstep
  | call k full =>
    obtain ⟨bf, blk, p, hw⟩ : ∃ bf blk p, s.workers[k]? = some (.indexing bf blk p) := by
      rw [step] at hstep
      split at hstep
      · exact ⟨_, _, _, ‹_›⟩
      · cases hstep
    exact h.call hw hfine hstep
  | join =>
    simp only [step] at hstep
    split_ifs at hstep with hall hmode
    · obtain rfl := Option.some.inj hstep
      have hended (k : ℕ) (w : Position) (hw : s.workers[k]? = some w) : hold k = .nothing :=
        (h.charged k w hw).of_ended (List.all_eq_true.mp hall w (List.mem_of_getElem? hw))
      refine ⟨fun _ => .nothing, fun _ => 1, ⟨fun k w hw => ?_, fun k hk => ?_, fun k hk => ?_⟩, ?_⟩
      · rw [List.getElem?_map] at hw
        obtain ⟨_, -, rfl⟩ := Option.map_eq_some_iff.mp hw
        exact .idle
      · obtain ⟨hlt, hhold⟩ := h.owner k hk
        cases hhold.symm.trans (hended k _ (List.getElem?_eq_getElem hlt))
      · obtain ⟨hlt, hhold⟩ := h.resizing k hk
        cases hhold.symm.trans (hended k _ (List.getElem?_eq_getElem hlt))
      · simp only [total, hmode, hreturned, List.length_map, List.drop_zero, one_ne_zero,
          if_true, if_false, ← Finset.card_eq_sum_ones, Finset.card_range]
        omega
    · obtain rfl := Option.some.inj hstep
      refine ⟨hold, charge, ⟨h.charged, h.owner, h.resizing⟩, ?_⟩
      simp [total, hreturned]

/-! ## No deadlock -/

/-- **A worker that waits waits for one that goes on.** -/
theorem Budget.enabled (sha256 : Bytes → UInt256) (files : List Bytes)
    (h : Budget limit s hold charge) : ∃ a s', step sha256 files a s = some s' := by
  have hcalls {k : ℕ} {bf : CBufferedFile} {blk : CBlock} {c : Call} {p : Reply → Prog Unit}
      (hw : s.workers[k]? = some (.indexing bf blk (.ask c p))) (hwaits : s.waits c = false) :
      ∃ a s', step sha256 files a s = some s' := by
    refine ⟨.call k true, ?_⟩
    simp only [step, hw, hwaits]
    rcases answer true c s.store with ⟨stop | r, store⟩ <;> exact ⟨_, rfl⟩
  by_cases hended : s.workers.all Position.ended = true
  · refine ⟨.join, ?_⟩
    simp only [step, if_pos hended]
    split_ifs <;> exact ⟨_, rfl⟩
  obtain ⟨w, hmem, hw'⟩ : ∃ w ∈ s.workers, w.ended = false := by
    simpa using hended
  obtain ⟨k, hw⟩ := List.getElem?_of_mem hmem
  cases w with
  | finished | gaveUp => cases hw'
  | idle =>
    refine ⟨.take k, ?_⟩
    simp only [step, hw]
    cases files[s.pos_txo]? <;> exact ⟨_, rfl⟩
  | reading bf =>
    refine ⟨.pass k, ?_⟩
    simp only [step, hw]
    rcases scanStep bf with ⟨scan, bf'⟩
    cases scan <;> exact ⟨_, rfl⟩
  | indexing bf blk p =>
    obtain ⟨rest, c, p, g, -, -, rfl, -⟩ := (h.charged k _ hw).of_indexing
    cases hwaits : s.waits c with
    | false => exact hcalls hw hwaits
    | true =>
      -- whom it waits for is at a call that does not wait
      have hholder {j : ℕ} (hj : j < s.workers.length) (hhold : hold j ≠ .nothing) :
          ∃ a s', step sha256 files a s = some s' := by
        have hwj := List.getElem?_eq_getElem hj
        obtain ⟨bf', blk', p', hindexing⟩ := (h.charged j _ hwj).of_holds hhold
        rw [hindexing] at hwj
        obtain ⟨-, c', p', g', -, -, rfl, ⟨⟨-, hallows⟩, -⟩, hg', -⟩ :=
          (h.charged j _ hwj).of_indexing
        refine hcalls hwj ?_
        rw [hg'] at hhold
        cases hg : g'.hold with
        | nothing => exact absurd hg hhold
        | txn | lock =>
          rw [hg] at hallows
          cases c' <;> first | rfl | simp [Holding.allows, Call.inner] at hallows
      cases c with
      | txnBegin =>
        obtain ⟨j, hj⟩ := Option.isSome_iff_exists.mp hwaits
        obtain ⟨hlt, hhold⟩ := h.owner j hj
        exact hholder hlt (by simp [hhold])
      | lockResize =>
        obtain ⟨j, hj⟩ := Option.isSome_iff_exists.mp hwaits
        obtain ⟨hlt, hhold⟩ := h.resizing j hj
        exact hholder hlt (by simp [hhold])
      | _ => cases hwaits

/-! ## Every run -/

/-- So many calls may be left to a worker that has found the map full. -/
def retryLimit (files : List Bytes) : ℕ := 5 + ((files.flatMap blocksOf).map blockCost).sum

/-- The steps of a preload that never finds the map full, at most. -/
def preloadCost (files : List Bytes) (n : ℕ) : ℕ := 2 * filesCost files + 2 * n + 2

theorem affordable_files {content : Bytes} (hcontent : content ∈ files) :
    Affordable (retryLimit files) (blocksOf content) := by
  intro b hb
  have hmem : blockCost b ∈ (files.flatMap blocksOf).map blockCost :=
    List.mem_map_of_mem (List.mem_flatMap.mpr ⟨content, hcontent, hb⟩)
  have hle := List.le_sum_of_mem hmem
  unfold retryLimit
  omega

theorem start_budget (limit n : ℕ) (tables : Tables) (mapsize : ℕ) :
    Budget limit (start n tables mapsize) (fun _ => .nothing) fun _ => 1 := by
  refine ⟨fun k w hw => ?_, fun k hk => ?_, fun k hk => ?_⟩
  · rw [List.eq_of_mem_replicate (List.mem_of_getElem? hw)]
    exact .idle
  · cases hk
  · cases hk

theorem total_start (files : List Bytes) (n : ℕ) (tables : Tables) (mapsize : ℕ) :
    total files (start n tables mapsize) (fun _ => 1) = preloadCost files n := by
  have hlen : (start n tables mapsize).workers.length = n := List.length_replicate
  have hsum : ∑ _k ∈ Finset.range n, 1 = n := by
    rw [← Finset.card_eq_sum_ones, Finset.card_range]
  rw [total, hlen, hsum, preloadCost]
  change n + filesCost files + (filesCost files + n + 1) + 1 = _
  omega

/-- `PreLoadBlocks` stays returned. -/
theorem returned_step {a : PoolAction} (h : s.returned = true)
    (hstep : step sha256 files a s = some s') : s'.returned = true := by
  cases a with
  | take k =>
    simp only [step] at hstep
    split at hstep
    · split at hstep <;> (obtain rfl := Option.some.inj hstep; exact h)
    · cases hstep
  | pass k =>
    simp only [step] at hstep
    split at hstep
    · split at hstep <;> (obtain rfl := Option.some.inj hstep; exact h)
    · cases hstep
  | call k full =>
    simp only [step] at hstep
    split at hstep
    · split_ifs at hstep
      split at hstep
      · obtain rfl := Option.some.inj hstep
        exact (made_spec s k _ _ _).2.2.2.trans h
      · obtain rfl := Option.some.inj hstep
        exact h
    · cases hstep
  | join =>
    simp only [step] at hstep
    split_ifs at hstep
    · obtain rfl := Option.some.inj hstep
      exact h
    · obtain rfl := Option.some.inj hstep
      rfl

theorem budget_run {as : List PoolAction} (h : Budget limit s hold charge)
    (hfiles : ∀ content ∈ files, Affordable limit (blocksOf content))
    (hruns : Runs (step sha256 files) s as s') (hfine : Throughout (step sha256 files) Fine s as)
    (hreturned : s'.returned = false) : ∃ hold' charge', Budget limit s' hold' charge' ∧
      total files s' charge' + as.length ≤ total files s charge + as.countP isFull * limit := by
  induction as generalizing s hold charge with
  | nil =>
    obtain rfl : s = s' := hruns
    exact ⟨hold, charge, h, by simp⟩
  | cons a as ih =>
    obtain ⟨t, hstep, hruns⟩ := hruns
    have hs : s.returned = false := by
      by_contra hs
      have ht := returned_step (Bool.not_eq_false _ ▸ hs) hstep
      have hlast := runs_invariant (I := fun s => s.returned = true)
        (fun _ _ _ h hstep => returned_step h hstep) hruns ht
      cases hreturned.symm.trans hlast
    obtain ⟨hold₁, charge₁, h₁, hle₁⟩ := h.spend hfiles (hfine t hstep).1 hs hstep
    obtain ⟨hold', charge', h', hle'⟩ := ih h₁ hruns (hfine t hstep).2
    refine ⟨hold', charge', h', ?_⟩
    have hcount : (a :: as).countP isFull * limit =
        as.countP isFull * limit + if isFull a then limit else 0 := by
      rw [List.countP_cons, Nat.add_mul]
      split_ifs <;> simp
    rw [hcount, List.length_cons]
    omega

/-- **The preload comes to an end.** In a run in which LMDB reports nothing but a full map, and
`PreLoadBlocks` has not returned, some worker can go on or be joined. The run has at most
`preloadCost` steps, and `retryLimit` more for every time the map is full. -/
theorem preload_ends {n : ℕ} {tables : Tables} {mapsize : ℕ} {as : List PoolAction}
    (hruns : Runs (step sha256 files) (start n tables mapsize) as s)
    (hfine : Throughout (step sha256 files) Fine (start n tables mapsize) as)
    (hreturned : s.returned = false) :
    (∃ a s', step sha256 files a s = some s') ∧
      as.length < preloadCost files n + as.countP isFull * retryLimit files := by
  obtain ⟨hold, charge, h, hle⟩ := budget_run (start_budget (retryLimit files) n tables mapsize)
    (fun _ => affordable_files) hruns hfine hreturned
  refine ⟨h.enabled sha256 files, ?_⟩
  rw [total_start] at hle
  have hpos : 0 < total files s charge := by
    rw [total, hreturned]
    simp
  omega

/-- Two workers that have got to the second phase, and found the map full once. -/
theorem preload_ends_resizeFirst : ∃ s,
    Runs (step (fun _ => .zero) [twoOutputs.content, twoOutputs.content])
      (start 2 .none Store.DEFAULT_MAPSIZE) resizeFirst s ∧ s.returned = false ∧
    (∃ a s', step (fun _ => .zero) [twoOutputs.content, twoOutputs.content] a s = some s') ∧
      resizeFirst.length < preloadCost [twoOutputs.content, twoOutputs.content] 2 +
        resizeFirst.countP isFull * retryLimit [twoOutputs.content, twoOutputs.content] := by
  have hrun : (resizeFirst.foldlM (fun s a => step (fun _ => .zero)
      [twoOutputs.content, twoOutputs.content] a s)
      (start 2 .none Store.DEFAULT_MAPSIZE)).any (fun s => !s.returned) = true := by
    decide +kernel
  obtain ⟨s, hs, hreturned⟩ := (Option.any_eq_true _ _).mp hrun
  have hruns := runs_iff_foldlM.mpr hs
  have hnot : s.returned = false := by simpa using hreturned
  exact ⟨s, hruns, hnot, preload_ends hruns (by decide +kernel) hnot⟩

end Pool

end ElectrumZ.Blockchain
