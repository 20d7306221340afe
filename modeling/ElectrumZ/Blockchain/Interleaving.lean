import ElectrumZ.Blockchain.Workers

/-!
# Any order of the workers

What holds in every order of the workers' steps, as long as no resize meets a transaction.

* `inner_afterBegin`: an attempt between its begin and its commit, and `retrying_increaseMapSize`:
  what follows when it is aborted.
* `Stage.advanced`: what a call makes of an attempt, and what it leaves to the other workers.
* `Moves`: what a step of a worker does, as `moves_take`, `moves_pass` and `moves_call` prove it.
-/

namespace ElectrumZ.Blockchain

open Foundations Bitcoin

/-! ## Parts of an attempt -/

section Parts

variable {α β : Type}

/-- The program enlarges the map and starts the block over, if its calls succeed. -/
def Retrying : Prog α → Prop
  | .done _ => False
  | .fail stop => stop = .again
  | .ask c k => c.resizing = true ∧ ∀ r, r.code = 0 → Retrying (k r)

/-- The program aborts the transaction first. -/
def Aborting : Prog α → Prop
  | .ask .txnAbort k => ∀ r, Retrying (k r)
  | _ => False

/-- The program works within the transaction, and aborts it when a put finds the map full. -/
def Inner : Prog α → Prop
  | .done _ => True
  | .fail _ => False
  | .ask c k => c.inner = true ∧ ∀ r, (Passes ⟨c, r⟩ → Inner (k r)) ∧
      (c.unplanned = false → r.code = MDB_MAP_FULL → Aborting (k r))

theorem Retrying.bind {d : Prog α} (hd : Retrying d) (f : α → Prog β) : Retrying (d >>= f) := by
  change Retrying (d.bind f)
  induction d with
  | done a => exact hd.elim
  | fail stop => exact hd
  | ask c k ih => exact ⟨hd.1, fun r hr => ih r (hd.2 r hr)⟩

theorem Aborting.bind {d : Prog α} (hd : Aborting d) (f : α → Prog β) : Aborting (d >>= f) := by
  cases d with
  | done a => exact hd.elim
  | fail stop => exact hd.elim
  | ask c k =>
    cases c with
    | txnAbort => exact fun r => (hd r).bind f
    | _ => exact hd.elim

theorem Inner.bind {d : Prog α} {f : α → Prog β} (hd : Inner d) (hf : ∀ a, Inner (f a)) :
    Inner (d >>= f) := by
  change Inner (d.bind f)
  induction d with
  | done a => exact hf a
  | fail stop => exact hd.elim
  | ask c k ih =>
    refine ⟨hd.1, fun r => ⟨fun hr => ih r ((hd.2 r).1 hr), fun hc hr => ?_⟩⟩
    exact ((hd.2 r).2 hc hr).bind f

theorem inner_pure (a : α) : Inner (pure a : Prog α) := trivial

/-- A call that is no put. -/
theorem inner_call {c : Call} {f : ℤ → Prog α} (hc : c.inner = true) (hput : c.unplanned = true)
    (hf : ∀ r, Passes ⟨c, r⟩ → Inner (f r.code)) : Inner (call c >>= f) :=
  ⟨hc, fun r => ⟨hf r, fun h => nomatch hput.symm.trans h⟩⟩

/-- A put. -/
theorem inner_put {c : Call} {f : ℤ → Prog α} (hc : c.inner = true)
    (hf : ∀ r, Passes ⟨c, r⟩ → Inner (f r.code)) (hfull : Aborting (f MDB_MAP_FULL)) :
    Inner (call c >>= f) := by
  refine ⟨hc, fun r => ⟨hf r, fun _ hr => ?_⟩⟩
  change Aborting (f r.code)
  exact hr.symm ▸ hfull

theorem retrying_call {c : Call} {f : ℤ → Prog α} (hc : c.resizing = true)
    (hf : Retrying (f 0)) : Retrying (call c >>= f) := by
  refine ⟨hc, fun r hr => ?_⟩
  change Retrying (f r.code)
  exact hr.symm ▸ hf

/-- The map is enlarged if the calls succeed. -/
theorem retrying_growMap {f : ℤ → Prog α} (hf : Retrying (f TXO_RESIZED)) :
    Retrying (growMap >>= f) := by
  rw [growMap, Dialog.bind_assoc]
  refine ⟨rfl, fun r hr => ?_⟩
  have hbody : Retrying (call (.setMapsize (r.mapsize - r.mapsize % MAPSIZE_BASE_UNIT +
      MAPSIZE_BASE_UNIT)) >>= fun err => (if err ≠ 0 then pure err else pure TXO_RESIZED) >>= f) :=
    retrying_call rfl hf
  rw [← Dialog.bind_assoc] at hbody
  change Retrying ((if r.code ≠ 0 then pure r.code else _) >>= f)
  rw [if_neg (not_not.mpr hr)]
  exact hbody

/-- `IncreaseMapSize` and what the worker does after it. -/
theorem retrying_increaseMapSize : Retrying (increaseMapSize >>= fun err =>
    if err ≠ TXO_RESIZED then .fail (.err err) else .fail .again : Prog Unit) := by
  rw [increaseMapSize, Dialog.bind_assoc]
  refine retrying_call rfl ?_
  rw [Dialog.bind_assoc]
  refine retrying_growMap ?_
  rw [Dialog.bind_assoc]
  refine retrying_call rfl ?_
  change Retrying (if TXO_RESIZED ≠ TXO_RESIZED then (.fail (.err TXO_RESIZED) : Prog Unit)
    else .fail .again)
  rw [if_neg (not_not.mpr rfl)]
  rfl

theorem aborting_tryBlockAgain : Aborting tryBlockAgain := fun _ => retrying_increaseMapSize

theorem aborting_putFailed : Aborting (putFailed MDB_MAP_FULL) := by
  rw [putFailed, if_pos rfl]
  exact aborting_tryBlockAgain

variable {sha256 : Bytes → UInt256}

/-- A put that starts over or gives up unless it returns zero. -/
theorem inner_store {c : Call} (hc : c.inner = true) (hpasses : ∀ r : Reply,
    Passes ⟨c, r⟩ → r.code = 0) :
    Inner (call c >>= fun err => if err ≠ 0 then putFailed err else pure ()) := by
  refine inner_put hc (fun r hr => ?_) ?_
  · rw [if_neg (not_not.mpr (hpasses r hr))]
    exact inner_pure ()
  · rw [if_pos (by decide)]
    exact aborting_putFailed

theorem inner_openTable (dbn : Dbi) (dupsort : Bool) : Inner (openTable dbn dupsort) := by
  refine inner_call rfl rfl fun r hr => ?_
  have hcode : r.code = 0 := hr
  rw [if_neg (not_not.mpr hcode)]
  exact inner_pure ()

theorem inner_putHeader (header : CBlockHeader) : Inner (putHeader sha256 header) :=
  inner_store rfl fun _ hr => hr

theorem inner_indexOutput (txHash : UInt256) (i : ℕ) (ntxo : CTxOut) :
    Inner (indexOutput sha256 txHash i ntxo) := by
  refine inner_put rfl (fun r hr => ?_) ?_
  · obtain hcode | hcode : r.code = 0 ∨ r.code = MDB_KEYEXIST := hr
    · rw [if_neg (not_not.mpr hcode)]
      exact inner_store rfl fun _ hr => hr
    · rw [hcode, if_pos (by decide), if_neg (by decide), if_pos rfl]
      exact inner_pure ()
  · rw [if_pos (by decide), if_pos rfl]
    exact aborting_tryBlockAgain

theorem inner_indexOutputs (txHash : UInt256) (i : ℕ) (vout : List CTxOut) :
    Inner (indexOutputs sha256 txHash i vout) := by
  induction vout generalizing i with
  | nil => exact inner_pure ()
  | cons o vout ih => exact (inner_indexOutput txHash i o).bind fun _ => ih (i + 1)

theorem inner_indexTx (mode : ℕ) (tx : CTransaction) : Inner (indexTx sha256 mode tx) := by
  have hbody : Inner (indexInOut sha256 mode tx) := by
    rw [indexInOut]
    split_ifs
    · rw [spendInputs_eq]
      exact inner_pure ()
    · exact inner_indexOutputs _ 0 _
  refine inner_call rfl rfl fun _ _ => hbody.bind fun _ => ?_
  exact inner_call rfl rfl fun _ _ => inner_call rfl rfl fun _ _ => inner_pure ()

theorem inner_indexTxs (mode : ℕ) (vtx : List CTransaction) :
    Inner (indexTxs sha256 mode vtx) := by
  induction vtx with
  | nil => exact inner_pure ()
  | cons tx vtx ih => exact (inner_indexTx mode tx).bind fun _ => ih

/-- **An attempt between its begin and its commit.** -/
theorem inner_afterBegin (sha256 : Bytes → UInt256) (mode : ℕ) (blk : CBlock) :
    Inner (afterBegin sha256 mode blk) := by
  refine (inner_openTable .txo true).bind fun _ => (inner_openTable .addr true).bind fun _ => ?_
  refine (inner_openTable .blk false).bind fun _ => inner_call rfl rfl fun r hr => ?_
  have hcode : r.code = 0 := hr
  rw [check, if_neg (not_not.mpr hcode)]
  exact (inner_putHeader blk.header).bind fun _ => inner_indexTxs mode blk.vtx

end Parts

/-- A put that finds the map full does not pass. -/
theorem not_passes_full {c : Call} {r : Reply} (hc : c.unplanned = false)
    (hr : r.code = MDB_MAP_FULL) : ¬ Passes ⟨c, r⟩ := by
  cases c with
  | put dbi key val => cases dbi <;> simp [Passes, hr, MDB_MAP_FULL, MDB_KEYEXIST]
  | cursorPut dbi key val => simp [Passes, hr, MDB_MAP_FULL]
  | _ => cases hc

/-- A call is made as by `lmdb`, unless it is a put that finds the map full. -/
theorem answer_cases (full : Bool) (c : Call) (s : Store) :
    answer full c s = lmdb c s ∨
      c.unplanned = false ∧ answer full c s = (.ok { code := MDB_MAP_FULL }, s) := by
  cases c with
  | put | cursorPut =>
    cases full with
    | true => exact .inr ⟨rfl, rfl⟩
    | false => exact .inl rfl
  | _ => exact .inl rfl

/-! ## Where a worker stands -/

/-- The commit has been made, and is counted. -/
def counting : Prog Unit := call (.tally .block) >>= fun _ => pure ()

/-- The blocks of its file that a worker has still to index. -/
def left (bf : CBufferedFile) : List CBlock := blocksOf (bf.src.content.drop bf.getPos)

/-- The blocks that a worker has still to commit. -/
def Position.owes : Position → List CBlock
  | reading bf => left bf
  | indexing bf _ (.ask (.tally .block) _) => left bf
  | indexing bf blk _ => blk :: left bf
  | _ => []

namespace Pool

variable (sha256 : Bytes → UInt256)

/-- Where the attempt of the worker `k` at a block stands, up to its commit. -/
inductive Stage (s : Pool) (k : ℕ) (blk : CBlock) : Prog Unit → Prop
  | before (howner : s.owner ≠ some k) : Stage s k blk (indexBlock sha256 s.mode blk)
  /-- What is left does what the whole attempt does on the tables that are committed. -/
  | inside {d : Prog Unit} {t t₀ : Store} (howner : s.owner = some k) (hd : Inner d)
      (halike : Alike t s.store) (htables : t₀.tables = s.store.tables) (htxn : t₀.txn = none)
      (hrun : (d >>= fun _ => commitBlock).run lmdb t =
        (indexBlock sha256 s.mode blk).run lmdb t₀) :
      Stage s k blk (d >>= fun _ => commitBlock)
  | aborting {p : Prog Unit} (howner : s.owner = some k) (hp : Aborting p) : Stage s k blk p
  | retrying {p : Prog Unit} (howner : s.owner ≠ some k) (hp : Retrying p) : Stage s k blk p

/-- Where the worker `k` stands. -/
def Stands (s : Pool) (k : ℕ) : Position → Prop
  | .idle | .finished => s.owner ≠ some k
  | .reading bf => (∃ rest, Before bf rest) ∧ s.owner ≠ some k
  | .indexing bf blk p => (∃ rest, Before bf rest) ∧
      (Stage sha256 s k blk p ∨ p = counting ∧ s.owner ≠ some k)
  | .gaveUp _ => False

/-- The step of another worker leaves what the worker `j` relies on. -/
structure Untouched (j : ℕ) (s s' : Pool) : Prop where
  mode : s'.mode = s.mode
  owner : s'.owner = some j ↔ s.owner = some j
  store : s.owner = some j → Alike s.store s'.store

variable {sha256} {s s' : Pool} {j k : ℕ} {bf : CBufferedFile} {blk : CBlock} {p : Prog Unit}
  {w : Position}

theorem Stage.untouched (h : Stage sha256 s j blk p) (hs : Untouched j s s') :
    Stage sha256 s' j blk p := by
  cases h with
  | before howner =>
    rw [← hs.mode]
    exact .before fun h => howner (hs.owner.mp h)
  | @inside d t t₀ howner hd halike htables htxn hrun =>
    obtain ⟨htables', htxn'⟩ := hs.store howner
    rw [← hs.mode] at hrun
    exact .inside (hs.owner.mpr howner) hd ⟨halike.1.trans htables', halike.2.trans htxn'⟩
      (htables.trans htables') htxn hrun
  | aborting howner hp => exact .aborting (hs.owner.mpr howner) hp
  | retrying howner hp => exact .retrying (fun h => howner (hs.owner.mp h)) hp

theorem Stands.untouched (h : Stands sha256 s j w) (hs : Untouched j s s') :
    Stands sha256 s' j w := by
  have howner (h : s.owner ≠ some j) : s'.owner ≠ some j := fun h' => h (hs.owner.mp h')
  cases w with
  | idle | finished => exact howner h
  | reading bf => exact ⟨h.1, howner h.2⟩
  | indexing bf blk p =>
    obtain ⟨hbefore, hstage | ⟨hp, hnot⟩⟩ := h
    · exact ⟨hbefore, .inl (hstage.untouched hs)⟩
    · exact ⟨hbefore, .inr ⟨hp, howner hnot⟩⟩
  | gaveUp stop => exact h

/-- The attempt begins with `mdb_txn_begin`. -/
theorem indexBlock_ask (sha256 : Bytes → UInt256) (mode : ℕ) (blk : CBlock) :
    indexBlock sha256 mode blk = .ask .txnBegin fun r => check r.code >>= fun _ =>
      afterBegin sha256 mode blk >>= fun _ => commitBlock :=
  indexBlock_eq_afterBegin sha256 mode blk

theorem inner_commit_ask {d : Prog Unit} (hd : Inner d) :
    ∃ c rest, (d >>= fun _ => commitBlock) = .ask c rest ∧
      (c.inner = true ∨ c = .txnCommit) := by
  cases d with
  | done u => exact ⟨_, _, rfl, .inr rfl⟩
  | fail stop => exact hd.elim
  | ask c rest => exact ⟨_, _, rfl, .inl hd.1⟩

/-- An attempt goes on with a call, or outside a transaction from its beginning. -/
theorem Stage.spec (h : Stage sha256 s k blk p) :
    (p = .fail .again ∧ s.owner ≠ some k) ∨ ∃ c rest, p = .ask c rest ∧ c ≠ .tally .block := by
  cases h with
  | before howner => exact .inr ⟨_, _, indexBlock_ask _ _ _, nofun⟩
  | inside howner hd =>
    obtain ⟨c, rest, hask, hc⟩ := inner_commit_ask hd
    refine .inr ⟨c, rest, hask, ?_⟩
    rintro rfl
    obtain hc | hc := hc
    · exact nomatch hc
    · exact nomatch hc
  | aborting howner hp =>
    cases p with
    | done u => exact hp.elim
    | fail stop => exact hp.elim
    | ask c rest =>
      refine .inr ⟨c, rest, rfl, ?_⟩
      rintro rfl
      exact hp.elim
  | retrying howner hp =>
    cases p with
    | done u => exact hp.elim
    | fail stop =>
      obtain rfl : stop = .again := hp
      exact .inl ⟨rfl, howner⟩
    | ask c rest =>
      refine .inr ⟨c, rest, rfl, ?_⟩
      rintro rfl
      exact nomatch hp.1

theorem owes_ask {c : Call} (hc : c ≠ .tally .block) (rest : Reply → Prog Unit) :
    (Position.indexing bf blk (.ask c rest)).owes = blk :: left bf := by
  cases c with
  | tally what =>
    cases what with
    | tx => rfl
    | block => exact absurd rfl hc
  | _ => rfl

/-- The rest of an attempt is left as the worker's position. -/
theorem Stage.settle (h : Stage sha256 s k blk p) (bf : CBufferedFile) :
    ∃ p', Position.settle sha256 s.mode bf blk p = .indexing bf blk p' ∧
      Stage sha256 s k blk p' ∧ (Position.indexing bf blk p').owes = blk :: left bf := by
  obtain ⟨rfl, howner⟩ | ⟨c, rest, rfl, hc⟩ := h.spec
  · refine ⟨_, rfl, .before howner, ?_⟩
    rw [indexBlock_ask]
    exact owes_ask (c := .txnBegin) nofun _
  · exact ⟨_, rfl, h, owes_ask hc rest⟩

/-! ## What a call does -/

/-- A transaction has an owner. -/
def Owned (s : Pool) : Prop := s.owner = none → s.store.txn = none

/-- The worker `k` has made a call within an attempt at `blk`, and what is left of it is `p`. -/
structure Advanced (sha256 : Bytes → UInt256) (s s' : Pool) (k : ℕ) (blk : CBlock)
    (p : Prog Unit) : Prop where
  owned : Owned s'
  others : ∀ j, j ≠ k → Untouched j s s'
  /-- Nothing is committed, or the block is. -/
  block : (s'.committed = s.committed ∧ s'.store.tables = s.store.tables ∧
      Stage sha256 s' k blk p) ∨
    (s'.committed = s.committed ++ [(s.mode, blk)] ∧ p = counting ∧ s'.owner ≠ some k ∧
      ∃ v, addBlock sha256 s.mode s.store.tables.opened blk = some v ∧ s'.store.tables = v.tables)

variable {full : Bool} {c : Call} {rest : Reply → Prog Unit} {r : Reply} {store : Store}

@[simp] theorem made_mode (s : Pool) (k : ℕ) (blk : CBlock) (c : Call) (store : Store) :
    (s.made k blk c store).mode = s.mode := by
  cases c <;> rfl

theorem made_store (s : Pool) (k : ℕ) (blk : CBlock) (c : Call) (store : Store) :
    (s.made k blk c store).store = store := by
  cases c <;> rfl

/-- A call leaves the workers and the list of files. -/
theorem made_spec (s : Pool) (k : ℕ) (blk : CBlock) (c : Call) (store : Store) :
    (s.made k blk c store).workers = s.workers ∧ (s.made k blk c store).pos_txo = s.pos_txo ∧
      (s.made k blk c store).taken = s.taken ∧ (s.made k blk c store).returned = s.returned := by
  cases c <;> exact ⟨rfl, rfl, rfl, rfl⟩

theorem untouched_of_ne (hmode : s'.mode = s.mode) (h : s.owner ≠ some j)
    (h' : s'.owner ≠ some j) : Untouched j s s' :=
  ⟨hmode, iff_of_false h' h, fun hj => absurd hj h⟩

theorem owner_ne (h : s.owner = some k) (hj : j ≠ k) : s.owner ≠ some j := by
  rw [h]
  exact fun heq => hj (Option.some.inj heq).symm

theorem made_inner (hc : c.inner = true) (s : Pool) (k : ℕ) (blk : CBlock) (store : Store) :
    s.made k blk c store = { s with store } := by
  cases c <;> first | rfl | exact nomatch hc

/-- The attempt begins. -/
theorem advanced_begin (hs : Owned s) (hwaits : s.waits .txnBegin = false)
    (hanswer : answer full .txnBegin s.store = (.ok r, store))
    (hask : indexBlock sha256 s.mode blk = .ask .txnBegin rest) :
    Advanced sha256 s (s.made k blk .txnBegin store) k blk (rest r) := by
  have hnone : s.owner = none := by
    rw [waits] at hwaits
    exact Option.not_isSome_iff_eq_none.mp (Bool.eq_false_iff.mp hwaits)
  have hbegin : lmdb .txnBegin s.store =
      (.ok {}, { s.store with txn := some s.store.tables }) := by
    rw [lmdb, hs hnone]
  obtain ⟨hr, rfl⟩ := Prod.mk.inj (hanswer.symm.trans hbegin)
  obtain rfl := Except.ok.inj hr
  have hrest : rest {} = (afterBegin sha256 s.mode blk >>= fun _ => commitBlock) := by
    obtain ⟨-, hrest⟩ := Dialog.ask.inj ((indexBlock_ask _ _ _).symm.trans hask)
    exact (congrFun (eq_of_heq hrest) {}).symm
  have hrun : (afterBegin sha256 s.mode blk >>= fun _ => commitBlock).run lmdb
      { s.store with txn := some s.store.tables } =
        (indexBlock sha256 s.mode blk).run lmdb s.store := by
    rw [hask, Dialog.run_ask, hbegin, ← hrest]
  refine ⟨fun h => ?_, fun j hj => untouched_of_ne rfl ?_ (owner_ne rfl hj),
    .inl ⟨rfl, rfl, ?_⟩⟩
  · cases h
  · rw [hnone]
    simp
  · rw [hrest]
    refine .inside rfl (inner_afterBegin _ _ _) ⟨rfl, rfl⟩ ?_ (hs hnone) hrun
    rfl

/-- A call within the transaction. -/
theorem advanced_inner {t t₀ : Store} (howner : s.owner = some k)
    (hd : Inner (.ask c rest : Prog Unit)) (halike : Alike t s.store)
    (htables : t₀.tables = s.store.tables) (htxn : t₀.txn = none)
    (hrun : ((.ask c rest : Prog Unit) >>= fun _ => commitBlock).run lmdb t =
      (indexBlock sha256 s.mode blk).run lmdb t₀)
    (hanswer : answer full c s.store = (.ok r, store))
    (hfine : Passes ⟨c, r⟩ ∨ c.unplanned = false ∧ r.code = MDB_MAP_FULL) :
    Advanced sha256 s (s.made k blk c store) k blk (rest r >>= fun _ => commitBlock) := by
  have hcommit : c ≠ .txnCommit := fun h => nomatch h ▸ hd.1
  have hinfo : c ≠ .envInfo := fun h => nomatch h ▸ hd.1
  have hstore : store.tables = s.store.tables := by
    obtain hlmdb | ⟨-, hfull⟩ := answer_cases full c s.store
    · have htables := lmdb_tables (s := s.store) hcommit
      rw [← hlmdb, hanswer] at htables
      exact htables
    · rw [← (Prod.mk.inj (hanswer.symm.trans hfull)).2]
  rw [made_inner hd.1]
  refine ⟨fun h => (nomatch howner.symm.trans h), fun j hj => ?_, .inl ⟨rfl, hstore, ?_⟩⟩
  · exact untouched_of_ne rfl (owner_ne howner hj) (owner_ne howner hj)
  · obtain hpasses | ⟨hput, hfull⟩ := hfine
    · obtain hlmdb | ⟨hput, hfull⟩ := answer_cases full c s.store
      · rw [hlmdb] at hanswer
        obtain ⟨hreply, halike'⟩ := lmdb_alike halike hinfo
        rw [hanswer] at hreply halike'
        refine .inside howner ((hd.2 r).1 hpasses) halike' (htables.trans hstore.symm) htxn ?_
        rw [← hrun]
        change _ = (Dialog.ask c fun r => (rest r).bind fun _ => commitBlock).run lmdb t
        rw [Dialog.run_ask]
        rcases ht : lmdb c t with ⟨stop | r', t'⟩ <;> rw [ht] at hreply
        · exact nomatch hreply
        · obtain rfl := Except.ok.inj hreply
          rfl
      · obtain rfl := Except.ok.inj (Prod.mk.inj (hanswer.symm.trans hfull)).1
        exact absurd hpasses (not_passes_full hput rfl)
    · exact .aborting howner (((hd.2 r).2 hput hfull).bind _)

/-- The commit. -/
theorem advanced_commit {t t₀ : Store} (howner : s.owner = some k) (halike : Alike t s.store)
    (htables : t₀.tables = s.store.tables) (htxn : t₀.txn = none)
    (hrun : commitBlock.run lmdb t = (indexBlock sha256 s.mode blk).run lmdb t₀)
    (hanswer : answer full .txnCommit s.store = (.ok r, store)) :
    Advanced sha256 s (s.made k blk .txnCommit store) k blk counting := by
  obtain ⟨-, rfl⟩ := Prod.mk.inj hanswer
  obtain ⟨v, hadd, hv⟩ := addBlock_of_run htxn (hrun.symm.trans rfl)
  refine ⟨fun _ => rfl, fun j hj => untouched_of_ne rfl (owner_ne howner hj) nofun, .inr ?_⟩
  refine ⟨rfl, rfl, nofun, v, ?_, ?_⟩
  · rw [← htables]
    exact hadd
  · rw [← hv, made_store]
    change s.store.txn.getD s.store.tables = t.txn.getD t.tables
    rw [halike.1, halike.2]

/-- The transaction is aborted. -/
theorem advanced_abort (howner : s.owner = some k) (hp : Aborting (.ask .txnAbort rest : Prog Unit))
    (hanswer : answer full .txnAbort s.store = (.ok r, store)) :
    Advanced sha256 s (s.made k blk .txnAbort store) k blk (rest r) := by
  obtain ⟨-, rfl⟩ := Prod.mk.inj hanswer
  refine ⟨fun _ => rfl, fun j hj => untouched_of_ne rfl (owner_ne howner hj) nofun, .inl ?_⟩
  exact ⟨rfl, rfl, .retrying nofun (hp r)⟩

/-- A call of `IncreaseMapSize`, without a transaction when the map is resized. -/
theorem advanced_retry (hs : Owned s) (howner : s.owner ≠ some k)
    (hp : Retrying (.ask c rest : Prog Unit))
    (hundisturbed : ∀ size, c = .setMapsize size → s.owner = none)
    (hanswer : answer full c s.store = (.ok r, store)) :
    Advanced sha256 s (s.made k blk c store) k blk (rest r) := by
  have heffect : r.code = 0 ∧ (s.made k blk c store).owner = s.owner ∧
      (s.made k blk c store).committed = s.committed ∧ Alike s.store store := by
    cases c with
    | setMapsize size =>
      have hmade : lmdb (.setMapsize size) s.store =
          (.ok {}, { s.store with mapsize := size }) := by
        rw [lmdb, if_neg (by simp [hs (hundisturbed size rfl)])]
      obtain ⟨hr, rfl⟩ := Prod.mk.inj (hanswer.symm.trans hmade)
      obtain rfl := Except.ok.inj hr
      exact ⟨rfl, rfl, rfl, rfl, rfl⟩
    | lockResize | unlockResize | envInfo =>
      obtain ⟨hr, rfl⟩ := Prod.mk.inj hanswer
      obtain rfl := Except.ok.inj hr
      exact ⟨rfl, rfl, rfl, rfl, rfl⟩
    | _ => cases hp.1
  obtain ⟨hcode, howner', hcommitted, halike⟩ := heffect
  refine ⟨fun h => ?_, fun j hj => ⟨made_mode _ _ _ _ _, by rw [howner'], fun _ => ?_⟩, .inl ?_⟩
  · rw [made_store, ← halike.2]
    exact hs (howner'.symm.trans h)
  · rw [made_store]
    exact halike
  · refine ⟨hcommitted, ?_, .retrying ?_ (hp.2 r hcode)⟩
    · rw [made_store, halike.1]
    · rw [howner']
      exact howner

/-- **A call within an attempt** takes it on, if LMDB reports no other error and the map is not
resized within a transaction. -/
theorem Stage.advanced (h : Stage sha256 s k blk (.ask c rest)) (hs : Owned s)
    (hwaits : s.waits c = false)
    (hundisturbed : ∀ size, c = .setMapsize size → s.owner = none)
    (hanswer : answer full c s.store = (.ok r, store))
    (hfine : Passes ⟨c, r⟩ ∨ c.unplanned = false ∧ r.code = MDB_MAP_FULL) :
    Advanced sha256 s (s.made k blk c store) k blk (rest r) := by
  generalize hp : (.ask c rest : Prog Unit) = p at h
  cases h with
  | before howner =>
    obtain ⟨rfl, -⟩ := Dialog.ask.inj (hp.trans (indexBlock_ask _ _ _))
    exact advanced_begin hs hwaits hanswer hp.symm
  | @inside d t t₀ howner hd halike htables htxn hrun =>
    cases d with
    | done u =>
      obtain ⟨rfl, hrest⟩ := Dialog.ask.inj hp
      obtain rfl := eq_of_heq hrest
      exact advanced_commit howner halike htables htxn hrun hanswer
    | fail stop => exact hd.elim
    | ask c' rest' =>
      obtain ⟨rfl, hrest⟩ := Dialog.ask.inj hp
      obtain rfl := eq_of_heq hrest
      exact advanced_inner howner hd halike htables htxn hrun hanswer hfine
  | aborting howner hp' =>
    subst hp
    cases c with
    | txnAbort => exact advanced_abort howner hp' hanswer
    | _ => exact hp'.elim
  | retrying howner hp' =>
    subst hp
    exact advanced_retry hs howner hp' hundisturbed hanswer

/-! ## What a step of a worker does -/

variable {files : List Bytes} {w w' : Position}

/-- What becomes of the list of files, of what is committed and of what the worker owes. -/
inductive Effect (sha256 : Bytes → UInt256) (files : List Bytes) (s s' : Pool) (k : ℕ)
    (w w' : Position) : Prop
  | quiet (pos : s'.pos_txo = s.pos_txo) (taken : s'.taken = s.taken)
      (committed : s'.committed = s.committed) (tables : s'.store.tables = s.store.tables)
      (owes : w.owes = w'.owes)
  | took {content : Bytes} (file : files[s.pos_txo]? = some content)
      (pos : s'.pos_txo = s.pos_txo + 1) (taken : s'.taken = s.taken ++ [⟨s.mode, s.pos_txo, k⟩])
      (committed : s'.committed = s.committed) (tables : s'.store.tables = s.store.tables)
      (owed : w.owes = []) (owes : w'.owes = blocksOf content)
  | commit {blk : CBlock} {v : View} (pos : s'.pos_txo = s.pos_txo) (taken : s'.taken = s.taken)
      (committed : s'.committed = s.committed ++ [(s.mode, blk)])
      (added : addBlock sha256 s.mode s.store.tables.opened blk = some v)
      (tables : s'.store.tables = v.tables) (owes : w.owes = blk :: w'.owes)

/-- A step of the worker `k`, from `w` to `w'`. -/
structure Moves (sha256 : Bytes → UInt256) (files : List Bytes) (s s' : Pool) (k : ℕ)
    (w w' : Position) : Prop where
  workers : s'.workers = s.workers.set k w'
  mode : s'.mode = s.mode
  returned : s'.returned = s.returned
  owned : Owned s'
  others : ∀ j, j ≠ k → Untouched j s s'
  stands : Stands sha256 s' k w'
  busy : w ≠ .finished
  finished : w' = .finished → s'.pos_txo = s.pos_txo ∧ files.length ≤ s.pos_txo
  effect : Effect sha256 files s s' k w w'

theorem untouched_move (j : ℕ) (s : Pool) (k : ℕ) (w : Position) : Untouched j s (s.move k w) :=
  ⟨rfl, Iff.rfl, fun _ => ⟨rfl, rfl⟩⟩

theorem Untouched.trans {s'' : Pool} (h : Untouched j s s') (h' : Untouched j s' s'') :
    Untouched j s s'' where
  mode := h'.mode.trans h.mode
  owner := h'.owner.trans h.owner
  store := fun hj =>
    have h₁ := h.store hj
    have h₂ := h'.store (h.owner.mpr hj)
    ⟨h₁.1.trans h₂.1, h₁.2.trans h₂.2⟩

theorem left_eq {rest : Bytes} (h : Before bf rest) : left bf = blocksOf rest := by
  obtain ⟨before, hholds⟩ := h
  rw [left, CBufferedFile.getPos, ← hholds.rest_eq]

/-- A worker takes a file, or finds that there is none left. -/
theorem moves_take {s' : Pool} (hs : Owned s) (hw : s.workers[k]? = some .idle)
    (hstands : Stands sha256 s k .idle) (h : step sha256 files (.take k) s = some s') :
    ∃ w', Moves sha256 files s s' k .idle w' := by
  simp only [step, hw] at h
  cases hfile : files[s.pos_txo]? with
  | none =>
    simp only [hfile] at h
    obtain rfl := Option.some.inj h
    refine ⟨.finished, rfl, rfl, rfl, hs, fun j _ => untouched_move j s k _, hstands, nofun,
      fun _ => ⟨rfl, List.getElem?_eq_none_iff.mp hfile⟩, .quiet rfl rfl rfl rfl rfl⟩
  | some content =>
    simp only [hfile] at h
    obtain rfl := Option.some.inj h
    refine ⟨.reading (openBlockFile content), rfl, rfl, rfl, hs, fun j _ => ?_, ?_, nofun, nofun,
      .took hfile rfl rfl rfl rfl rfl (left_eq (openBlockFile_before content))⟩
    · exact ⟨rfl, Iff.rfl, fun _ => ⟨rfl, rfl⟩⟩
    · exact ⟨⟨_, openBlockFile_before content⟩, hstands⟩

/-- The blocks that are left after a pass. -/
theorem blocksOf_pass (rest : Bytes) : blocksOf rest =
    match (scanPass rest).1 with
    | .leave => []
    | .again => blocksOf (scanPass rest).2
    | .block blk => blk :: blocksOf (scanPass rest).2 := by
  by_cases hne : rest = []
  · subst hne
    rfl
  · cases hpass : (scanPass rest).1 with
    | leave => rw [blocksOf, found_of_leave hpass, List.map_nil]
    | again => rw [blocksOf, found_of_again hne hpass, blocksOf]
    | block blk => rw [blocksOf, found_of_block hne hpass, List.map_cons, blocksOf]

/-- A worker makes a pass over its file. -/
theorem moves_pass {s' : Pool} (hs : Owned s) (hw : s.workers[k]? = some (.reading bf))
    (hstands : Stands sha256 s k (.reading bf)) (h : step sha256 files (.pass k) s = some s') :
    ∃ w', Moves sha256 files s s' k (.reading bf) w' := by
  obtain ⟨⟨rest, hbefore⟩, howner⟩ := hstands
  have hmoves {w' : Position} (hstands : Stands sha256 s k w') (hfinished : w' ≠ .finished)
      (howes : left bf = w'.owes) :
      Moves sha256 files s (s.move k w') k (.reading bf) w' :=
    ⟨rfl, rfl, rfl, hs, fun j _ => untouched_move j s k w',
      hstands.untouched (untouched_move k s k w'), by simp, fun h => absurd h hfinished,
      .quiet rfl rfl rfl rfl howes⟩
  have hleft := left_eq hbefore
  simp only [step, hw] at h
  cases heof : bf.eof with
  | true =>
    have hleave : scanStep bf = (.leave, bf) := by rw [scanStep, if_pos heof]
    simp only [hleave] at h
    obtain rfl := Option.some.inj h
    refine ⟨.idle, hmoves howner (by simp) ?_⟩
    rw [hleft, rest_of_eof hbefore heof, blocksOf, found_nil]
    rfl
  | false =>
    obtain ⟨bf', hstep, hbefore', -⟩ := scanStep_pass hbefore heof
    rw [blocksOf_pass rest, ← left_eq hbefore'] at hleft
    simp only [hstep] at h
    cases hpass : (scanPass rest).1 with
    | leave =>
      simp only [hpass] at h hleft
      obtain rfl := Option.some.inj h
      exact ⟨.idle, hmoves howner (by simp) hleft⟩
    | again =>
      simp only [hpass] at h hleft
      obtain rfl := Option.some.inj h
      exact ⟨.reading bf', hmoves ⟨⟨_, hbefore'⟩, howner⟩ (by simp) hleft⟩
    | block blk =>
      simp only [hpass] at h hleft
      obtain rfl := Option.some.inj h
      refine ⟨_, hmoves ⟨⟨_, hbefore'⟩, .inl (.before howner)⟩ (by simp) ?_⟩
      rw [hleft, indexBlock_ask]
      exact (owes_ask (c := .txnBegin) (by simp) _).symm

/-- A call that does not wait is answered. -/
theorem answer_ok (hs : Owned s) (hwaits : s.waits c = false) (full : Bool) :
    ∃ r store, answer full c s.store = (.ok r, store) := by
  obtain hlmdb | ⟨-, hfull⟩ := answer_cases full c s.store
  · rw [hlmdb]
    cases c with
    | txnBegin =>
      have hnone : s.owner = none := by
        rw [waits] at hwaits
        exact Option.not_isSome_iff_eq_none.mp (Bool.eq_false_iff.mp hwaits)
      rw [lmdb, hs hnone]
      exact ⟨_, _, rfl⟩
    | setMapsize size =>
      rw [lmdb]
      split_ifs <;> exact ⟨_, _, rfl⟩
    | dbiOpen | setDupsort | put | cursorPut | stat =>
      rw [lmdb, Store.inTxn]
      cases s.store.txn <;> exact ⟨_, _, rfl⟩
    | _ => exact ⟨_, _, rfl⟩
  · exact ⟨_, _, hfull⟩

/-- A worker makes a call. -/
theorem moves_call {s' : Pool} {full : Bool} (hs : Owned s)
    (hw : s.workers[k]? = some (.indexing bf blk p))
    (hstands : Stands sha256 s k (.indexing bf blk p)) (hfine : Fine (.call k full) s)
    (hundisturbed : Undisturbed (.call k full) s)
    (h : step sha256 files (.call k full) s = some s') :
    ∃ w', Moves sha256 files s s' k (.indexing bf blk p) w' := by
  obtain ⟨hbefore, hstage⟩ := hstands
  cases p with
  | done u => simp only [step, hw] at h; exact nomatch h
  | fail stop => simp only [step, hw] at h; exact nomatch h
  | ask c rest =>
    have hnext : s.nextCall k = some c := by rw [nextCall, hw]
    simp only [step, hw] at h
    split_ifs at h with hwaits
    replace hwaits := Bool.eq_false_iff.mpr hwaits
    obtain ⟨r, store, hanswer⟩ := answer_ok hs hwaits full
    simp only [hanswer] at h
    obtain rfl := Option.some.inj h
    obtain ⟨hworkers, hpos, htaken, hreturned⟩ := made_spec s k blk c store
    have hmode := made_mode s k blk c store
    have hmoves {w' : Position} (howned : Owned (s.made k blk c store))
        (hothers : ∀ j, j ≠ k → Untouched j s (s.made k blk c store))
        (hstands : Stands sha256 (s.made k blk c store) k w') (hfinished : w' ≠ .finished)
        (heffect : Effect sha256 files s ((s.made k blk c store).move k w') k
          (.indexing bf blk (.ask c rest)) w') :
        Moves sha256 files s ((s.made k blk c store).move k w') k
          (.indexing bf blk (.ask c rest)) w' :=
      ⟨by rw [move, hworkers], hmode, hreturned, howned,
        fun j hj => (hothers j hj).trans (untouched_move j _ k w'),
        hstands.untouched (untouched_move k _ k w'), nofun, fun h => absurd h hfinished, heffect⟩
    obtain hstage | ⟨hp, howner⟩ := hstage
    · obtain ⟨howned, hothers, hblock⟩ := hstage.advanced hs hwaits
        (fun size hc => hundisturbed size (hc ▸ hnext)) hanswer
        (hfine c r hnext (by rw [hanswer]))
      have howes : (Position.indexing bf blk (.ask c rest)).owes = blk :: left bf := by
        obtain ⟨hp, -⟩ | ⟨c', rest', hp, hc'⟩ := hstage.spec
        · exact nomatch hp
        · rw [hp]
          exact owes_ask hc' rest'
      obtain ⟨hcommitted, htables, hstage'⟩ | ⟨hcommitted, hp, howner, v, hadd, hv⟩ := hblock
      · obtain ⟨p', hsettle, hp', howes'⟩ := hstage'.settle bf
        rw [hmode] at hsettle
        rw [hsettle]
        exact ⟨_, hmoves howned hothers ⟨hbefore, .inl hp'⟩ nofun
          (.quiet hpos htaken hcommitted htables (howes.trans howes'.symm))⟩
      · rw [hp]
        exact ⟨_, hmoves howned hothers ⟨hbefore, .inr ⟨rfl, howner⟩⟩ nofun
          (.commit hpos htaken hcommitted hadd hv howes)⟩
    · -- The commit has been made: the block is counted, and the worker goes on reading.
      obtain ⟨rfl, hrest⟩ := Dialog.ask.inj hp
      obtain rfl := eq_of_heq hrest
      obtain ⟨hr, rfl⟩ := Prod.mk.inj hanswer
      exact ⟨_, hmoves hs (fun j _ => ⟨rfl, Iff.rfl, fun _ => ⟨rfl, rfl⟩⟩) ⟨hbefore, howner⟩ nofun
        (.quiet rfl rfl rfl rfl rfl)⟩

end Pool

end ElectrumZ.Blockchain
