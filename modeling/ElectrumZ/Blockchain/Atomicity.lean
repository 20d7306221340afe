import ElectrumZ.Blockchain.Lossless

/-!
# Whole blocks only

What holds in every order of the workers' steps, with no assumption on what LMDB reports: puts may
find the map full or be refused, a resize may meet a transaction, workers may give up with theirs
open.

* `enclosed_afterBegin`: an attempt between its begin and its commit, whatever its calls return.
* `Shifts`: what a step of a worker does, as `shifts_take`, `shifts_pass` and `shifts_call` prove.
* `atomic_always`: **the committed tables are made of whole blocks of the files**, none of them more
  often than the files have it.
-/

namespace ElectrumZ.Blockchain

open Foundations Bitcoin

/-! ## Parts of an attempt -/

section Parts

variable {α β : Type}

/-- The program makes only calls of `IncreaseMapSize`, and does not go on. -/
def Dropping : Prog α → Prop
  | .done _ => False
  | .fail _ => True
  | .ask c k => c.resizing = true ∧ ∀ r, Dropping (k r)

/-- The program aborts the transaction first. -/
def Drops : Prog α → Prop
  | .ask .txnAbort k => ∀ r, Dropping (k r)
  | _ => False

/-- The program works within the transaction, ends in it, or aborts it when a put finds the map
full. -/
def Enclosed : Prog α → Prop
  | .done _ | .fail _ => True
  | .ask c k => c.inner = true ∧ ∀ r, (r.code ≠ MDB_MAP_FULL → Enclosed (k r)) ∧
      (c.unplanned = false → r.code = MDB_MAP_FULL → Drops (k r))

theorem Dropping.bind {d : Prog α} (hd : Dropping d) (f : α → Prog β) : Dropping (d >>= f) := by
  change Dropping (d.bind f)
  induction d with
  | done a => exact hd.elim
  | fail stop => trivial
  | ask c k ih => exact ⟨hd.1, fun r => ih r (hd.2 r)⟩

theorem Drops.bind {d : Prog α} (hd : Drops d) (f : α → Prog β) : Drops (d >>= f) := by
  cases d with
  | done a => exact hd.elim
  | fail stop => exact hd.elim
  | ask c k =>
    cases c with
    | txnAbort => exact fun r => (hd r).bind f
    | _ => exact hd.elim

theorem Enclosed.bind {d : Prog α} {f : α → Prog β} (hd : Enclosed d) (hf : ∀ a, Enclosed (f a)) :
    Enclosed (d >>= f) := by
  change Enclosed (d.bind f)
  induction d with
  | done a => exact hf a
  | fail stop => trivial
  | ask c k ih =>
    refine ⟨hd.1, fun r => ⟨fun hr => ih r ((hd.2 r).1 hr), fun hc hr => ?_⟩⟩
    exact ((hd.2 r).2 hc hr).bind f

theorem enclosed_pure (a : α) : Enclosed (pure a : Prog α) := trivial

/-- A call that is no put. -/
theorem enclosed_call {c : Call} {f : ℤ → Prog α} (hc : c.inner = true) (hput : c.unplanned = true)
    (hf : ∀ err ≠ MDB_MAP_FULL, Enclosed (f err)) : Enclosed (call c >>= f) := by
  refine ⟨hc, fun r => ⟨hf r.code, fun h => ?_⟩⟩
  cases hput.symm.trans h

/-- A put. -/
theorem enclosed_put {c : Call} {f : ℤ → Prog α} (hc : c.inner = true)
    (hf : ∀ err ≠ MDB_MAP_FULL, Enclosed (f err)) (hfull : Drops (f MDB_MAP_FULL)) :
    Enclosed (call c >>= f) := by
  refine ⟨hc, fun r => ⟨hf r.code, fun _ hr => ?_⟩⟩
  change Drops (f r.code)
  rw [hr]
  exact hfull

theorem dropping_call {c : Call} {f : ℤ → Prog α} (hc : c.resizing = true)
    (hf : ∀ err, Dropping (f err)) : Dropping (call c >>= f) :=
  ⟨hc, fun r => hf r.code⟩

/-- Whether or not the map is enlarged. -/
theorem dropping_growMap {f : ℤ → Prog α} (hf : ∀ err, Dropping (f err)) :
    Dropping (growMap >>= f) := by
  rw [growMap, Dialog.bind_assoc]
  refine ⟨rfl, fun r => ?_⟩
  change Dropping ((if r.code ≠ 0 then pure r.code else _) >>= f)
  split_ifs
  · exact hf r.code
  · rw [Dialog.bind_assoc]
    refine dropping_call rfl fun err => ?_
    split_ifs
    · exact hf err
    · exact hf TXO_RESIZED

theorem drops_tryBlockAgain : Drops tryBlockAgain := by
  intro r
  change Dropping (increaseMapSize >>= _)
  rw [increaseMapSize, Dialog.bind_assoc]
  refine dropping_call rfl fun _ => ?_
  rw [Dialog.bind_assoc]
  refine dropping_growMap fun err => ?_
  rw [Dialog.bind_assoc]
  refine dropping_call rfl fun _ => ?_
  change Dropping (if err ≠ TXO_RESIZED then .fail (.err err) else .fail .again)
  split_ifs <;> trivial

theorem drops_putFailed : Drops (putFailed MDB_MAP_FULL) := by
  rw [putFailed, if_pos rfl]
  exact drops_tryBlockAgain

variable {sha256 : Bytes → UInt256}

/-- A put that starts over or gives up unless it returns zero. -/
theorem enclosed_store {c : Call} (hc : c.inner = true) :
    Enclosed (call c >>= fun err => if err ≠ 0 then putFailed err else pure ()) := by
  refine enclosed_put hc (fun err herr => ?_) ?_
  · rw [putFailed, if_neg herr]
    split_ifs <;> trivial
  · rw [if_pos (by decide)]
    exact drops_putFailed

theorem enclosed_check (err : ℤ) : Enclosed (check err) := by
  unfold check
  split_ifs <;> trivial

theorem enclosed_openTable (dbn : Dbi) (dupsort : Bool) : Enclosed (openTable dbn dupsort) := by
  refine enclosed_call rfl rfl fun err herr => ?_
  rw [if_neg herr]
  split_ifs <;> trivial

theorem enclosed_putHeader (header : CBlockHeader) : Enclosed (putHeader sha256 header) :=
  enclosed_store rfl

theorem enclosed_indexOutput (txHash : UInt256) (i : ℕ) (ntxo : CTxOut) :
    Enclosed (indexOutput sha256 txHash i ntxo) := by
  refine enclosed_put rfl (fun err herr => ?_) ?_
  · rw [if_neg herr]
    split_ifs
    · trivial
    · trivial
    · exact enclosed_store rfl
  · rw [if_pos (by decide), if_pos rfl]
    exact drops_tryBlockAgain

theorem enclosed_indexOutputs (txHash : UInt256) (i : ℕ) (vout : List CTxOut) :
    Enclosed (indexOutputs sha256 txHash i vout) := by
  induction vout generalizing i with
  | nil => exact enclosed_pure ()
  | cons o vout ih => exact (enclosed_indexOutput txHash i o).bind fun _ => ih (i + 1)

theorem enclosed_indexTx (mode : ℕ) (tx : CTransaction) : Enclosed (indexTx sha256 mode tx) := by
  have hbody : Enclosed (indexInOut sha256 mode tx) := by
    unfold indexInOut
    split_ifs
    · rw [spendInputs_eq]
      exact enclosed_pure ()
    · exact enclosed_indexOutputs _ 0 _
  refine enclosed_call rfl rfl fun _ _ => hbody.bind fun _ => ?_
  exact enclosed_call rfl rfl fun _ _ => enclosed_call rfl rfl fun _ _ => enclosed_pure ()

theorem enclosed_indexTxs (mode : ℕ) (vtx : List CTransaction) :
    Enclosed (indexTxs sha256 mode vtx) := by
  induction vtx with
  | nil => exact enclosed_pure ()
  | cons tx vtx ih => exact (enclosed_indexTx mode tx).bind fun _ => ih

/-- **An attempt between its begin and its commit**, whatever its calls return. -/
theorem enclosed_afterBegin (sha256 : Bytes → UInt256) (mode : ℕ) (blk : CBlock) :
    Enclosed (afterBegin sha256 mode blk) := by
  refine (enclosed_openTable .txo true).bind fun _ => ?_
  refine (enclosed_openTable .addr true).bind fun _ => ?_
  refine (enclosed_openTable .blk false).bind fun _ => enclosed_call rfl rfl fun err _ => ?_
  refine (enclosed_check err).bind fun _ => ?_
  exact (enclosed_putHeader blk.header).bind fun _ => enclosed_indexTxs mode blk.vtx

end Parts

theorem update_code (ts : Tables) (dbi : Dbi) (f : Table → Option Table) :
    (ts.update dbi f).1 ≠ MDB_MAP_FULL := by
  unfold Tables.update
  split
  · simp [EINVAL, MDB_MAP_FULL]
  · split <;> simp [MDB_KEYEXIST, MDB_MAP_FULL]

/-- `lmdb` does not find the map full within a transaction. -/
theorem lmdb_code {c : Call} {s : Store} {r : Reply} (hc : c.inner = true)
    (h : (lmdb c s).1 = .ok r) : r.code ≠ MDB_MAP_FULL := by
  have hinTxn {f : Tables → ℤ × Tables} (hf : ∀ ts, (f ts).1 ≠ MDB_MAP_FULL)
      (h : (s.inTxn f).1 = .ok r) : r.code ≠ MDB_MAP_FULL := by
    unfold Store.inTxn at h
    split at h
    · obtain rfl := Except.ok.inj h
      simp [EINVAL, MDB_MAP_FULL]
    · obtain rfl := Except.ok.inj h
      exact hf _
  cases c with
  | put | cursorPut | setDupsort => exact hinTxn (fun ts => update_code ts _ _) h
  | dbiOpen => exact hinTxn (fun ts => by simp [MDB_MAP_FULL]) h
  | cursorOpen | cursorClose | tally =>
    obtain rfl := Except.ok.inj h
    simp [MDB_MAP_FULL]
  | _ => cases hc

namespace Pool

/-! ## Where a worker stands -/

variable (sha256 : Bytes → UInt256)

/-- Where the attempt of the worker `k` at a block stands, up to its commit. -/
inductive Attempting (s : Pool) (k : ℕ) (blk : CBlock) : Prog Unit → Prop
  | before : Attempting s k blk (indexBlock sha256 s.mode blk)
  /-- What is left does what the whole attempt does on the tables that are committed. -/
  | inside {d : Prog Unit} {t t₀ : Store} (howner : s.owner = some k) (hd : Enclosed d)
      (halike : Alike t s.store) (htables : t₀.tables = s.store.tables) (htxn : t₀.txn = none)
      (hrun : (d >>= fun _ => commitBlock).run lmdb t =
        (indexBlock sha256 s.mode blk).run lmdb t₀) :
      Attempting s k blk (d >>= fun _ => commitBlock)
  | dropping {p : Prog Unit} (howner : s.owner = some k) (hp : Drops p) : Attempting s k blk p
  | dropped {p : Prog Unit} (hp : Dropping p) : Attempting s k blk p

/-- Where the worker `k` stands. -/
def Keeps (s : Pool) (k : ℕ) : Position → Prop
  | .reading bf => ∃ rest, Before bf rest
  | .indexing bf blk p => (∃ rest, Before bf rest) ∧ (Attempting sha256 s k blk p ∨ p = counting)
  | _ => True

variable {sha256} {s s' : Pool} {j k : ℕ} {bf : CBufferedFile} {blk : CBlock} {p : Prog Unit}
  {w w' : Position}

theorem Attempting.untouched (h : Attempting sha256 s j blk p) (hs : Untouched j s s') :
    Attempting sha256 s' j blk p := by
  cases h with
  | before =>
    rw [← hs.mode]
    exact .before
  | @inside d t t₀ howner hd halike htables htxn hrun =>
    obtain ⟨htables', htxn'⟩ := hs.store howner
    rw [← hs.mode] at hrun
    exact .inside (hs.owner.mpr howner) hd ⟨halike.1.trans htables', halike.2.trans htxn'⟩
      (htables.trans htables') htxn hrun
  | dropping howner hp => exact .dropping (hs.owner.mpr howner) hp
  | dropped hp => exact .dropped hp

theorem Keeps.untouched (h : Keeps sha256 s j w) (hs : Untouched j s s') :
    Keeps sha256 s' j w := by
  cases w with
  | indexing bf blk p =>
    obtain ⟨hbefore, hattempt | hp⟩ := h
    · exact ⟨hbefore, .inl (hattempt.untouched hs)⟩
    · exact ⟨hbefore, .inr hp⟩
  | reading bf => exact h
  | _ => trivial

/-- An attempt goes on with a call, or fails. -/
theorem Attempting.spec (h : Attempting sha256 s k blk p) :
    (∃ stop, p = .fail stop) ∨ ∃ c rest, p = .ask c rest ∧ c ≠ .tally .block := by
  cases h with
  | before =>
    refine .inr ⟨_, _, indexBlock_ask _ _ _, ?_⟩
    simp
  | @inside d t t₀ howner hd =>
    cases d with
    | done u =>
      refine .inr ⟨_, _, rfl, ?_⟩
      simp
    | fail stop => exact .inl ⟨stop, rfl⟩
    | ask c rest =>
      refine .inr ⟨c, _, rfl, ?_⟩
      rintro rfl
      cases hd.1
  | dropping howner hp =>
    cases p with
    | done u => exact hp.elim
    | fail stop => exact hp.elim
    | ask c rest =>
      refine .inr ⟨c, rest, rfl, ?_⟩
      rintro rfl
      exact hp.elim
  | dropped hp =>
    cases p with
    | done u => exact hp.elim
    | fail stop => exact .inl ⟨stop, rfl⟩
    | ask c rest =>
      refine .inr ⟨c, rest, rfl, ?_⟩
      rintro rfl
      cases hp.1

theorem owes_indexBlock (mode : ℕ) :
    (Position.indexing bf blk (indexBlock sha256 mode blk)).owes = blk :: left bf := by
  rw [indexBlock_ask]
  exact owes_ask (by simp) _

/-- The rest of an attempt is left as the worker's position. It owes the block unless it has given
up. -/
theorem Attempting.settle (h : Attempting sha256 s k blk p) (hbefore : ∃ rest, Before bf rest) :
    Keeps sha256 s k (Position.settle sha256 s.mode bf blk p) ∧
      ((Position.settle sha256 s.mode bf blk p).owes).Sublist (blk :: left bf) := by
  obtain ⟨stop, rfl⟩ | ⟨c, rest, rfl, hc⟩ := h.spec
  · by_cases hagain : stop = .again
    · subst hagain
      refine ⟨⟨hbefore, .inl .before⟩, ?_⟩
      change List.Sublist (Position.indexing bf blk (indexBlock sha256 s.mode blk)).owes _
      rw [owes_indexBlock]
    · have hsettle : Position.settle sha256 s.mode bf blk (.fail stop) = .gaveUp stop := by
        cases stop with
        | again => exact absurd rfl hagain
        | _ => rfl
      rw [hsettle]
      exact ⟨trivial, List.nil_sublist _⟩
  · refine ⟨⟨hbefore, .inl h⟩, ?_⟩
    change List.Sublist (Position.indexing bf blk (.ask c rest)).owes _
    rw [owes_ask hc]

/-! ## What a call does -/

/-- The worker `k` has made a call within an attempt at `blk`, and what is left of it is `p`. -/
structure Answered (sha256 : Bytes → UInt256) (s s' : Pool) (k : ℕ) (blk : CBlock)
    (p : Prog Unit) : Prop where
  owned : Owned s'
  others : ∀ j, j ≠ k → Untouched j s s'
  /-- Nothing is committed, or the block is. -/
  block : (s'.committed = s.committed ∧ s'.store.tables = s.store.tables ∧
      Attempting sha256 s' k blk p) ∨
    (s'.committed = s.committed ++ [(s.mode, blk)] ∧ p = counting ∧
      ∃ v, addBlock sha256 s.mode s.store.tables.opened blk = some v ∧ s'.store.tables = v.tables)

variable {full : Bool} {c : Call} {rest : Reply → Prog Unit} {r : Reply} {store : Store}

/-- The attempt begins. -/
theorem answered_begin (hs : Owned s) (hwaits : s.waits .txnBegin = false)
    (hanswer : answer full .txnBegin s.store = (.ok r, store))
    (hask : indexBlock sha256 s.mode blk = .ask .txnBegin rest) :
    Answered sha256 s (s.made k blk .txnBegin store) k blk (rest r) := by
  have hnone : s.owner = none := by simpa [waits] using hwaits
  have hbegin : lmdb .txnBegin s.store =
      (.ok {}, { s.store with txn := some s.store.tables }) := by
    rw [lmdb, hs hnone]
  obtain ⟨hr, rfl⟩ := Prod.mk.inj (hanswer.symm.trans hbegin)
  obtain rfl := Except.ok.inj hr
  have hrest : rest {} = (afterBegin sha256 s.mode blk >>= fun _ => commitBlock) := by
    obtain ⟨-, hrest⟩ := Dialog.ask.inj ((indexBlock_ask _ _ _).symm.trans hask)
    exact (congrFun (eq_of_heq hrest) {}).symm
  have hrun : (afterBegin sha256 s.mode blk >>= fun _ => commitBlock).run lmdb
      { s.store with txn := some s.store.tables } =
        (indexBlock sha256 s.mode blk).run lmdb s.store := by
    rw [hask, Dialog.run_ask, hbegin, ← hrest]
  refine ⟨fun h => ?_, fun j hj => untouched_of_ne rfl ?_ (owner_ne rfl hj),
    .inl ⟨rfl, rfl, ?_⟩⟩
  · cases h
  · rw [hnone]
    simp
  · rw [hrest]
    refine .inside rfl (enclosed_afterBegin _ _ _) ⟨rfl, rfl⟩ ?_ (hs hnone) hrun
    rfl

/-- A call within the transaction. -/
theorem answered_inner {t t₀ : Store} (howner : s.owner = some k)
    (hd : Enclosed (.ask c rest : Prog Unit)) (halike : Alike t s.store)
    (htables : t₀.tables = s.store.tables) (htxn : t₀.txn = none)
    (hrun : ((.ask c rest : Prog Unit) >>= fun _ => commitBlock).run lmdb t =
      (indexBlock sha256 s.mode blk).run lmdb t₀)
    (hanswer : answer full c s.store = (.ok r, store)) :
    Answered sha256 s (s.made k blk c store) k blk (rest r >>= fun _ => commitBlock) := by
  have hcommit : c ≠ .txnCommit := by
    rintro rfl
    cases hd.1
  have hinfo : c ≠ .envInfo := by
    rintro rfl
    cases hd.1
  rw [made_inner hd.1]
  refine ⟨fun h => ?_, fun j hj => ?_, .inl ?_⟩
  · cases howner.symm.trans h
  · exact untouched_of_ne rfl (owner_ne howner hj) (owner_ne howner hj)
  obtain hlmdb | ⟨hput, hfull⟩ := answer_cases full c s.store
  · have hstore := lmdb_tables (s := s.store) hcommit
    obtain ⟨hreply, halike'⟩ := lmdb_alike halike hinfo
    rw [hlmdb] at hanswer
    have hcode : r.code ≠ MDB_MAP_FULL := lmdb_code hd.1 (by rw [hanswer])
    rw [hanswer] at hstore hreply halike'
    refine ⟨rfl, hstore, ?_⟩
    refine .inside howner ((hd.2 r).1 hcode) halike' (htables.trans hstore.symm) htxn ?_
    rw [← hrun]
    change _ = (Dialog.ask c fun r => (rest r).bind fun _ => commitBlock).run lmdb t
    rw [Dialog.run_ask]
    rcases ht : lmdb c t with ⟨stop | r', t'⟩ <;> rw [ht] at hreply
    · cases hreply
    · obtain rfl := Except.ok.inj hreply
      rfl
  · obtain ⟨hr, rfl⟩ := Prod.mk.inj (hanswer.symm.trans hfull)
    obtain rfl := Except.ok.inj hr
    exact ⟨rfl, rfl, .dropping howner (((hd.2 _).2 hput rfl).bind _)⟩

/-- The commit. -/
theorem answered_commit {t t₀ : Store} (howner : s.owner = some k) (halike : Alike t s.store)
    (htables : t₀.tables = s.store.tables) (htxn : t₀.txn = none)
    (hrun : commitBlock.run lmdb t = (indexBlock sha256 s.mode blk).run lmdb t₀)
    (hanswer : answer full .txnCommit s.store = (.ok r, store)) :
    Answered sha256 s (s.made k blk .txnCommit store) k blk counting := by
  obtain ⟨howned, hothers, ⟨hcommitted, -⟩ | ⟨hcommitted, hp, -, hadd⟩⟩ :=
    advanced_commit howner halike htables htxn hrun hanswer
  · cases List.self_eq_append_right.mp (hcommitted.symm.trans rfl)
  · exact ⟨howned, hothers, .inr ⟨hcommitted, hp, hadd⟩⟩

/-- The transaction is aborted. -/
theorem answered_abort (howner : s.owner = some k) (hp : Drops (.ask .txnAbort rest : Prog Unit))
    (hanswer : answer full .txnAbort s.store = (.ok r, store)) :
    Answered sha256 s (s.made k blk .txnAbort store) k blk (rest r) := by
  obtain ⟨-, rfl⟩ := Prod.mk.inj hanswer
  refine ⟨fun _ => rfl, fun j hj => untouched_of_ne rfl (owner_ne howner hj) ?_, .inl ?_⟩
  · simp [made]
  · exact ⟨rfl, rfl, .dropped (hp r)⟩

/-- A call of `IncreaseMapSize`, also while another worker has a transaction. -/
theorem answered_resize (hs : Owned s) (hp : Dropping (.ask c rest : Prog Unit))
    (hanswer : answer full c s.store = (.ok r, store)) :
    Answered sha256 s (s.made k blk c store) k blk (rest r) := by
  have heffect : (s.made k blk c store).owner = s.owner ∧
      (s.made k blk c store).committed = s.committed ∧ Alike s.store store := by
    cases c with
    | setMapsize size =>
      obtain ⟨-, rfl⟩ := Prod.mk.inj hanswer
      refine ⟨rfl, rfl, ?_⟩
      change Alike s.store (lmdb (.setMapsize size) s.store).2
      rw [lmdb]
      split_ifs <;> exact ⟨rfl, rfl⟩
    | lockResize | unlockResize | envInfo =>
      obtain ⟨-, rfl⟩ := Prod.mk.inj hanswer
      exact ⟨rfl, rfl, rfl, rfl⟩
    | _ => cases hp.1
  obtain ⟨howner, hcommitted, halike⟩ := heffect
  refine ⟨fun h => ?_, fun j hj => ⟨made_mode _ _ _ _ _, by rw [howner], fun _ => ?_⟩,
    .inl ⟨hcommitted, ?_, .dropped (hp.2 r)⟩⟩
  · rw [made_store, ← halike.2]
    exact hs (howner.symm.trans h)
  · rw [made_store]
    exact halike
  · rw [made_store, halike.1]

/-- **A call within an attempt** takes it on, drops it or commits it. -/
theorem Attempting.answered (h : Attempting sha256 s k blk (.ask c rest)) (hs : Owned s)
    (hwaits : s.waits c = false) (hanswer : answer full c s.store = (.ok r, store)) :
    Answered sha256 s (s.made k blk c store) k blk (rest r) := by
  generalize hp : (.ask c rest : Prog Unit) = p at h
  cases h with
  | before =>
    obtain ⟨rfl, -⟩ := Dialog.ask.inj (hp.trans (indexBlock_ask _ _ _))
    exact answered_begin hs hwaits hanswer hp.symm
  | @inside d t t₀ howner hd halike htables htxn hrun =>
    cases d with
    | done u =>
      obtain ⟨rfl, hrest⟩ := Dialog.ask.inj hp
      obtain rfl := eq_of_heq hrest
      exact answered_commit howner halike htables htxn hrun hanswer
    | fail stop => cases hp
    | ask c' rest' =>
      obtain ⟨rfl, hrest⟩ := Dialog.ask.inj hp
      obtain rfl := eq_of_heq hrest
      exact answered_inner howner hd halike htables htxn hrun hanswer
  | dropping howner hp' =>
    subst hp
    cases c with
    | txnAbort => exact answered_abort howner hp' hanswer
    | _ => exact hp'.elim
  | dropped hp' =>
    subst hp
    exact answered_resize hs hp' hanswer

/-! ## What a step of a worker does -/

variable {files : List Bytes}

/-- What becomes of the list of files, of what is committed and of what the worker owes, which may
be given up. -/
inductive Change (sha256 : Bytes → UInt256) (files : List Bytes) (s s' : Pool) (k : ℕ)
    (w w' : Position) : Prop
  | quiet (pos : s'.pos_txo = s.pos_txo) (taken : s'.taken = s.taken)
      (committed : s'.committed = s.committed) (tables : s'.store.tables = s.store.tables)
      (owes : w'.owes.Sublist w.owes)
  | took {content : Bytes} (file : files[s.pos_txo]? = some content)
      (pos : s'.pos_txo = s.pos_txo + 1) (taken : s'.taken = s.taken ++ [⟨s.mode, s.pos_txo, k⟩])
      (committed : s'.committed = s.committed) (tables : s'.store.tables = s.store.tables)
      (owed : w.owes = []) (owes : w'.owes = blocksOf content)
  | commit {blk : CBlock} {v : View} (pos : s'.pos_txo = s.pos_txo) (taken : s'.taken = s.taken)
      (committed : s'.committed = s.committed ++ [(s.mode, blk)])
      (added : addBlock sha256 s.mode s.store.tables.opened blk = some v)
      (tables : s'.store.tables = v.tables) (owes : (blk :: w'.owes).Sublist w.owes)

/-- A step of the worker `k`, from `w` to `w'`. -/
structure Shifts (sha256 : Bytes → UInt256) (files : List Bytes) (s s' : Pool) (k : ℕ)
    (w w' : Position) : Prop where
  workers : s'.workers = s.workers.set k w'
  mode : s'.mode = s.mode
  owned : Owned s'
  others : ∀ j, j ≠ k → Untouched j s s'
  keeps : Keeps sha256 s' k w'
  change : Change sha256 files s s' k w w'

/-- A worker takes a file, or finds that there is none left. -/
theorem shifts_take (hs : Owned s) (hw : s.workers[k]? = some .idle)
    (h : step sha256 files (.take k) s = some s') :
    ∃ w', Shifts sha256 files s s' k .idle w' := by
  simp only [step, hw] at h
  cases hfile : files[s.pos_txo]? with
  | none =>
    simp only [hfile] at h
    obtain rfl := Option.some.inj h
    exact ⟨.finished, rfl, rfl, hs, fun j _ => untouched_move j s k _, trivial,
      .quiet rfl rfl rfl rfl (.refl _)⟩
  | some content =>
    simp only [hfile] at h
    obtain rfl := Option.some.inj h
    refine ⟨.reading (openBlockFile content), rfl, rfl, hs, fun j _ => ?_,
      ⟨_, openBlockFile_before content⟩,
      .took hfile rfl rfl rfl rfl rfl (left_eq (openBlockFile_before content))⟩
    exact ⟨rfl, Iff.rfl, fun _ => ⟨rfl, rfl⟩⟩

/-- A worker makes a pass over its file. -/
theorem shifts_pass (hs : Owned s) (hw : s.workers[k]? = some (.reading bf))
    (hkeeps : Keeps sha256 s k (.reading bf)) (h : step sha256 files (.pass k) s = some s') :
    ∃ w', Shifts sha256 files s s' k (.reading bf) w' := by
  obtain ⟨rest, hbefore⟩ := hkeeps
  have hshifts {w' : Position} (hkeeps : Keeps sha256 s k w')
      (howes : w'.owes.Sublist (left bf)) :
      Shifts sha256 files s (s.move k w') k (.reading bf) w' :=
    ⟨rfl, rfl, hs, fun j _ => untouched_move j s k w', hkeeps.untouched (untouched_move k s k w'),
      .quiet rfl rfl rfl rfl howes⟩
  simp only [step, hw] at h
  cases heof : bf.eof with
  | true =>
    have hleave : scanStep bf = (.leave, bf) := by rw [scanStep, if_pos heof]
    simp only [hleave] at h
    obtain rfl := Option.some.inj h
    exact ⟨.idle, hshifts trivial (List.nil_sublist _)⟩
  | false =>
    obtain ⟨bf', hstep, hbefore', -⟩ := scanStep_pass hbefore heof
    have hleft := left_eq hbefore
    rw [blocksOf_pass rest, ← left_eq hbefore'] at hleft
    simp only [hstep] at h
    cases hpass : (scanPass rest).1 with
    | leave =>
      simp only [hpass] at h
      obtain rfl := Option.some.inj h
      exact ⟨.idle, hshifts trivial (List.nil_sublist _)⟩
    | again =>
      simp only [hpass] at h hleft
      obtain rfl := Option.some.inj h
      refine ⟨.reading bf', hshifts ⟨_, hbefore'⟩ ?_⟩
      rw [hleft]
      exact .refl _
    | block blk =>
      simp only [hpass] at h hleft
      obtain rfl := Option.some.inj h
      refine ⟨_, hshifts ⟨⟨_, hbefore'⟩, .inl .before⟩ ?_⟩
      rw [hleft, owes_indexBlock]

/-- A worker makes a call. -/
theorem shifts_call (hs : Owned s) (hw : s.workers[k]? = some (.indexing bf blk p))
    (hkeeps : Keeps sha256 s k (.indexing bf blk p))
    (h : step sha256 files (.call k full) s = some s') :
    ∃ w', Shifts sha256 files s s' k (.indexing bf blk p) w' := by
  obtain ⟨hbefore, hattempt⟩ := hkeeps
  cases p with
  | done u =>
    simp only [step, hw] at h
    cases h
  | fail stop =>
    simp only [step, hw] at h
    cases h
  | ask c rest =>
    simp only [step, hw] at h
    split_ifs at h with hwaits
    replace hwaits := Bool.eq_false_iff.mpr hwaits
    obtain ⟨r, store, hanswer⟩ := answer_ok hs hwaits full
    simp only [hanswer] at h
    obtain rfl := Option.some.inj h
    obtain ⟨hworkers, hpos, htaken, -⟩ := made_spec s k blk c store
    have hmode := made_mode s k blk c store
    have hshifts {w' : Position} (howned : Owned (s.made k blk c store))
        (hothers : ∀ j, j ≠ k → Untouched j s (s.made k blk c store))
        (hkeeps : Keeps sha256 (s.made k blk c store) k w')
        (hchange : Change sha256 files s ((s.made k blk c store).move k w') k
          (.indexing bf blk (.ask c rest)) w') :
        Shifts sha256 files s ((s.made k blk c store).move k w') k
          (.indexing bf blk (.ask c rest)) w' :=
      ⟨by rw [move, hworkers], hmode, howned,
        fun j hj => (hothers j hj).trans (untouched_move j _ k w'),
        hkeeps.untouched (untouched_move k _ k w'), hchange⟩
    obtain hattempt | hp := hattempt
    · obtain ⟨howned, hothers, hblock⟩ := hattempt.answered hs hwaits hanswer
      have howes : (Position.indexing bf blk (.ask c rest)).owes = blk :: left bf := by
        obtain ⟨stop, hp⟩ | ⟨c', rest', hp, hc'⟩ := hattempt.spec
        · cases hp
        · rw [hp]
          exact owes_ask hc' rest'
      obtain ⟨hcommitted, htables, hattempt'⟩ | ⟨hcommitted, hp, v, hadd, hv⟩ := hblock
      · obtain ⟨hkeeps, howes'⟩ := hattempt'.settle hbefore
        rw [hmode] at hkeeps howes'
        exact ⟨_, hshifts howned hothers hkeeps
          (.quiet hpos htaken hcommitted htables (howes ▸ howes'))⟩
      · rw [hp]
        refine ⟨_, hshifts howned hothers ⟨hbefore, .inr rfl⟩
          (.commit hpos htaken hcommitted hadd hv ?_)⟩
        rw [howes]
        exact .refl _
    · -- The commit has been made: the block is counted, and the worker goes on reading.
      obtain ⟨rfl, hrest⟩ := Dialog.ask.inj hp
      obtain rfl := eq_of_heq hrest
      obtain ⟨hr, rfl⟩ := Prod.mk.inj hanswer
      exact ⟨_, hshifts hs (fun j _ => ⟨rfl, Iff.rfl, fun _ => ⟨rfl, rfl⟩⟩) hbefore
        (.quiet rfl rfl rfl rfl (.refl _))⟩

/-! ## The invariant -/

variable {tables : Tables}

/-- In a phase the files are taken from the front, and what has been committed, together with what
is still owed, is part of them. -/
structure Tracked (files : List Bytes) (s : Pool) (mode m : ℕ) : Prop where
  taken : s.takenIn mode = List.range m
  le : m ≤ files.length
  now : mode = s.mode → m = s.pos_txo
  later : s.mode < mode → m = 0
  blocks : (s.committedIn mode ++ s.owed mode).Subperm ((files.take m).flatMap blocksOf)

/-- What holds in every order of the steps, whatever goes wrong. -/
structure Intact (sha256 : Bytes → UInt256) (files : List Bytes) (tables : Tables) (s : Pool) :
    Prop where
  owned : Owned s
  keeps : ∀ k w, s.workers[k]? = some w → Keeps sha256 s k w
  tracked : ∀ mode, ∃ m, Tracked files s mode m
  stored : Stored sha256 tables s

/-- Another phase is not touched. -/
theorem Tracked.other {mode m : ℕ} (h : Tracked files s mode m)
    (hm : Shifts sha256 files s s' k w w') (hmode : mode ≠ s.mode) : Tracked files s' mode m := by
  have hmode' : mode ≠ s'.mode := hm.mode ▸ hmode
  have hlog : s'.takenIn mode = s.takenIn mode ∧ s'.committedIn mode = s.committedIn mode := by
    cases hm.change with
    | quiet _ taken committed => exact ⟨by rw [takenIn, takenIn, taken], by
        rw [committedIn, committedIn, committed]⟩
    | took _ _ taken committed =>
      rw [takenIn_concat taken, if_neg hmode.symm, List.append_nil]
      exact ⟨rfl, by rw [committedIn, committedIn, committed]⟩
    | commit _ taken committed =>
      rw [committedIn_concat committed, if_neg hmode.symm, List.append_nil]
      exact ⟨by rw [takenIn, takenIn, taken], rfl⟩
  refine ⟨hlog.1.trans h.taken, h.le, fun heq => absurd heq hmode', ?_, ?_⟩
  · rw [hm.mode]
    exact h.later
  · have hblocks := h.blocks
    rw [owed, if_neg hmode] at hblocks
    rw [hlog.2, owed, if_neg hmode']
    exact hblocks

/-- The phase that the workers are in. -/
theorem Tracked.same {m : ℕ} (h : Tracked files s s.mode m) (hw : s.workers[k]? = some w)
    (hm : Shifts sha256 files s s' k w w') : ∃ m', Tracked files s' s'.mode m' := by
  obtain ⟨before, after, howes, howes'⟩ := flatMap_owes_set hw w'
  have hblocks := h.blocks
  have hpos := h.now rfl
  rw [owed_mode, howes] at hblocks
  rw [← hm.workers] at howes'
  rw [hm.mode]
  have howed' : s'.owed s.mode = before ++ w'.owes ++ after := by
    rw [← hm.mode, owed_mode, howes']
  cases hm.change with
  | quiet pos taken committed _ owes =>
    refine ⟨m, ?_, h.le, fun _ => hpos.trans pos.symm, fun hlt => ?_, ?_⟩
    · rw [takenIn, taken]
      exact h.taken
    · exact absurd (hm.mode ▸ hlt) (lt_irrefl _)
    · rw [howed', committedIn, committed]
      refine List.Subperm.trans (List.Sublist.subperm ?_) hblocks
      exact (((owes.append_left before).append_right after)).append_left _
  | @took content file pos taken committed _ owed owes =>
    obtain ⟨hlt, hcontent⟩ := List.getElem?_eq_some_iff.mp file
    subst hpos
    refine ⟨s.pos_txo + 1, ?_, hlt, fun _ => pos.symm, fun hlt => ?_, ?_⟩
    · rw [takenIn_concat taken, if_pos rfl, h.taken, List.range_succ]
    · exact absurd (hm.mode ▸ hlt) (lt_irrefl _)
    · rw [howed', owes, committedIn, committed, List.take_add_one, file, List.flatMap_append,
        Option.toList_some, List.flatMap_singleton]
      rw [owed, List.append_nil] at hblocks
      refine List.Subperm.trans ?_ ((List.subperm_append_right (blocksOf content)).mpr hblocks)
      refine List.Perm.subperm ?_
      simp only [committedIn, List.append_assoc]
      exact ((List.perm_append_comm).append_left _).append_left _
  | @commit blk v pos taken committed _ _ owes =>
    refine ⟨m, ?_, h.le, fun _ => hpos.trans pos.symm, fun hlt => ?_, ?_⟩
    · rw [takenIn, taken]
      exact h.taken
    · exact absurd (hm.mode ▸ hlt) (lt_irrefl _)
    · rw [howed', committedIn_concat committed, if_pos rfl]
      refine List.Subperm.trans ?_ hblocks
      refine List.Subperm.trans (List.Perm.subperm ?_)
        (List.Sublist.subperm (((owes.append_left before).append_right after).append_left _))
      simp only [List.append_assoc, List.cons_append, List.nil_append]
      exact (List.perm_middle.symm).append_left _

/-- A block that is committed is added to the tables. -/
theorem Stored.shifts (h : Stored sha256 tables s) (hm : Shifts sha256 files s s' k w w') :
    Stored sha256 tables s' := by
  obtain ⟨v, hfold, hv⟩ := h
  cases hm.change with
  | quiet _ _ committed htables | took _ _ _ committed htables =>
    exact ⟨v, committed ▸ hfold, htables ▸ hv⟩
  | @commit blk v' _ _ committed added htables =>
    refine ⟨v', ?_, ?_⟩
    · rw [committed, List.foldlM_append, hfold]
      rw [hv] at added
      change (do let v'' ← addBlock sha256 s.mode v blk; some v'') = some v'
      rw [added]
      rfl
    · rw [htables]
      exact opened_tables (addBlock_dcmp added)

/-- **A step of a worker** leaves the tables made of whole blocks. -/
theorem Intact.shifts (h : Intact sha256 files tables s) (hw : s.workers[k]? = some w)
    (hm : Shifts sha256 files s s' k w w') : Intact sha256 files tables s' := by
  have hk : k < s.workers.length := (List.getElem?_eq_some_iff.mp hw).1
  refine ⟨hm.owned, fun j wj hj => ?_, fun mode => ?_, h.stored.shifts hm⟩
  · rw [hm.workers] at hj
    by_cases hjk : j = k
    · subst hjk
      rw [List.getElem?_set_self hk] at hj
      exact Option.some.inj hj ▸ hm.keeps
    · rw [List.getElem?_set_ne (Ne.symm hjk)] at hj
      exact (h.keeps j wj hj).untouched (hm.others j hjk)
  · by_cases hmode : mode = s.mode
    · obtain ⟨m, htracked⟩ := h.tracked s.mode
      rw [hmode, ← hm.mode]
      exact htracked.same hw hm
    · obtain ⟨m, htracked⟩ := h.tracked mode
      exact ⟨m, htracked.other hm hmode⟩

/-- The step of an action by a worker. -/
theorem Intact.shifts_step {a : PoolAction} (h : Intact sha256 files tables s)
    (hstep : step sha256 files a s = some s') :
    a = .join ∨ ∃ k w w', s.workers[k]? = some w ∧ Shifts sha256 files s s' k w w' := by
  cases a with
  | join => exact .inl rfl
  | take k =>
    obtain ⟨w, hw, hw'⟩ : ∃ w, s.workers[k]? = some w ∧ w = .idle := by
      rw [step] at hstep
      split at hstep
      · exact ⟨_, ‹_›, rfl⟩
      · cases hstep
    subst hw'
    obtain ⟨w', hm⟩ := shifts_take h.owned hw hstep
    exact .inr ⟨k, _, w', hw, hm⟩
  | pass k =>
    obtain ⟨bf, hw⟩ : ∃ bf, s.workers[k]? = some (.reading bf) := by
      rw [step] at hstep
      split at hstep
      · exact ⟨_, ‹_›⟩
      · cases hstep
    obtain ⟨w', hm⟩ := shifts_pass h.owned hw (h.keeps k _ hw) hstep
    exact .inr ⟨k, _, w', hw, hm⟩
  | call k full =>
    obtain ⟨bf, blk, p, hw⟩ : ∃ bf blk p, s.workers[k]? = some (.indexing bf blk p) := by
      rw [step] at hstep
      split at hstep
      · exact ⟨_, _, _, ‹_›⟩
      · cases hstep
    obtain ⟨w', hm⟩ := shifts_call h.owned hw (h.keeps k _ hw) hstep
    exact .inr ⟨k, _, w', hw, hm⟩

/-- A worker whose thread has ended owes nothing. -/
theorem owes_of_ended (h : w.ended = true) : w.owes = [] := by
  cases w with
  | finished | gaveUp => rfl
  | idle | reading | indexing => cases h

/-- **The end of a phase** leaves the tables made of whole blocks. -/
theorem Intact.join (h : Intact sha256 files tables s)
    (hstep : step sha256 files .join s = some s') : Intact sha256 files tables s' := by
  simp only [step] at hstep
  split_ifs at hstep with hall hmode
  · obtain rfl := Option.some.inj hstep
    have hended (mode : ℕ) : s.owed mode = [] :=
      owed_of_none (fun w hw => owes_of_ended (List.all_eq_true.mp hall w hw)) mode
    have hidle {w : Position} (hmem : w ∈ s.workers.map fun _ => Position.idle) : w = .idle := by
      obtain ⟨_, -, rfl⟩ := List.mem_map.mp hmem
      rfl
    refine ⟨h.owned, fun k w hk => ?_, fun mode => ?_, h.stored⟩
    · rw [hidle (List.mem_of_getElem? hk)]
      trivial
    · obtain ⟨m, htracked⟩ := h.tracked mode
      have hblocks := htracked.blocks
      rw [hended] at hblocks
      refine ⟨m, htracked.taken, htracked.le, fun hone => ?_, fun hlt => ?_, ?_⟩
      · exact htracked.later (by rw [hmode, show mode = 1 from hone]; exact Nat.one_pos)
      · exact htracked.later (by rw [hmode]; exact lt_trans Nat.one_pos hlt)
      · rw [owed_of_none fun w hw => by rw [hidle hw]; rfl]
        exact hblocks
  · obtain rfl := Option.some.inj hstep
    refine ⟨h.owned, fun k w hk => ?_, fun mode => ?_, h.stored⟩
    · exact (h.keeps k w hk).untouched ⟨rfl, Iff.rfl, fun _ => ⟨rfl, rfl⟩⟩
    · obtain ⟨m, htracked⟩ := h.tracked mode
      exact ⟨m, htracked.taken, htracked.le, htracked.now, htracked.later, htracked.blocks⟩

/-! ## Every run -/

theorem start_intact (sha256 : Bytes → UInt256) (files : List Bytes) (n : ℕ) (tables : Tables)
    (mapsize : ℕ) : Intact sha256 files tables (start n tables mapsize) := by
  have hidle {w : Position} (hmem : w ∈ List.replicate n Position.idle) : w = .idle :=
    List.eq_of_mem_replicate hmem
  refine ⟨fun _ => rfl, fun k w hk => ?_, fun mode => ⟨0, rfl, Nat.zero_le _, fun _ => rfl,
    fun _ => rfl, ?_⟩, _, rfl, rfl⟩
  · rw [hidle (List.mem_of_getElem? hk)]
    trivial
  · rw [owed_of_none fun w hw => by rw [hidle hw]; rfl]
    exact .refl _

/-- **Whole blocks only.** In each phase the files have been taken from the front, each once, and
the blocks that have been committed are blocks of those files, none more often than they have it.
The committed tables are what adding these blocks to the tables of the start makes. -/
structure Atomic (sha256 : Bytes → UInt256) (files : List Bytes) (tables : Tables) (s : Pool) :
    Prop where
  phases : ∀ mode, ∃ m ≤ files.length, s.takenIn mode = List.range m ∧
    (s.committedIn mode).Subperm ((files.take m).flatMap blocksOf)
  stored : Stored sha256 tables s

theorem Intact.atomic (h : Intact sha256 files tables s) : Atomic sha256 files tables s where
  phases mode := by
    obtain ⟨m, htracked⟩ := h.tracked mode
    refine ⟨m, htracked.le, htracked.taken, ?_⟩
    exact (List.sublist_append_left _ _).subperm.trans htracked.blocks
  stored := h.stored

theorem intact_always (sha256 : Bytes → UInt256) (files : List Bytes) (n : ℕ) (tables : Tables)
    (mapsize : ℕ) (as : List PoolAction) :
    Always (step sha256 files) (Intact sha256 files tables) (start n tables mapsize) as := by
  refine always_of_throughout (A := fun _ => True) (C := fun _ _ => True) ?_
    (always_of_forall fun _ => trivial) (start_intact sha256 files n tables mapsize)
    (throughout_of_forall fun _ _ _ => trivial)
  intro a s s' h _ hstep _ _
  obtain rfl | ⟨k, w, w', hw, hm⟩ := h.shifts_step hstep
  · exact h.join hstep
  · exact h.shifts hw hm

/-- **The committed tables are made of whole blocks** in every state of every run: with any number
of workers in any order, any files and tables, any puts that find the map full, resizes that meet a
transaction, and workers that give up. -/
theorem atomic_always (sha256 : Bytes → UInt256) (files : List Bytes) (n : ℕ) (tables : Tables)
    (mapsize : ℕ) (as : List PoolAction) :
    Always (step sha256 files) (Atomic sha256 files tables) (start n tables mapsize) as :=
  (intact_always sha256 files n tables mapsize as).mono fun _ => Intact.atomic

end Pool

end ElectrumZ.Blockchain
