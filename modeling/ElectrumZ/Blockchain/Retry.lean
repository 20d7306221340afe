import ElectrumZ.Blockchain.Preload

/-!
# A map that fills up

`filling` is an LMDB whose map is full at puts that a plan picks out, in the first attempt at a
block and in later ones. Each time the worker aborts its transaction, enlarges the map and starts
the block over.

* `Follows`: part of an attempt ends as it would with `lmdb`, or goes back to `try_block_again` with
  nothing committed and less of the plan left.
* `loadBlock_filling`: so a block ends as if no put had found the map full.
-/

namespace ElectrumZ.Blockchain

open Foundations Bitcoin

/-! ## The environment -/

/-- The next put of the plan finds the map full, or is made. -/
def planned (c : Call) : Store × List Bool → Except Stop Reply × (Store × List Bool)
  | (s, true :: plan) => (.ok { code := MDB_MAP_FULL }, (s, plan))
  | (s, false :: plan) => ((lmdb c s).1, ((lmdb c s).2, plan))
  | (s, []) => ((lmdb c s).1, ((lmdb c s).2, []))

/-- LMDB with a plan of the puts that find the map full. -/
def filling : Dialog.Handler Call (fun _ => Reply) Stop (Store × List Bool)
  | .put dbi key val, s => planned (.put dbi key val) s
  | .cursorPut dbi key val, s => planned (.cursorPut dbi key val) s
  | c, (s, plan) => ((lmdb c s).1, ((lmdb c s).2, plan))

/-! ## Stores that differ in size -/

/-- The stores have the same tables and the same transaction. -/
def Alike (s t : Store) : Prop := s.tables = t.tables ∧ s.txn = t.txn

variable {s t : Store} {plan : List Bool} {c : Call}

theorem inTxn_alike (h : Alike s t) (f : Tables → ℤ × Tables) :
    (s.inTxn f).1 = (t.inTxn f).1 ∧ Alike (s.inTxn f).2 (t.inTxn f).2 := by
  rw [Store.inTxn, Store.inTxn, h.2]
  cases t.txn with
  | none => exact ⟨rfl, h⟩
  | some ts => exact ⟨rfl, h.1, rfl⟩

/-- All calls but one go alike on stores that are alike. -/
theorem lmdb_alike (h : Alike s t) (hc : c ≠ .envInfo) :
    (lmdb c s).1 = (lmdb c t).1 ∧ Alike (lmdb c s).2 (lmdb c t).2 := by
  cases c with
  | envInfo => exact absurd rfl hc
  | dbiOpen | setDupsort | put | cursorPut | stat => exact inTxn_alike h _
  | txnBegin | setMapsize | txnCommit | get =>
    obtain ⟨tables, txn, map, tx, blk⟩ := s
    obtain ⟨tables', txn', map', tx', blk'⟩ := t
    obtain ⟨rfl, rfl⟩ : tables = tables' ∧ txn = txn' := h
    cases txn <;> exact ⟨rfl, rfl, rfl⟩
  | tally what => cases what <;> exact ⟨rfl, h⟩
  | txnAbort => exact ⟨rfl, h.1, rfl⟩
  | _ => exact ⟨rfl, h⟩

/-- Only a commit changes what is committed. -/
theorem lmdb_tables (hc : c ≠ .txnCommit) : (lmdb c s).2.tables = s.tables := by
  obtain ⟨tables, txn, map, tx, blk⟩ := s
  cases c with
  | txnCommit => exact absurd rfl hc
  | tally what => cases what <;> rfl
  | _ => cases txn <;> rfl

/-! ## Parts of an attempt -/

variable {α β : Type}

/-- Part of an attempt, from stores that are alike: it ends as with `lmdb` and commits nothing, or
goes back to `try_block_again` with less of the plan. -/
def FollowsAt (d : Prog α) (s t : Store) (plan : List Bool) : Prop :=
  (∃ s' plan', d.run filling (s, plan) = ((d.run lmdb t).1, (s', plan')) ∧
    Alike s' (d.run lmdb t).2 ∧ s'.tables = s.tables ∧ plan'.length ≤ plan.length) ∨
  ∃ s' plan', d.run filling (s, plan) = (.error .again, (s', plan')) ∧
    s'.tables = s.tables ∧ s'.txn = none ∧ plan'.length < plan.length

/-- So it does from wherever the stores are alike. -/
def Follows (d : Prog α) : Prop := ∀ s t plan, Alike s t → FollowsAt d s t plan

theorem follows_pure (a : α) : Follows (pure a : Prog α) :=
  fun s _ plan h => .inl ⟨s, plan, rfl, h, rfl, le_refl _⟩

theorem follows_fail (stop : Stop) : Follows (.fail stop : Prog α) :=
  fun s _ plan h => .inl ⟨s, plan, rfl, h, rfl, le_refl _⟩

theorem Follows.bind {d : Prog α} {f : α → Prog β} (hd : Follows d) (hf : ∀ a, Follows (f a)) :
    Follows (d >>= f) := by
  intro s t plan h
  obtain ⟨s₁, plan₁, hrun, h₁, htables₁, hlen₁⟩ | ⟨s₁, plan₁, hrun, hagain⟩ := hd s t plan h
  · rcases ht : d.run lmdb t with ⟨stop | a, t₁⟩ <;> rw [ht] at hrun h₁
    · refine .inl ⟨s₁, plan₁, ?_, ?_, htables₁, hlen₁⟩
      · rw [Dialog.run_bind_of_error hrun, Dialog.run_bind_of_error ht]
      · rw [Dialog.run_bind_of_error ht]
        exact h₁
    · rw [FollowsAt, Dialog.run_bind_of_ok hrun, Dialog.run_bind_of_ok ht]
      obtain ⟨s', plan', hrun', h', htables', hlen'⟩ | ⟨s', plan', hrun', htables', htxn', hlen'⟩ :=
        hf a s₁ t₁ plan₁ h₁
      · exact .inl ⟨s', plan', hrun', h', htables'.trans htables₁, hlen'.trans hlen₁⟩
      · exact .inr ⟨s', plan', hrun', htables'.trans htables₁, htxn', by omega⟩
  · exact .inr ⟨s₁, plan₁, Dialog.run_bind_of_error hrun f, hagain⟩

/-- A call that is made as with `lmdb`, and what follows by its code. -/
theorem followsAt_call {f : ℤ → Prog α} {plan' : List Bool} (h : Alike s t)
    (hinfo : c ≠ .envInfo) (hcommit : c ≠ .txnCommit)
    (hmade : filling c (s, plan) = ((lmdb c s).1, ((lmdb c s).2, plan')))
    (hlen : plan'.length ≤ plan.length) (hf : ∀ err, Follows (f err)) :
    FollowsAt (call c >>= f) s t plan := by
  obtain ⟨hreply, halike⟩ := lmdb_alike h hinfo
  have htables : (lmdb c s).2.tables = s.tables := lmdb_tables hcommit
  rw [hreply] at hmade
  rcases ht : lmdb c t with ⟨stop | r, t₁⟩ <;> rw [ht] at hmade halike
  · have hs : (call c).run filling (s, plan) = (.error stop, ((lmdb c s).2, plan')) := by
      rw [call, Dialog.run_bind, Dialog.run_query, hmade]
    have ht' : (call c).run lmdb t = (.error stop, t₁) := by
      rw [call, Dialog.run_bind, Dialog.run_query, ht]
    refine .inl ⟨(lmdb c s).2, plan', ?_, ?_, htables, hlen⟩
    · rw [Dialog.run_bind_of_error hs, Dialog.run_bind_of_error ht']
    · rw [Dialog.run_bind_of_error ht']
      exact halike
  · have hs : (call c).run filling (s, plan) = (.ok r.code, ((lmdb c s).2, plan')) := by
      rw [call, Dialog.run_bind, Dialog.run_query, hmade]
      rfl
    rw [FollowsAt, Dialog.run_bind_of_ok hs, Dialog.run_bind_of_ok (run_call ht)]
    obtain ⟨s', plan'', hrun, h', htables', hlen'⟩ | ⟨s', plan'', hrun, htables', htxn', hlen'⟩ :=
      hf r.code _ t₁ plan' halike
    · exact .inl ⟨s', plan'', hrun, h', htables'.trans htables, hlen'.trans hlen⟩
    · exact .inr ⟨s', plan'', hrun, htables'.trans htables, htxn', by omega⟩

/-- The calls that are made whatever the plan says. -/
def Call.unplanned : Call → Bool
  | .put _ _ _ | .cursorPut _ _ _ => false
  | _ => true

theorem follows_call_bind {f : ℤ → Prog α} (hc : c.unplanned = true) (hinfo : c ≠ .envInfo)
    (hcommit : c ≠ .txnCommit) (hf : ∀ err, Follows (f err)) : Follows (call c >>= f) := by
  intro s t plan h
  have hmade : filling c (s, plan) = ((lmdb c s).1, ((lmdb c s).2, plan)) := by
    cases c <;> first | rfl | exact nomatch hc
  exact followsAt_call h hinfo hcommit hmade (le_refl _) hf

/-- The map is enlarged, unless a transaction is open. -/
theorem run_increaseMapSize (s : Store) (plan : List Bool) : ∃ m,
    increaseMapSize.run lmdb s =
      (.ok (if s.txn.isSome then EINVAL else TXO_RESIZED), { s with mapsize := m }) ∧
    increaseMapSize.run filling (s, plan) =
      (.ok (if s.txn.isSome then EINVAL else TXO_RESIZED), ({ s with mapsize := m }, plan)) := by
  obtain ⟨tables, _ | txn, map, tx, blk⟩ := s
  · exact ⟨_, rfl, rfl⟩
  · exact ⟨_, rfl, rfl⟩

theorem follows_increaseMapSize : Follows increaseMapSize := by
  intro s t plan h
  obtain ⟨m, -, hs⟩ := run_increaseMapSize s plan
  obtain ⟨m', ht, -⟩ := run_increaseMapSize t plan
  refine .inl ⟨{ s with mapsize := m }, plan, ?_, ?_, rfl, le_refl _⟩
  · rw [hs, ht, h.2]
  · rw [ht]
    exact h

theorem follows_tryBlockAgain : Follows tryBlockAgain := by
  refine follows_call_bind rfl nofun nofun fun _ => follows_increaseMapSize.bind fun err => ?_
  split_ifs
  · exact follows_fail _
  · exact follows_fail _

/-- A put that finds the map full goes back to `try_block_again`. -/
theorem run_tryBlockAgain (s : Store) (plan : List Bool) : ∃ m,
    tryBlockAgain.run filling (s, plan) =
      (.error .again, ({ s with txn := none, mapsize := m }, plan)) :=
  ⟨_, rfl⟩

/-- A put, and what follows by its code. -/
theorem follows_put {f : ℤ → Prog Unit} (hc : c.unplanned = false) (hf : ∀ err, Follows (f err))
    (hfull : f MDB_MAP_FULL = tryBlockAgain) : Follows (call c >>= f) := by
  have hplanned (p : Store × List Bool) : filling c p = planned c p := by
    cases c <;> first | rfl | exact nomatch hc
  have hinfo : c ≠ .envInfo := by
    rintro rfl
    exact nomatch hc
  have hcommit : c ≠ .txnCommit := by
    rintro rfl
    exact nomatch hc
  intro s t plan h
  match plan with
  | [] => exact followsAt_call h hinfo hcommit (hplanned _) (le_refl _) hf
  | false :: plan => exact followsAt_call h hinfo hcommit (hplanned _) (Nat.le_succ _) hf
  | true :: plan =>
    obtain ⟨m, hrun⟩ := run_tryBlockAgain s plan
    refine .inr ⟨{ s with txn := none, mapsize := m }, plan, ?_, rfl, rfl, Nat.lt_succ_self _⟩
    have hcall : (call c).run filling (s, true :: plan) = (.ok MDB_MAP_FULL, (s, plan)) := by
      rw [call, Dialog.run_bind, Dialog.run_query, hplanned]
      rfl
    rw [Dialog.run_bind_of_ok hcall, hfull, hrun]

/-! ## An attempt -/

variable {sha256 : Bytes → UInt256}

theorem follows_putFailed (err : ℤ) : Follows (putFailed err) := by
  rw [putFailed]
  split_ifs
  · exact follows_tryBlockAgain
  · exact follows_fail _

theorem follows_indexOutput (txHash : UInt256) (n : ℕ) (ntxo : CTxOut) :
    Follows (indexOutput sha256 txHash n ntxo) := by
  refine follows_put rfl (fun err => ?_) rfl
  split_ifs
  · exact follows_tryBlockAgain
  · exact follows_pure ()
  · exact follows_fail _
  · refine follows_put rfl (fun err => ?_) rfl
    split_ifs
    · exact follows_putFailed err
    · exact follows_pure ()

theorem follows_indexOutputs (txHash : UInt256) (n : ℕ) (vout : List CTxOut) :
    Follows (indexOutputs sha256 txHash n vout) := by
  induction vout generalizing n with
  | nil => exact follows_pure ()
  | cons o vout ih => exact (follows_indexOutput txHash n o).bind fun _ => ih (n + 1)

theorem follows_indexTx (mode : ℕ) (tx : CTransaction) : Follows (indexTx sha256 mode tx) := by
  have hbody : Follows (indexInOut sha256 mode tx) := by
    rw [indexInOut]
    split_ifs
    · rw [spendInputs_eq]
      exact follows_pure ()
    · exact follows_indexOutputs _ 0 _
  refine follows_call_bind rfl (by simp) (by simp) fun _ => hbody.bind fun _ => ?_
  exact follows_call_bind rfl (by simp) (by simp) fun _ =>
    follows_call_bind rfl (by simp) (by simp) fun _ => follows_pure ()

theorem follows_indexTxs (mode : ℕ) (vtx : List CTransaction) :
    Follows (indexTxs sha256 mode vtx) := by
  induction vtx with
  | nil => exact follows_pure ()
  | cons tx vtx ih => exact (follows_indexTx mode tx).bind fun _ => ih

theorem follows_openTable (dbn : Dbi) (dupsort : Bool) : Follows (openTable dbn dupsort) := by
  refine follows_call_bind rfl nofun nofun fun err => ?_
  split_ifs
  · exact follows_increaseMapSize.bind fun err => follows_fail _
  · exact follows_fail _
  · exact follows_pure ()

theorem follows_check (err : ℤ) : Follows (check err) := by
  rw [check]
  split_ifs
  · exact follows_fail _
  · exact follows_pure ()

theorem follows_beginBlock : Follows beginBlock := by
  refine follows_call_bind rfl nofun nofun fun err => (follows_check err).bind fun _ => ?_
  refine (follows_openTable .txo true).bind fun _ => (follows_openTable .addr true).bind fun _ => ?_
  refine (follows_openTable .blk false).bind fun _ => ?_
  exact follows_call_bind rfl nofun nofun follows_check

theorem follows_putHeader (header : CBlockHeader) : Follows (putHeader sha256 header) := by
  refine follows_put rfl (fun err => ?_) rfl
  split_ifs
  · exact follows_putFailed err
  · exact follows_pure ()

/-- An attempt up to its commit. -/
def prepareBlock (sha256 : Bytes → UInt256) (mode : ℕ) (blk : CBlock) : Prog Unit := do
  beginBlock
  putHeader sha256 blk.header
  indexTxs sha256 mode blk.vtx

/-- The commit, which is counted. -/
def commitBlock : Prog Unit := do
  let _ ← call .txnCommit
  let _ ← call (.tally .block)

theorem indexBlock_eq (sha256 : Bytes → UInt256) (mode : ℕ) (blk : CBlock) :
    indexBlock sha256 mode blk = prepareBlock sha256 mode blk >>= fun _ => commitBlock := by
  rw [prepareBlock, Dialog.bind_assoc]
  refine congrArg (beginBlock >>= ·) (funext fun _ => ?_)
  rw [Dialog.bind_assoc]
  rfl

theorem run_commitBlock (plan : List Bool) (h : Alike s t) : ∃ s' t',
    commitBlock.run lmdb t = (.ok (), t') ∧
      commitBlock.run filling (s, plan) = (.ok (), (s', plan)) ∧ Alike s' t' := by
  have hcommit := (lmdb_alike (c := .txnCommit) h nofun).2
  exact ⟨_, _, rfl, rfl, (lmdb_alike (c := .tally .block) hcommit nofun).2⟩

/-- **An attempt goes as with `lmdb`, or starts over with less of the plan.** -/
theorem run_indexBlock_filling (sha256 : Bytes → UInt256) (mode : ℕ) (blk : CBlock)
    (plan : List Bool) (h : Alike s t) :
    (∃ s' plan', (indexBlock sha256 mode blk).run filling (s, plan) =
        (((indexBlock sha256 mode blk).run lmdb t).1, (s', plan')) ∧
      Alike s' ((indexBlock sha256 mode blk).run lmdb t).2) ∨
    ∃ s' plan', (indexBlock sha256 mode blk).run filling (s, plan) = (.error .again, (s', plan')) ∧
      s'.tables = s.tables ∧ s'.txn = none ∧ plan'.length < plan.length := by
  have hprepare : Follows (prepareBlock sha256 mode blk) :=
    follows_beginBlock.bind fun _ => (follows_putHeader _).bind fun _ => follows_indexTxs mode _
  rw [indexBlock_eq]
  obtain ⟨s₁, plan₁, hrun, h₁, -, -⟩ | ⟨s₁, plan₁, hrun, hagain⟩ := hprepare s t plan h
  · rcases ht : (prepareBlock sha256 mode blk).run lmdb t with ⟨stop | ⟨⟩, t₁⟩ <;>
      rw [ht] at hrun h₁
    · rw [Dialog.run_bind_of_error hrun, Dialog.run_bind_of_error ht]
      exact .inl ⟨s₁, plan₁, rfl, h₁⟩
    · rw [Dialog.run_bind_of_ok hrun, Dialog.run_bind_of_ok ht]
      obtain ⟨s', t', ht', hs', h'⟩ := run_commitBlock plan₁ h₁
      rw [ht', hs']
      exact .inl ⟨s', plan₁, rfl, h'⟩
  · exact .inr ⟨s₁, plan₁, Dialog.run_bind_of_error hrun _, hagain⟩

/-- With `lmdb` no attempt starts over. -/
theorem run_indexBlock_ne_again (sha256 : Bytes → UInt256) (mode : ℕ) (blk : CBlock)
    (t : Store) :
    ((indexBlock sha256 mode blk).run lmdb t).1 ≠ .error .again := by
  cases htxn : t.txn with
  | some ts =>
    have hblocked : (indexBlock sha256 mode blk).run lmdb t = (.error .blocked, t) := by
      obtain ⟨tables, txn, map, tx, nblk⟩ := t
      obtain rfl : txn = some ts := htxn
      rfl
    rw [hblocked]
    exact nofun
  | none =>
    cases hadd : addBlock sha256 mode t.tables.opened blk with
    | some v =>
      obtain ⟨t', hrun, -⟩ := run_indexBlock htxn hadd
      rw [hrun]
      exact nofun
    | none =>
      obtain ⟨t', hrun, -⟩ := run_indexBlock_none htxn hadd
      rw [hrun]
      exact nofun

/-! ## A block -/

/-- Both workers go on, or both give up for the same reason, and their stores are alike. -/
inductive SameEnd : Except (Stop × (Store × List Bool)) (Store × List Bool) →
    Except (Stop × Store) Store → Prop
  | ok {s t : Store} {plan : List Bool} (h : Alike s t) : SameEnd (.ok (s, plan)) (.ok t)
  | error {s t : Store} {plan : List Bool} {stop : Stop} (h : Alike s t) :
    SameEnd (.error (stop, (s, plan))) (.error (stop, t))

/-- Without a transaction that is open, one attempt with `lmdb` decides. -/
theorem exits_filling (sha256 : Bytes → UInt256) (mode : ℕ) (blk : CBlock) (plan : List Bool)
    (h : Alike s t) (ht : t.txn = none) :
    ∃ r, Exits (tryBlock filling sha256 mode blk) (s, plan) r ∧
      SameEnd r (loadBlock lmdb sha256 1 mode blk t) := by
  induction hn : plan.length using Nat.strong_induction_on generalizing s plan with
  | _ n ih =>
    obtain ⟨s₁, plan₁, hrun, h₁⟩ | ⟨s₁, plan₁, hrun, htables, htxn, hlen⟩ :=
      run_indexBlock_filling sha256 mode blk plan h
    · have hagain := run_indexBlock_ne_again sha256 mode blk t
      rcases ht : (indexBlock sha256 mode blk).run lmdb t with ⟨stop | ⟨⟩, t₁⟩ <;>
        rw [ht] at hrun h₁ hagain
      · have hstop : stop ≠ .again := fun hstop => hagain (congrArg Except.error hstop)
        refine ⟨_, .stop (tryBlock_error hstop hrun), ?_⟩
        rw [loadBlock, loop_succ_inr (tryBlock_error hstop ht)]
        exact .error h₁
      · refine ⟨_, .stop (tryBlock_ok hrun), ?_⟩
        rw [loadBlock, loop_succ_inr (tryBlock_ok ht)]
        exact .ok h₁
    · have h' : Alike s₁ t := ⟨htables.trans h.1, htxn.trans ht.symm⟩
      obtain ⟨r, hexits, hsame⟩ := ih plan₁.length (by omega) plan₁ h' rfl
      exact ⟨r, hexits.step (tryBlock_again hrun), hsame⟩

/-- From some number of retries on, a block ends in one way, which is that of `lmdb`. -/
theorem loadBlock_alike (sha256 : Bytes → UInt256) (mode : ℕ) (blk : CBlock) (plan : List Bool)
    (h : Alike s t) : ∃ n r,
      (∀ retries, n ≤ retries → loadBlock filling sha256 retries mode blk (s, plan) = r) ∧
        SameEnd r (loadBlock lmdb sha256 1 mode blk t) := by
  cases ht : t.txn with
  | none =>
    obtain ⟨r, hexits, hsame⟩ := exits_filling sha256 mode blk plan h ht
    obtain ⟨n, hn⟩ := hexits.eventually
    refine ⟨n, r, fun retries hle => ?_, hsame⟩
    rw [loadBlock, hn retries hle]
    rfl
  | some ts =>
    have hs : s.txn = some ts := h.2.trans ht
    have hfilling : (indexBlock sha256 mode blk).run filling (s, plan) =
        (.error .blocked, (s, plan)) := by
      obtain ⟨tables, txn, map, tx, nblk⟩ := s
      obtain rfl : txn = some ts := hs
      rfl
    have hlmdb : (indexBlock sha256 mode blk).run lmdb t = (.error .blocked, t) := by
      obtain ⟨tables, txn, map, tx, nblk⟩ := t
      obtain rfl : txn = some ts := ht
      rfl
    have hblocked : Stop.blocked ≠ .again := by decide
    refine ⟨1, .error (.blocked, (s, plan)), fun retries hle => ?_, ?_⟩
    · obtain ⟨retries, rfl⟩ : ∃ n, retries = n + 1 := ⟨retries - 1, by omega⟩
      rw [loadBlock, loop_succ_inr (tryBlock_error hblocked hfilling)]
      rfl
    · rw [loadBlock, loop_succ_inr (tryBlock_error hblocked hlmdb)]
      exact .error h

/-- What the tables make of the block has been committed, or nothing because one of them refuses a
pair of it. -/
inductive Commits (sha256 : Bytes → UInt256) (mode : ℕ) (blk : CBlock) (s : Store) :
    Except (Stop × (Store × List Bool)) (Store × List Bool) → Prop
  | taken {v : View} {s' : Store} {plan : List Bool}
      (h : addBlock sha256 mode s.tables.opened blk = some v) (htxn : s'.txn = none)
      (htables : s'.tables = v.tables) : Commits sha256 mode blk s (.ok (s', plan))
  | refused {s' : Store} {plan : List Bool}
      (h : addBlock sha256 mode s.tables.opened blk = none) (htables : s'.tables = s.tables) :
      Commits sha256 mode blk s (.error (.err MDB_KEYEXIST, (s', plan)))

/-- A block that ends as with `lmdb` commits what `lmdb` makes of it. -/
theorem SameEnd.commits {r : Except (Stop × (Store × List Bool)) (Store × List Bool)}
    (h : SameEnd r (loadBlock lmdb sha256 1 mode blk s)) (hs : s.txn = none) :
    Commits sha256 mode blk s r := by
  cases hadd : addBlock sha256 mode s.tables.opened blk with
  | some v =>
    obtain ⟨s', hrun, htxn, htables⟩ := loadBlock_of_addBlock 0 hs hadd
    rw [hrun] at h
    cases h with
    | ok halike => exact .taken hadd (halike.2.trans htxn) (halike.1.trans htables)
  | none =>
    obtain ⟨s', hrun, htables⟩ := run_indexBlock_none hs hadd
    have hne : Stop.err MDB_KEYEXIST ≠ .again := by decide
    rw [loadBlock, loop_succ_inr (tryBlock_error hne hrun)] at h
    cases h with
    | error halike => exact .refused hadd (halike.1.trans htables)

/-- **A full map makes no difference.** Whatever puts of a block find it full, in the first attempt
and in later ones, the block ends as if none had, with the same tables committed: what `addBlock`
makes of those there were. -/
theorem loadBlock_filling (sha256 : Bytes → UInt256) (mode : ℕ) (blk : CBlock) (plan : List Bool)
    (s : Store) : ∃ n, ∀ retries, n ≤ retries →
      SameEnd (loadBlock filling sha256 retries mode blk (s, plan))
        (loadBlock lmdb sha256 1 mode blk s) ∧
      (s.txn = none →
        Commits sha256 mode blk s (loadBlock filling sha256 retries mode blk (s, plan))) := by
  obtain ⟨n, r, hn, hsame⟩ := loadBlock_alike sha256 mode blk plan (⟨rfl, rfl⟩ : Alike s s)
  refine ⟨n, fun retries hle => ?_⟩
  rw [hn retries hle]
  exact ⟨hsame, hsame.commits⟩

/-- Nor does it over a whole run. -/
theorem loadBlocks_filling (sha256 : Bytes → UInt256) (mode : ℕ) (blks : List CBlock)
    (plan : List Bool) (h : Alike s t) : ∃ n, ∀ retries, n ≤ retries →
      SameEnd (loadBlocks filling sha256 retries mode blks (s, plan))
        (loadBlocks lmdb sha256 1 mode blks t) := by
  induction blks generalizing s t plan with
  | nil => exact ⟨0, fun _ _ => .ok h⟩
  | cons b blks ih =>
    obtain ⟨n, r, hn, hsame⟩ := loadBlock_alike sha256 mode b plan h
    simp only [loadBlocks, List.foldlM_cons] at ih ⊢
    generalize loadBlock lmdb sha256 1 mode b t = r' at hsame
    cases hsame with
    | error h' =>
      refine ⟨n, fun retries hle => ?_⟩
      rw [hn retries hle]
      exact .error h'
    | ok h' =>
      obtain ⟨n', hn'⟩ := ih _ h'
      refine ⟨max n n', fun retries hle => ?_⟩
      rw [hn retries (by omega)]
      exact hn' retries (by omega)

end ElectrumZ.Blockchain
