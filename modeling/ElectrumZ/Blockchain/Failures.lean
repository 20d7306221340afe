import ElectrumZ.Blockchain.Attempt

/-!
# A worker whose calls fail

* `loadBlocks_faulty`: a worker whose failures are handled drops no block and counts what it has
  committed.
* `honest_iff`: an attempt is honest exactly where its failures are handled, and so is a worker over
  any files: it drops no block that is found in them.
-/

namespace ElectrumZ.Blockchain

open Foundations Bitcoin Dialog

/-! ## What a worker leaves -/

/-- The map was found full since the last begin. -/
def foundFull (full : Bool) : Exchange Call (fun _ => Reply) → Bool
  | ⟨.txnBegin, r⟩ => r.code = MDB_MAP_FULL
  | e => full || e.1.fallible && e.2.code = MDB_MAP_FULL

/-- The blocks, and nothing else, have been committed and counted. -/
structure Committed (sha256 : Bytes → UInt256) (mode : ℕ) (s s' : Store) (blks : List CBlock) :
    Prop where
  tables : blks.foldlM (addBlock sha256 mode) s.tables.opened = some s'.tables.opened
  committed : s'.tables = if blks = [] then s.tables else s'.tables.opened.tables
  blocks : s'.total_block_process = s.total_block_process + blks.length
  txs : s'.total_tx_process = s.total_tx_process + (blks.map fun b => b.vtx.length).sum

/-- What a run of the worker leaves, with the calls of this and earlier runs. -/
def logOf : Except (Stop × Faulty) Faulty → Calls
  | .ok s => s.log
  | .error (_, s) => s.log

/-- The worker is through with the blocks, or ended at one of them: those before it are committed
and counted, and it is at `try_block_again`, or has returned an error and the map was not full. -/
inductive EndsHonest (sha256 : Bytes → UInt256) (mode : ℕ) (s : Store) (blks : List CBlock) :
    Except (Stop × Faulty) Faulty → Prop
  | through (s' : Faulty) (h : Committed sha256 mode s s'.store blks) :
    EndsHonest sha256 mode s blks (.ok s')
  | ended (past rest : List CBlock) (blk : CBlock) (stop : Stop) (s' : Faulty)
    (hblks : blks = past ++ blk :: rest) (h : Committed sha256 mode s s'.store past)
    (hstop : stop = .again ∨
      (∃ err, err ≠ 0 ∧ stop = .err err) ∧ s'.log.foldl foundFull false = false) :
    EndsHonest sha256 mode s blks (.error (stop, s'))

variable {sha256 : Bytes → UInt256} {tr tr' : Calls} {n mode : ℕ} {blk : CBlock}
  {blks blks' : List CBlock} {s s' s'' : Store}

/-- Without a full map since the last begin, whatever came before it. -/
theorem foldl_foundFull {r : Reply} (full : Bool) (h : ¬ MapFull (⟨.txnBegin, r⟩ :: tr)) :
    (tr' ++ ⟨.txnBegin, r⟩ :: tr).foldl foundFull full = false := by
  have hquiet (tr : Calls) (htr : ¬ MapFull tr) : tr.foldl foundFull false = false := by
    induction tr with
    | nil => rfl
    | cons e tr ih =>
      rw [← List.singleton_append, mapFull_append, not_or] at htr
      have he : foundFull false e = false := by
        have hcode : ¬ (e.1.fallible = true ∧ e.2.code = MDB_MAP_FULL) :=
          fun hcode => htr.1 ⟨e, List.mem_singleton_self e, hcode⟩
        have hfound : foundFull false e = (e.1.fallible && decide (e.2.code = MDB_MAP_FULL)) := by
          obtain ⟨c, r⟩ := e
          cases c <;> rfl
        rw [hfound]
        simpa using hcode
      rw [List.foldl_cons, he]
      exact ih htr.2
  rw [List.foldl_append, List.foldl_cons]
  exact hquiet (⟨.txnBegin, r⟩ :: tr) h

theorem Committed.nil (htables : s'.tables = s.tables)
    (hblocks : s'.total_block_process = s.total_block_process)
    (htxs : s'.total_tx_process = s.total_tx_process) : Committed sha256 mode s s' [] :=
  ⟨by rw [htables]; rfl, htables, hblocks, htxs⟩

theorem Committed.append (h : Committed sha256 mode s s' blks)
    (h' : Committed sha256 mode s' s'' blks') : Committed sha256 mode s s'' (blks ++ blks') where
  tables := by
    rw [List.foldlM_append, h.tables]
    exact h'.tables
  committed := by
    have hfirst := h.committed
    have hsecond := h'.committed
    by_cases hblks' : blks' = []
    · rw [if_pos hblks'] at hsecond
      rw [hblks', List.append_nil, hsecond]
      exact hfirst
    · rw [if_neg hblks'] at hsecond
      rw [if_neg (by simp [hblks'])]
      exact hsecond
  blocks := by
    rw [h'.blocks, h.blocks, List.length_append]
    omega
  txs := by
    rw [h'.txs, h.txs, List.map_append, List.sum_append]
    omega

/-- Failures that are handled leave a cursor. -/
theorem Handled.cursorsOpen (h : Handled n tr) : CursorsOpen tr := by
  induction tr generalizing n with
  | nil => exact fun _ _ h => nomatch h
  | cons e tr ih =>
    intro dbi r hr
    obtain rfl | hr := List.mem_cons.mp hr
    · exact h.1
    · exact ih h.2 dbi r hr

/-- What honest attempts at one block leave. -/
structure BlockEnds (sha256 : Bytes → UInt256) (mode : ℕ) (s : Store) (blk : CBlock)
    (r : Except (Stop × Faulty) Faulty) : Prop where
  honest : EndsHonest sha256 mode s [blk] r
  clean : ∀ s', r = .ok s' → s'.store.txn = none ∧ s'.lost = false

/-- What the worker has done before. -/
theorem EndsHonest.after {r : Except (Stop × Faulty) Faulty} (h : EndsHonest sha256 mode s' blks' r)
    (hpast : Committed sha256 mode s s' blks) : EndsHonest sha256 mode s (blks ++ blks') r := by
  cases h with
  | through s'' h' => exact .through s'' (hpast.append h')
  | ended past rest blk stop s'' hblks h' hstop =>
    refine .ended (blks ++ past) rest blk stop s'' ?_ (hpast.append h') hstop
    rw [hblks, List.append_assoc]

/-- Blocks the worker does not come to. -/
theorem EndsHonest.before {e : Stop × Faulty} (h : EndsHonest sha256 mode s blks (.error e))
    (blks' : List CBlock) : EndsHonest sha256 mode s (blks ++ blks') (.error e) := by
  cases h with
  | ended past rest blk stop s' hblks h hstop =>
    refine .ended past (rest ++ blks') blk stop s' ?_ h hstop
    rw [hblks, List.append_assoc, List.cons_append]

/-- What an honest attempt that is through leaves. -/
theorem committed_of_honest (h : Honest sha256 mode blk s s' tr (.ok ())) :
    Committed sha256 mode s s' [blk] := by
  obtain ⟨hcommits, v, hadd, htables⟩ := h.goesOn rfl
  have hopened : s'.tables.opened = v := by
    rw [htables]
    exact opened_tables (addBlock_dcmp hadd)
  refine ⟨?_, ?_, ?_, ?_⟩
  · rw [List.foldlM_cons, hadd, hopened]
    rfl
  · rw [if_neg (List.cons_ne_nil _ _), hopened, htables]
  · rw [h.blocks, hcommits]
    rfl
  · rw [h.txs, hcommits, Nat.one_mul]
    rfl

/-- What an honest attempt that is not through leaves. -/
theorem committed_of_honest_error {stop : Stop} (h : Honest sha256 mode blk s s' tr (.error stop)) :
    Committed sha256 mode s s' [] := by
  obtain ⟨hcommits, htables, -⟩ := h.stops stop rfl
  refine .nil htables ?_ ?_
  · rw [h.blocks, hcommits]
    rfl
  · rw [h.txs, hcommits, Nat.zero_mul]
    rfl

/-- The attempts at a block add to the log. -/
theorem loop_faulty_log {answer : Calls → Call → ℤ} {retries : ℕ} {s : Faulty}
    {r : Except (Stop × Faulty) Faulty}
    (h : loop (tryBlock (faulty answer) sha256 mode blk) retries s = some r) :
    ∃ tr, logOf r = s.log ++ tr := by
  have hround (s' : Faulty) (hs' : ∃ tr, s'.log = s.log ++ tr) :
      ∃ tr, ((indexBlock sha256 mode blk).run (faulty answer) s').2.log = s.log ++ tr := by
    obtain ⟨tr, htr⟩ := hs'
    obtain ⟨tr', hlog⟩ := run_faulty_log answer (indexBlock sha256 mode blk) s'
    exact ⟨tr ++ tr', by rw [hlog, htr, List.append_assoc]⟩
  refine loop_invariant (I := fun s' : Faulty => ∃ tr, s'.log = s.log ++ tr)
    (J := fun r => ∃ tr, logOf r = s.log ++ tr) ?_ ?_ h ⟨[], (List.append_nil _).symm⟩ <;>
  · intro s' r' hs' hstep
    have hlog := hround s' hs'
    rw [tryBlock] at hstep
    split at hstep <;> rename_i hrun <;> rw [hrun] at hlog <;> cases hstep
    all_goals exact hlog

/-- **A block whose failures are handled** is committed and counted, or the worker has stopped with
an error. -/
theorem loop_tryBlock_faulty (answer : Calls → Call → ℤ) {retries : ℕ} {s : Faulty}
    {r : Except (Stop × Faulty) Faulty}
    (h : loop (tryBlock (faulty answer) sha256 mode blk) retries s = some r)
    (htxn : s.store.txn = none) (hlost : s.lost = false) :
    ∃ tr, logOf r = s.log ++ tr ∧ ∀ n, Handled n tr → BlockEnds sha256 mode s.store blk r := by
  induction retries generalizing s with
  | zero => exact nomatch h
  | succ retries ih =>
    obtain ⟨res, s', b, tr, hrun, hlog, hspec⟩ :=
      run_indexBlock_faulty answer sha256 mode blk htxn hlost
    have hhonest (n : ℕ) (hn : Handled n (⟨.txnBegin, b⟩ :: tr)) :
        Honest sha256 mode blk s.store s'.store (⟨.txnBegin, b⟩ :: tr) res :=
      (hspec hn.cursorsOpen).1.mpr hn
    rcases res with stop | ⟨⟩
    · by_cases hstop : stop = .again
      · subst hstop
        rw [loop_succ_inl (tryBlock_again hrun)] at h
        by_cases hopen : CursorsOpen (⟨.txnBegin, b⟩ :: tr)
        · obtain ⟨htxn', hlost'⟩ := (hspec hopen).2 (.inr rfl)
          obtain ⟨tr', hlog', h'⟩ := ih h htxn' hlost'
          refine ⟨⟨.txnBegin, b⟩ :: tr ++ tr', by rw [hlog', hlog, List.append_assoc],
            fun n hn => ?_⟩
          obtain ⟨hn₁, hn₂⟩ := handled_append.mp hn
          have hlast := h' _ hn₂
          exact ⟨hlast.honest.after (committed_of_honest_error (hhonest n hn₁)), hlast.clean⟩
        · obtain ⟨tr', hlog'⟩ := loop_faulty_log h
          refine ⟨⟨.txnBegin, b⟩ :: tr ++ tr', by rw [hlog', hlog, List.append_assoc],
            fun n hn => ?_⟩
          exact absurd (handled_append.mp hn).1.cursorsOpen hopen
      · rw [loop_succ_inr (tryBlock_error hstop hrun)] at h
        obtain rfl := Option.some.inj h
        refine ⟨_, hlog, fun n hn => ⟨?_, fun _ h => nomatch h⟩⟩
        have hstopped := hhonest n hn
        obtain ⟨-, -, herr⟩ := hstopped.stops stop rfl
        refine .ended [] [] blk stop s' rfl (committed_of_honest_error hstopped)
          (.inr ⟨herr.resolve_left hstop, ?_⟩)
        rw [hlog]
        exact foldl_foundFull false fun hfull => hstop (Except.error.inj (hstopped.full hfull))
    · rw [loop_succ_inr (tryBlock_ok hrun)] at h
      obtain rfl := Option.some.inj h
      refine ⟨_, hlog, fun n hn => ⟨.through s' (committed_of_honest (hhonest n hn)), ?_⟩⟩
      intro s'' hs''
      obtain rfl := Except.ok.inj hs''
      exact (hspec hn.cursorsOpen).2 (.inl rfl)

theorem loadBlock_faulty (answer : Calls → Call → ℤ) (sha256 : Bytes → UInt256)
    (retries mode : ℕ) (blk : CBlock) {s : Faulty} (htxn : s.store.txn = none)
    (hlost : s.lost = false) : ∃ tr,
      logOf (loadBlock (faulty answer) sha256 retries mode blk s) = s.log ++ tr ∧
        ∀ n, Handled n tr → BlockEnds sha256 mode s.store blk
          (loadBlock (faulty answer) sha256 retries mode blk s) := by
  rw [loadBlock]
  cases h : loop (tryBlock (faulty answer) sha256 mode blk) retries s with
  | some r => exact loop_tryBlock_faulty answer h htxn hlost
  | none =>
    refine ⟨[], (List.append_nil _).symm, fun _ _ => ⟨?_, fun _ h => ?_⟩⟩
    · exact .ended [] [] blk .again s rfl (.nil rfl rfl rfl) (.inl rfl)
    · cases h

/-- The blocks of a run add to the log. -/
theorem loadBlocks_log (answer : Calls → Call → ℤ) (sha256 : Bytes → UInt256) (retries mode : ℕ)
    (blks : List CBlock) (s : Faulty) :
    ∃ tr, logOf (loadBlocks (faulty answer) sha256 retries mode blks s) = s.log ++ tr := by
  induction blks generalizing s with
  | nil => exact ⟨[], (List.append_nil _).symm⟩
  | cons b blks ih =>
    have hblock : ∃ tr,
        logOf (loadBlock (faulty answer) sha256 retries mode b s) = s.log ++ tr := by
      rw [loadBlock]
      cases h : loop (tryBlock (faulty answer) sha256 mode b) retries s with
      | some r => exact loop_faulty_log h
      | none => exact ⟨[], (List.append_nil _).symm⟩
    obtain ⟨tr, htr⟩ := hblock
    rw [loadBlocks, List.foldlM_cons]
    cases hr : loadBlock (faulty answer) sha256 retries mode b s with
    | error e =>
      rw [hr] at htr
      exact ⟨tr, htr⟩
    | ok s' =>
      rw [hr] at htr
      obtain ⟨tr', htr'⟩ := ih s'
      refine ⟨tr ++ tr', ?_⟩
      rw [← List.append_assoc, ← htr]
      exact htr'

/-- **A worker whose failures are handled** drops no block and counts what it has committed. -/
theorem loadBlocks_faulty (answer : Calls → Call → ℤ) (sha256 : Bytes → UInt256)
    (retries mode : ℕ) (blks : List CBlock) {s : Faulty} (htxn : s.store.txn = none)
    (hlost : s.lost = false) : ∃ tr,
      logOf (loadBlocks (faulty answer) sha256 retries mode blks s) = s.log ++ tr ∧
        ∀ n, Handled n tr → EndsHonest sha256 mode s.store blks
          (loadBlocks (faulty answer) sha256 retries mode blks s) := by
  induction blks generalizing s with
  | nil => exact ⟨[], (List.append_nil _).symm, fun _ _ => .through s (.nil rfl rfl rfl)⟩
  | cons b blks ih =>
    obtain ⟨tr, hlog, hblock⟩ := loadBlock_faulty answer sha256 retries mode b htxn hlost
    rw [loadBlocks, List.foldlM_cons]
    cases hr : loadBlock (faulty answer) sha256 retries mode b s with
    | error e =>
      rw [hr] at hlog hblock
      exact ⟨tr, hlog, fun n hn => (hblock n hn).honest.before blks⟩
    | ok s' =>
      rw [hr] at hlog hblock
      have hlog' : s'.log = s.log ++ tr := hlog
      by_cases hn : ∃ n, Handled n tr
      · obtain ⟨n, hn⟩ := hn
        obtain ⟨htxn', hlost'⟩ := (hblock n hn).clean s' rfl
        obtain ⟨tr', hlog'', h⟩ := ih htxn' hlost'
        refine ⟨tr ++ tr', by rw [← List.append_assoc, ← hlog']; exact hlog'', fun m hm => ?_⟩
        obtain ⟨hm₁, hm₂⟩ := handled_append.mp hm
        cases (hblock m hm₁).honest with
        | through _ hcommitted => exact (h _ hm₂).after hcommitted
      · obtain ⟨tr', htr'⟩ := loadBlocks_log answer sha256 retries mode blks s'
        refine ⟨tr ++ tr', by rw [← List.append_assoc, ← hlog']; exact htr', fun m hm => ?_⟩
        exact absurd ⟨m, (handled_append.mp hm).1⟩ hn

/-- **No block is dropped exactly where the failures are handled.** An attempt is honest if they
are, and only if they are where there is a cursor; and a worker over any files whose failures are
handled has committed and counted the blocks found in them up to where it ended. -/
theorem honest_iff (answer : Calls → Call → ℤ) (sha256 : Bytes → UInt256) (mode : ℕ)
    (s : Faulty) (htxn : s.store.txn = none) (hlost : s.lost = false) :
    (∀ blk res s' tr, (indexBlock sha256 mode blk).run (faulty answer) s = (res, s') →
      s'.log = s.log ++ tr → (Handled 0 tr → Honest sha256 mode blk s.store s'.store tr res) ∧
        (CursorsOpen tr → Honest sha256 mode blk s.store s'.store tr res → Handled 0 tr)) ∧
    ∀ retries rounds files r tr,
      preloadFunc (faulty answer) sha256 retries rounds mode files s = some r →
      logOf r = s.log ++ tr →
        r = loadBlocks (faulty answer) sha256 retries mode (blocksIn files) s ∧
        (Handled 0 tr → EndsHonest sha256 mode s.store (blocksIn files) r) := by
  constructor
  · intro blk res s' tr hrun hlog
    obtain ⟨res', s'', b, tr', hrun', hlog', hspec⟩ :=
      run_indexBlock_faulty answer sha256 mode blk htxn hlost
    obtain ⟨rfl, rfl⟩ := Prod.mk.inj (hrun.symm.trans hrun')
    obtain rfl := List.append_cancel_left (hlog.symm.trans hlog')
    exact ⟨fun h => (hspec h.cursorsOpen).1.mpr h, fun hopen h => (hspec hopen).1.mp h⟩
  · intro retries rounds files r tr hrun hlog
    obtain rfl := preloadFunc_reads hrun
    obtain ⟨tr', hlog', h⟩ :=
      loadBlocks_faulty answer sha256 retries mode (blocksIn files) htxn hlost
    obtain rfl := List.append_cancel_left (hlog.symm.trans hlog')
    exact ⟨rfl, h 0⟩

/-- A new environment. -/
def Faulty.fresh : Faulty := { store := .fresh }

/-- An attempt no call of which fails, and a worker that makes it. -/
theorem honest_twoOutputs :
    (∃ res s', (indexBlock (fun _ => .zero) 0 (payTo [[0x51], [0x51]])).run (faulty fun _ _ => 0)
        .fresh = (res, s') ∧
      Honest (fun _ => .zero) 0 (payTo [[0x51], [0x51]]) .fresh s'.store s'.log res) ∧
    ∃ rounds r, preloadFunc (faulty fun _ _ => 0) (fun _ => .zero) 1 rounds 0
        [twoOutputs.content] .fresh = some r ∧
      EndsHonest (fun _ => .zero) 0 .fresh [payTo [[0x51], [0x51]]] r := by
  have hiff := honest_iff (fun _ _ => 0) (fun _ => .zero) 0 .fresh rfl rfl
  constructor
  · refine ⟨_, _, Prod.mk.eta.symm, (hiff.1 (payTo [[0x51], [0x51]]) _ _ _ Prod.mk.eta.symm
      (List.nil_append _).symm).1 ?_⟩
    decide +kernel
  · obtain ⟨n, hn⟩ := preloadFunc_eq (faulty fun _ _ => 0) (fun _ => .zero) 1 0 [twoOutputs] .fresh
    have hrun := hn n (le_refl n)
    obtain ⟨-, hhonest⟩ := hiff.2 _ _ _ _ _ hrun (List.nil_append _).symm
    refine ⟨n, _, hrun, ?_⟩
    have hblocks : blocksIn [twoOutputs.content] = [payTo [[0x51], [0x51]]] :=
      blocksIn_content [twoOutputs]
    rw [← hblocks]
    refine hhonest ?_
    decide +kernel

/-- `ENOSPC` of `mdb_txn_commit`. -/
def ENOSPC : ℤ := 28

/-- No transaction can be committed. -/
def noSpace (_ : Calls) : Call → ℤ
  | .txnCommit => ENOSPC
  | _ => 0

/-- A block whose commit fails is counted and dropped. -/
theorem drops_block : ¬ ∀ answer sha256 mode blk (s s' : Faulty) tr res,
    s.store.txn = none → s.lost = false →
    (indexBlock sha256 mode blk).run (faulty answer) s = (res, s') → s'.log = s.log ++ tr →
    Honest sha256 mode blk s.store s'.store tr res := by
  intro h
  have hhonest := h noSpace (fun _ => .zero) 0 (payTo [[0x51]]) .fresh _ _ _ rfl rfl
    Prod.mk.eta.symm (List.nil_append _).symm
  exact absurd hhonest.blocks (by decide +kernel)

end ElectrumZ.Blockchain
