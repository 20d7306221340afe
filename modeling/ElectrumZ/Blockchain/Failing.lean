import ElectrumZ.Blockchain.Retry
import ElectrumZ.Blockchain.ReturnCodes

/-!
# Calls that fail

`faulty` is an LMDB that may fail any call made for a block, with any code, depending on all calls
made so far. `Handled` describes the failures the worker takes care of.

* `Copies`: a part of an attempt between the begin and the commit goes as with `lmdb`, or stops and
  leaves the tables as they were, having counted nothing if the failures are handled.
* `copies_call`: the rule for a call, after which the worker goes on or gives up the attempt.
-/

namespace ElectrumZ.Blockchain

open Foundations Bitcoin Dialog

/-! ## The environment -/

/-- An environment whose calls may fail. -/
structure Faulty where
  store : Store
  /-- The last `mdb_cursor_open` failed, so there is no cursor to put through. -/
  lost : Bool := false
  log : Calls := []

/-- The calls that may fail. -/
def Call.fallible : Call → Bool
  | .txnBegin | .txnCommit | .dbiOpen _ _ | .setDupsort _ _ | .put _ _ _ | .cursorOpen _
  | .cursorPut _ _ _ => true
  | _ => false

/-- The call fails with `err`. A put returns `MDB_KEYEXIST` for a pair that exists, and fails with
other codes; through a cursor that is not there it may return anything. -/
def Call.failsWith (c : Call) (lost : Bool) (err : ℤ) : Bool :=
  match c with
  | .put _ _ _ => err ≠ 0 ∧ err ≠ MDB_KEYEXIST
  | .cursorPut _ _ _ => lost ∨ err ≠ 0 ∧ err ≠ MDB_KEYEXIST
  | c => c.fallible ∧ err ≠ 0

namespace Faulty

/-- A call that fails changes nothing, but a transaction whose commit fails is gone. -/
def fail (s : Faulty) (c : Call) (err : ℤ) : Faulty where
  store := match c with
    | .txnCommit => { s.store with txn := none }
    | _ => s.store
  lost := match c with
    | .cursorOpen _ => true
    | _ => s.lost
  log := s.log ++ [⟨c, { code := err }⟩]

/-- A call that is made. -/
def made (s : Faulty) (c : Call) (r : Reply) (store : Store) : Faulty where
  store := store
  lost := match c with
    | .cursorOpen _ => false
    | _ => s.lost
  log := s.log ++ [⟨c, r⟩]

end Faulty

/-- LMDB whose calls fail as `answer` says. -/
def faulty (answer : Calls → Call → ℤ) : Handler Call (fun _ => Reply) Stop Faulty := fun c s =>
  if c.failsWith s.lost (answer s.log c) then
    (.ok { code := answer s.log c }, s.fail c (answer s.log c))
  else match lmdb c s.store with
    | (.ok r, store) => (.ok r, s.made c r store)
    | (.error stop, store) => (.error stop, { s with store })

/-- The commits that succeeded. -/
def commits (tr : Calls) : ℕ :=
  tr.countP fun e => match e with
    | ⟨.txnCommit, r⟩ => r.code = 0
    | _ => false

/-- A call of the block found the map full. -/
def MapFull (tr : Calls) : Prop := ∃ e ∈ tr, e.1.fallible = true ∧ e.2.code = MDB_MAP_FULL

/-! ## What the worker takes care of -/

/-- The transactions counted since the attempt began. -/
def counted (n : ℕ) : Exchange Call (fun _ => Reply) → ℕ
  | ⟨.txnBegin, _⟩ => 0
  | ⟨.tally .tx, _⟩ => n + 1
  | _ => n

/-- The failures the worker takes care of, when it has counted `n` transactions of the block. -/
def Tolerable (n : ℕ) : Exchange Call (fun _ => Reply) → Prop
  | ⟨.txnBegin, r⟩ | ⟨.dbiOpen _ _, r⟩ | ⟨.setDupsort _ _, r⟩ => r.code ≠ MDB_MAP_FULL
  | ⟨.cursorOpen _, r⟩ | ⟨.txnCommit, r⟩ => r.code = 0
  | ⟨.put .addr _ _, r⟩ => r.code = 0 ∨ r.code = MDB_KEYEXIST ∨ n = 0
  | ⟨.put _ _ _, r⟩ | ⟨.cursorPut _ _ _, r⟩ => r.code = 0 ∨ n = 0
  | _ => True

/-- All failures are of that kind. -/
def Handled : ℕ → Calls → Prop
  | _, [] => True
  | n, e :: tr => Tolerable n e ∧ Handled (counted n e) tr

instance (n : ℕ) (e : Exchange Call fun _ => Reply) : Decidable (Tolerable n e) := by
  unfold Tolerable
  split <;> infer_instance

instance : (n : ℕ) → (tr : Calls) → Decidable (Handled n tr)
  | _, [] => inferInstanceAs (Decidable True)
  | n, e :: tr =>
    have := instDecidableHandled (counted n e) tr
    inferInstanceAs (Decidable (Tolerable n e ∧ Handled (counted n e) tr))

/-- No `mdb_cursor_open` failed. -/
def CursorsOpen (tr : Calls) : Prop := ∀ dbi r, ⟨.cursorOpen dbi, r⟩ ∈ tr → r.code = 0

variable {answer : Calls → Call → ℤ} {α β : Type} {n m k : ℕ} {tr tr' : Calls} {c : Call}

theorem handled_append :
    Handled n (tr ++ tr') ↔ Handled n tr ∧ Handled (tr.foldl counted n) tr' := by
  induction tr generalizing n with
  | nil => simp [Handled]
  | cons e tr ih => rw [List.cons_append, Handled, Handled, ih, List.foldl_cons, and_assoc]

theorem mapFull_append : MapFull (tr ++ tr') ↔ MapFull tr ∨ MapFull tr' := by
  simp only [MapFull, List.mem_append, or_and_right, exists_or]

theorem cursorsOpen_append : CursorsOpen (tr ++ tr') ↔ CursorsOpen tr ∧ CursorsOpen tr' := by
  simp only [CursorsOpen, List.mem_append, or_imp, forall_and]

/-! ## Single calls -/

/-- The calls between the begin of an attempt and its commit. -/
def Call.inner : Call → Bool
  | .dbiOpen _ _ | .setDupsort _ _ | .put _ _ _ | .cursorOpen _ | .cursorPut _ _ _ | .cursorClose
  | .tally .tx => true
  | _ => false

/-- The worker goes on after the call. -/
def Passes : Exchange Call (fun _ => Reply) → Prop
  | ⟨.put .addr _ _, r⟩ => r.code = 0 ∨ r.code = MDB_KEYEXIST
  | ⟨.dbiOpen _ _, r⟩ | ⟨.setDupsort _ _, r⟩ | ⟨.put _ _ _, r⟩ | ⟨.cursorOpen _, r⟩
  | ⟨.cursorPut _ _ _, r⟩ => r.code = 0
  | _ => True

instance decidablePasses : ∀ e, Decidable (Passes e)
  | ⟨.put .addr _ _, r⟩ => inferInstanceAs (Decidable (r.code = 0 ∨ r.code = MDB_KEYEXIST))
  | ⟨.put .txo _ _, r⟩ | ⟨.put .blk _ _, r⟩ | ⟨.dbiOpen _ _, r⟩ | ⟨.setDupsort _ _, r⟩
  | ⟨.cursorOpen _, r⟩ | ⟨.cursorPut _ _ _, r⟩ => inferInstanceAs (Decidable (r.code = 0))
  | ⟨.envCreate, _⟩ | ⟨.setMaxdbs _, _⟩ | ⟨.envOpen, _⟩ | ⟨.envInfo, _⟩ | ⟨.setMapsize _, _⟩
  | ⟨.lockResize, _⟩ | ⟨.unlockResize, _⟩ | ⟨.txnBegin, _⟩ | ⟨.txnCommit, _⟩ | ⟨.txnAbort, _⟩
  | ⟨.cursorClose, _⟩ | ⟨.stat _, _⟩ | ⟨.get _ _, _⟩ | ⟨.tally _, _⟩ => .isTrue trivial

/-- Nothing is committed, and only the transactions of `tr` are counted. -/
structure Kept (n m : ℕ) (s s' : Store) (tr : Calls) : Prop where
  tables : s'.tables = s.tables
  blocks : s'.total_block_process = s.total_block_process
  txs : s'.total_tx_process + n = s.total_tx_process + m
  count : tr.foldl counted n = m
  commits : commits tr = 0

theorem Kept.refl (n : ℕ) (s : Store) : Kept n n s s [] := ⟨rfl, rfl, rfl, rfl, rfl⟩

theorem Kept.trans {s s' s'' : Store} (h : Kept n m s s' tr) (h' : Kept m k s' s'' tr') :
    Kept n k s s'' (tr ++ tr') where
  tables := h'.tables.trans h.tables
  blocks := h'.blocks.trans h.blocks
  txs := by
    have := h.txs
    have := h'.txs
    omega
  count := by rw [List.foldl_append, h.count, h'.count]
  commits := by rw [Blockchain.commits, List.countP_append, ← Blockchain.commits,
    ← Blockchain.commits, h.commits, h'.commits]

/-- An inner call as it is made. -/
theorem lmdb_inner (hc : c.inner = true) (n : ℕ) (s : Store) : ∃ r s',
    lmdb c s = (.ok r, s') ∧ Kept n (counted n ⟨c, r⟩) s s' [⟨c, r⟩] := by
  cases c with
  | dbiOpen | setDupsort | put | cursorPut =>
    obtain ⟨tables, txn, map, tx, blk⟩ := s
    cases txn <;> exact ⟨_, _, rfl, rfl, rfl, rfl, rfl, rfl⟩
  | tally what =>
    cases what with
    | tx =>
      have htxs : s.total_tx_process + 1 + n = s.total_tx_process + (n + 1) := by omega
      exact ⟨_, _, rfl, rfl, rfl, htxs, rfl, rfl⟩
    | block => exact nomatch hc
  | cursorOpen | cursorClose => exact ⟨_, _, rfl, rfl, rfl, rfl, rfl, rfl⟩
  | _ => exact nomatch hc

/-- An inner call that fails. -/
theorem fail_inner (hc : c.inner = true) (n : ℕ) {s : Faulty} {err : ℤ}
    (h : c.failsWith false err = true) :
    Kept n (counted n ⟨c, { code := err }⟩) s.store (s.fail c err).store [⟨c, { code := err }⟩] ∧
      ¬ Passes ⟨c, { code := err }⟩ := by
  cases c with
  | dbiOpen | setDupsort | cursorOpen | cursorPut =>
    refine ⟨⟨rfl, rfl, rfl, rfl, rfl⟩, ?_⟩
    simp_all [Call.failsWith, Call.fallible, Passes]
  | put dbi =>
    refine ⟨⟨rfl, rfl, rfl, rfl, rfl⟩, ?_⟩
    cases dbi <;> simp_all [Call.failsWith, Passes]
  | cursorClose | tally => simp [Call.failsWith, Call.fallible] at h
  | _ => exact nomatch hc

/-- An inner call either fails, or is made as by `lmdb`. -/
theorem faulty_inner (answer : Calls → Call → ℤ) (hc : c.inner = true) (n : ℕ) (s : Faulty)
    (hs : s.lost = false) : ∃ r s', faulty answer c s = (.ok r, s') ∧
      s'.log = s.log ++ [⟨c, r⟩] ∧ Kept n (counted n ⟨c, r⟩) s.store s'.store [⟨c, r⟩] ∧
      (Passes ⟨c, r⟩ → lmdb c s.store = (.ok r, s'.store)) ∧
      (Passes ⟨c, r⟩ ∨ (∀ dbi, c ≠ .cursorOpen dbi) → s'.lost = false) := by
  rw [faulty]
  split_ifs with hfails
  · rw [hs] at hfails
    obtain ⟨hkept, hpasses⟩ := fail_inner hc n (s := s) hfails
    refine ⟨_, _, rfl, rfl, hkept, fun h => absurd h hpasses, fun h => ?_⟩
    have hcursor := h.resolve_left hpasses
    cases c <;> first | exact hs | exact absurd rfl (hcursor _)
  · obtain ⟨r, store, hlmdb, hkept⟩ := lmdb_inner hc n s.store
    rw [hlmdb]
    refine ⟨r, _, rfl, rfl, hkept, fun _ => rfl, fun _ => ?_⟩
    cases c <;> first | rfl | exact hs

/-- A run adds to the log. -/
theorem run_faulty_log (answer : Calls → Call → ℤ) (d : Prog α) (s : Faulty) :
    ∃ tr, (d.run (faulty answer) s).2.log = s.log ++ tr := by
  refine run_invariant (I := fun s' : Faulty => ∃ tr, s'.log = s.log ++ tr) ?_ d
    ⟨[], (List.append_nil _).symm⟩
  rintro c s' ⟨tr, hlog⟩
  rw [faulty]
  split_ifs
  · exact ⟨_, (congrArg (· ++ _) hlog).trans (List.append_assoc _ _ _)⟩
  · rcases lmdb c s'.store with ⟨stop | r, store⟩
    · exact ⟨tr, hlog⟩
    · exact ⟨_, (congrArg (· ++ _) hlog).trans (List.append_assoc _ _ _)⟩

/-! ## Parts of an attempt -/

/-- How a part of an attempt ends that has counted `n` transactions before it, and `m` if the worker
goes on: as with `lmdb`, or with nothing committed. -/
inductive Outcome (n m : ℕ) (s : Faulty) (tr : Calls) (clean : Except Stop α × Store) :
    Except Stop α × Faulty → Prop
  | goesOn (a : α) (s' : Faulty) (hclean : clean = (.ok a, s'.store)) (hlost : s'.lost = false)
    (hkept : Kept n m s.store s'.store tr) (hhandled : Handled n tr) (hfull : ¬ MapFull tr) :
    Outcome n m s tr clean (.ok a, s')
  | stops (k : ℕ) (stop : Stop) (s' : Faulty) (hkept : Kept n k s.store s'.store tr)
    (herr : stop = .again ∨ ∃ err, err ≠ 0 ∧ stop = .err err)
    (hagain : stop = .again → s'.store.txn = none ∧ s'.lost = false)
    (hhandled : Handled n tr ↔ k = 0 ∧ (MapFull tr → stop = .again)) :
    Outcome n m s tr clean (.error stop, s')

/-- However its calls go, as long as there is a cursor. -/
def Copies (answer : Calls → Call → ℤ) (n : ℕ) (d : Prog α) (m : ℕ) : Prop :=
  ∀ s : Faulty, s.lost = false → ∃ tr, (d.run (faulty answer) s).2.log = s.log ++ tr ∧
    (CursorsOpen tr → Outcome n m s tr (d.run lmdb s.store) (d.run (faulty answer) s))

theorem copies_pure (a : α) : Copies answer n (pure a) n := fun s hs =>
  ⟨[], (List.append_nil _).symm, fun _ =>
    .goesOn a s rfl hs (.refl n s.store) trivial (by simp [MapFull])⟩

/-- What comes before does not matter if the worker went on after it. -/
theorem Outcome.after {s s₁ : Faulty} {clean : Except Stop α × Store}
    {out : Except Stop α × Faulty} (h : Outcome m k s₁ tr' clean out)
    (hkept : Kept n m s.store s₁.store tr) (hhandled : Handled n tr) (hfull : ¬ MapFull tr) :
    Outcome n k s (tr ++ tr') clean out := by
  cases h with
  | goesOn a s₂ hclean hlost hkept₂ hhandled₂ hfull₂ =>
    refine .goesOn a s₂ hclean hlost (hkept.trans hkept₂) ?_ ?_
    · exact handled_append.mpr ⟨hhandled, hkept.count.symm ▸ hhandled₂⟩
    · exact fun hfull' => (mapFull_append.mp hfull').elim hfull hfull₂
  | stops k' stop s₂ hkept₂ herr hagain hhandled₂ =>
    refine .stops k' stop s₂ (hkept.trans hkept₂) herr hagain ?_
    rw [handled_append, hkept.count, mapFull_append, or_iff_right hfull, hhandled₂]
    exact and_iff_right hhandled

theorem Copies.bind {d : Prog α} {f : α → Prog β} (hd : Copies answer n d m)
    (hf : ∀ a, Copies answer m (f a) k) : Copies answer n (d >>= f) k := by
  intro s hs
  obtain ⟨tr, hlog, h⟩ := hd s hs
  by_cases hopen : CursorsOpen tr
  · have hout := h hopen
    generalize hclean : d.run lmdb s.store = clean at hout
    generalize hrun : d.run (faulty answer) s = out at hout hlog
    cases hout with
    | goesOn a s₁ hclean' hlost hkept hhandled hfull =>
      subst hclean'
      rw [Dialog.run_bind_of_ok hrun, Dialog.run_bind_of_ok hclean]
      obtain ⟨tr', hlog', h'⟩ := hf a s₁ hlost
      refine ⟨tr ++ tr', by rw [hlog', hlog, List.append_assoc], fun hopen' => ?_⟩
      exact (h' (cursorsOpen_append.mp hopen').2).after hkept hhandled hfull
    | stops k' stop s₁ hkept herr hagain hhandled =>
      rw [Dialog.run_bind_of_error hrun]
      exact ⟨tr, hlog, fun _ => .stops k' stop s₁ hkept herr hagain hhandled⟩
  · rcases hrun : d.run (faulty answer) s with ⟨stop | a, s₁⟩ <;> rw [hrun] at hlog
    · rw [Dialog.run_bind_of_error hrun]
      exact ⟨tr, hlog, fun hopen' => absurd hopen' hopen⟩
    · obtain ⟨tr', hlog'⟩ := run_faulty_log answer (f a) s₁
      rw [Dialog.run_bind_of_ok hrun]
      refine ⟨tr ++ tr', by rw [hlog', hlog, List.append_assoc], fun hopen' => ?_⟩
      exact absurd (cursorsOpen_append.mp hopen').1 hopen

/-! ## Giving up an attempt -/

theorem append_four {α : Type} (l : List α) (a b c d : α) :
    l ++ [a, b, c, d] = l ++ [a] ++ [b] ++ [c] ++ [d] := by
  simp

/-- The map grows, unless a transaction is open. -/
theorem run_increaseMapSize_faulty (answer : Calls → Call → ℤ) (s : Faulty) : ∃ m tr,
    increaseMapSize.run (faulty answer) s =
      (.ok (if s.store.txn.isSome then EINVAL else TXO_RESIZED),
        { s with store := { s.store with mapsize := m }, log := s.log ++ tr }) ∧
    ∀ e ∈ tr, e.1.resizing = true := by
  obtain ⟨⟨tables, txn, map, tx, blk⟩, lost, log⟩ := s
  let size := map - map % MAPSIZE_BASE_UNIT + MAPSIZE_BASE_UNIT
  cases txn with
  | none =>
    refine ⟨size, [⟨.lockResize, {}⟩, ⟨.envInfo, { mapsize := map }⟩, ⟨.setMapsize size, {}⟩,
      ⟨.unlockResize, {}⟩], ?_, by simp [Call.resizing]⟩
    rw [append_four]
    rfl
  | some ts =>
    refine ⟨map, [⟨.lockResize, {}⟩, ⟨.envInfo, { mapsize := map }⟩,
      ⟨.setMapsize size, { code := EINVAL }⟩, ⟨.unlockResize, {}⟩], ?_, by simp [Call.resizing]⟩
    rw [append_four]
    rfl

/-- A call made on the way out. -/
def Call.leaving (c : Call) : Bool := c.resizing || c matches .txnAbort

/-- Calls on the way out are no failures of the block, and commit and count nothing. -/
theorem leaving_quiet (h : ∀ e ∈ tr, e.1.leaving = true) :
    Handled n tr ∧ ¬ MapFull tr ∧ tr.foldl counted n = n ∧ commits tr = 0 := by
  induction tr with
  | nil => exact ⟨trivial, by simp [MapFull], rfl, rfl⟩
  | cons e tr ih =>
    obtain ⟨he, htr⟩ := List.forall_mem_cons.mp h
    obtain ⟨hhandled, hfull, hcount, hcommits⟩ := ih htr
    obtain ⟨c, r⟩ := e
    have hcounted : counted n ⟨c, r⟩ = n ∧ Tolerable n ⟨c, r⟩ ∧ c.fallible = false ∧
        commits (⟨c, r⟩ :: tr) = commits tr := by
      cases c <;> first | exact ⟨rfl, trivial, rfl, rfl⟩ | exact nomatch he
    refine ⟨?_, ?_, ?_, ?_⟩
    · rw [Handled, hcounted.1]
      exact ⟨hcounted.2.1, hhandled⟩
    · rintro ⟨e, he, hfallible, hcode⟩
      obtain rfl | he := List.mem_cons.mp he
      · exact Bool.noConfusion (hcounted.2.2.1.symm.trans hfallible)
      · exact hfull ⟨e, he, hfallible, hcode⟩
    · rw [List.foldl_cons, hcounted.1, hcount]
    · rw [hcounted.2.2.2, hcommits]

/-- The attempt is given up after the exchange `e`, as it should be if that was tolerable. -/
def Halts (answer : Calls → Call → ℤ) (n : ℕ) (e : Exchange Call fun _ => Reply) (d : Prog α) :
    Prop :=
  ∀ s : Faulty, s.lost = false → ∃ stop s' tr,
    d.run (faulty answer) s = (.error stop, s') ∧ s'.log = s.log ++ tr ∧
      (∀ e ∈ tr, e.1.leaving = true) ∧ Kept n n s.store s'.store tr ∧
      (stop = .again ∨ ∃ err, err ≠ 0 ∧ stop = .err err) ∧
      (stop = .again → s'.store.txn = none ∧ s'.lost = false) ∧
      (Tolerable n e ↔ n = 0 ∧ (e.2.code = MDB_MAP_FULL → stop = .again))

theorem halts_err {e : Exchange Call fun _ => Reply} {err : ℤ} (herr : err ≠ 0)
    (h : Tolerable n e ↔ n = 0 ∧ e.2.code ≠ MDB_MAP_FULL) :
    Halts answer n e (.fail (.err err) : Prog α) := by
  intro s hs
  refine ⟨_, s, [], rfl, (List.append_nil _).symm, by simp, .refl n s.store,
    .inr ⟨err, herr, rfl⟩, nofun, ?_⟩
  rw [h]
  exact and_congr_right fun _ => forall_congr' fun _ => iff_of_false id nofun

theorem halts_tryBlockAgain {e : Exchange Call fun _ => Reply} (h : Tolerable n e ↔ n = 0) :
    Halts answer n e tryBlockAgain := by
  intro s hs
  obtain ⟨m, tr, hrun, htr⟩ := run_increaseMapSize_faulty answer (s.made .txnAbort {}
    { s.store with txn := none })
  have habort : (call .txnAbort).run (faulty answer) s =
      (.ok 0, s.made .txnAbort {} { s.store with txn := none }) := rfl
  have hleaving : ∀ e ∈ (⟨.txnAbort, {}⟩ :: tr : Calls), e.1.leaving = true := by
    exact List.forall_mem_cons.mpr ⟨rfl, fun e he => (Bool.or_eq_true _ _).mpr (.inl (htr e he))⟩
  obtain ⟨-, -, hcount, hcommits⟩ := leaving_quiet (n := n) hleaving
  refine ⟨.again, { s with
    store := { s.store with txn := none, mapsize := m }, log := s.log ++ [⟨.txnAbort, {}⟩] ++ tr },
    ⟨.txnAbort, {}⟩ :: tr, ?_, ?_, hleaving, ⟨rfl, rfl, rfl, hcount, hcommits⟩,
    .inl rfl, fun _ => ⟨rfl, hs⟩, ?_⟩
  · rw [tryBlockAgain, Dialog.run_bind_of_ok habort, Dialog.run_bind_of_ok hrun]
    rfl
  · exact List.append_assoc _ _ _
  · rw [h]
    exact (and_iff_left fun _ => rfl).symm

theorem halts_putFailed {e : Exchange Call fun _ => Reply} (he : e.2.code ≠ 0)
    (h : Tolerable n e ↔ n = 0) : Halts answer n e (putFailed e.2.code) := by
  rw [putFailed]
  split_ifs with hfull
  · exact halts_tryBlockAgain h
  · exact halts_err he (h.trans (and_iff_left hfull).symm)

/-- Whether the worker goes on after a call that may fail. -/
theorem passes_spec (hc : c.inner = true) (n : ℕ) (r : Reply) :
    (Passes ⟨c, r⟩ → Handled n [⟨c, r⟩] ∧ ¬ MapFull [⟨c, r⟩]) ∧
      (¬ Passes ⟨c, r⟩ → c.fallible = true ∧ counted n ⟨c, r⟩ = n) := by
  have hfull (h : r.code = 0 ∨ r.code = MDB_KEYEXIST) : ¬ MapFull [⟨c, r⟩] := by
    rintro ⟨e, he, -, hcode⟩
    obtain rfl := List.mem_singleton.mp he
    obtain h | h := h <;> exact absurd (h.symm.trans hcode) (by decide)
  cases c with
  | dbiOpen | setDupsort =>
    refine ⟨fun h => ⟨⟨?_, trivial⟩, hfull (.inl h)⟩, fun _ => ⟨rfl, rfl⟩⟩
    exact fun hcode => absurd ((h : r.code = 0).symm.trans hcode) (by decide)
  | put dbi =>
    cases dbi with
    | addr => exact ⟨fun h => ⟨⟨or_assoc.mp (.inl h), trivial⟩, hfull h⟩, fun _ => ⟨rfl, rfl⟩⟩
    | _ => exact ⟨fun h => ⟨⟨.inl h, trivial⟩, hfull (.inl h)⟩, fun _ => ⟨rfl, rfl⟩⟩
  | cursorOpen => exact ⟨fun h => ⟨⟨h, trivial⟩, hfull (.inl h)⟩, fun _ => ⟨rfl, rfl⟩⟩
  | cursorPut => exact ⟨fun h => ⟨⟨.inl h, trivial⟩, hfull (.inl h)⟩, fun _ => ⟨rfl, rfl⟩⟩
  | cursorClose | tally =>
    exact ⟨fun _ => ⟨⟨trivial, trivial⟩, by simp [MapFull, Call.fallible]⟩,
      fun h => absurd trivial h⟩
  | _ => exact nomatch hc

theorem run_call_faulty {s s' : Faulty} {r : Reply} (h : faulty answer c s = (.ok r, s')) :
    (call c).run (faulty answer) s = (.ok r.code, s') := by
  rw [call, Dialog.run_bind, Dialog.run_query, h]
  rfl

/-- A call, after which the worker goes on or gives up. -/
theorem copies_call {f : ℤ → Prog α} (hc : c.inner = true)
    (hgood : ∀ r : Reply, Passes ⟨c, r⟩ → Copies answer (counted n ⟨c, r⟩) (f r.code) m)
    (hbad : ∀ r : Reply, ¬ Passes ⟨c, r⟩ → (∀ dbi, c ≠ .cursorOpen dbi) →
      Halts answer n ⟨c, r⟩ (f r.code)) :
    Copies answer n (call c >>= f) m := by
  intro s hs
  obtain ⟨r, s₁, hcall, hlog, hkept, hmade, hlost⟩ := faulty_inner answer hc n s hs
  obtain ⟨hpass, hfail⟩ := passes_spec hc n r
  rw [Dialog.run_bind_of_ok (run_call_faulty hcall)]
  by_cases hpasses : Passes ⟨c, r⟩
  · obtain ⟨hhandled, hfull⟩ := hpass hpasses
    obtain ⟨tr, hlog', h⟩ := hgood r hpasses s₁ (hlost (.inl hpasses))
    rw [Dialog.run_bind_of_ok (run_call (hmade hpasses))]
    refine ⟨[⟨c, r⟩] ++ tr, by rw [hlog', hlog, List.append_assoc], fun hopen => ?_⟩
    exact (h (cursorsOpen_append.mp hopen).2).after hkept hhandled hfull
  · obtain ⟨hfallible, hcounted⟩ := hfail hpasses
    by_cases hcursor : ∃ dbi, c = .cursorOpen dbi
    · obtain ⟨dbi, rfl⟩ := hcursor
      obtain ⟨tr, hlog'⟩ := run_faulty_log answer (f r.code) s₁
      refine ⟨[⟨.cursorOpen dbi, r⟩] ++ tr, by rw [hlog', hlog, List.append_assoc], fun hopen => ?_⟩
      exact absurd (hopen dbi r List.mem_cons_self) hpasses
    · have hother : ∀ dbi, c ≠ .cursorOpen dbi := fun dbi h => hcursor ⟨dbi, h⟩
      obtain ⟨stop, s₂, tr, hrun, hlog', htr, hkept₂, herr, hagain, htolerable⟩ :=
        hbad r hpasses hother s₁ (hlost (.inr hother))
      rw [hcounted] at hkept
      obtain ⟨hhandled, hfull, -⟩ := leaving_quiet (n := n) htr
      rw [hrun]
      refine ⟨[⟨c, r⟩] ++ tr, by rw [hlog', hlog, List.append_assoc], fun _ => ?_⟩
      refine .stops n stop s₂ (hkept.trans hkept₂) herr hagain ?_
      have hmap : MapFull ([⟨c, r⟩] ++ tr) ↔ r.code = MDB_MAP_FULL := by
        rw [mapFull_append, or_iff_left hfull]
        simp [MapFull, hfallible]
      rw [List.singleton_append, Handled, hcounted, htolerable, ← List.singleton_append, hmap]
      exact and_iff_left hhandled

end ElectrumZ.Blockchain
