import ElectrumZ.Blockchain.Failing

/-!
# An attempt whose calls fail

What an attempt at a block should do when calls fail: commit the block and count it, start it over,
or stop with an error and leave everything as it was (`Honest`).

* `copies_afterBegin`: an attempt between its begin and its commit.
* `run_indexBlock_faulty`: an attempt is honest if and only if its failures are handled.
-/

namespace ElectrumZ.Blockchain

open Foundations Bitcoin Dialog

/-- What an attempt at a block that makes the calls `tr` should do. -/
structure Honest (sha256 : Bytes → UInt256) (mode : ℕ) (blk : CBlock) (s s' : Store) (tr : Calls)
    (res : Except Stop Unit) : Prop where
  /-- The blocks counted are those that are committed. -/
  blocks : s'.total_block_process = s.total_block_process + commits tr
  txs : s'.total_tx_process = s.total_tx_process + commits tr * blk.vtx.length
  /-- If the worker goes on, all of the block is committed. -/
  goesOn : res = .ok () → commits tr = 1 ∧
    ∃ v, addBlock sha256 mode s.tables.opened blk = some v ∧ s'.tables = v.tables
  /-- If it starts over or stops, nothing is, and it stops with an error. -/
  stops : ∀ stop, res = .error stop → commits tr = 0 ∧ s'.tables = s.tables ∧
    (stop = .again ∨ ∃ err, err ≠ 0 ∧ stop = .err err)
  /-- When the map is full the block is started over. -/
  full : MapFull tr → res = .error .again

variable {answer : Calls → Call → ℤ} {n k : ℕ} {tr : Calls} {c : Call}

/-! ## Its parts -/

variable {sha256 : Bytes → UInt256}

/-- A put that starts over or gives up unless it returns zero. -/
theorem copies_store (hc : c.inner = true) (hcount : ∀ r, counted n ⟨c, r⟩ = n)
    (hpasses : ∀ r : Reply, Passes ⟨c, r⟩ ↔ r.code = 0)
    (htolerable : ∀ r : Reply, Tolerable n ⟨c, r⟩ ↔ r.code = 0 ∨ n = 0) :
    Copies answer n (call c >>= fun err => if err ≠ 0 then putFailed err else pure ()) n := by
  refine copies_call hc (fun r h => ?_) (fun r h _ => ?_)
  · rw [if_neg (not_not.mpr ((hpasses r).mp h)), hcount]
    exact copies_pure ()
  · have hcode : r.code ≠ 0 := fun hcode => h ((hpasses r).mpr hcode)
    rw [if_pos hcode]
    exact halts_putFailed hcode ((htolerable r).trans (or_iff_right hcode))

theorem copies_indexOutput (txHash : UInt256) (i : ℕ) (ntxo : CTxOut) :
    Copies answer n (indexOutput sha256 txHash i ntxo) n := by
  refine copies_call rfl (fun r hpasses => ?_) (fun r hfails _ => ?_)
  · obtain hcode | hcode : r.code = 0 ∨ r.code = MDB_KEYEXIST := hpasses
    · rw [if_neg (not_not.mpr hcode)]
      exact copies_store rfl (fun _ => rfl) (fun _ => Iff.rfl) fun _ => Iff.rfl
    · rw [hcode, if_pos (by decide), if_neg (by decide), if_pos rfl]
      exact copies_pure ()
  · obtain ⟨hcode, hexist⟩ : r.code ≠ 0 ∧ r.code ≠ MDB_KEYEXIST := not_or.mp hfails
    have htolerable : Tolerable n ⟨.put .addr (addrKey sha256 ntxo) (addrVal txHash i), r⟩ ↔
        n = 0 := (or_iff_right hcode).trans (or_iff_right hexist)
    rw [if_pos hcode, if_neg hexist]
    exact halts_putFailed hcode htolerable

theorem copies_indexOutputs (txHash : UInt256) (i : ℕ) (vout : List CTxOut) :
    Copies answer n (indexOutputs sha256 txHash i vout) n := by
  induction vout generalizing i with
  | nil => exact copies_pure ()
  | cons o vout ih => exact (copies_indexOutput txHash i o).bind fun _ => ih (i + 1)

/-- A transaction is counted when all its outputs are in. -/
theorem copies_indexTx (mode : ℕ) (tx : CTransaction) :
    Copies answer n (indexTx sha256 mode tx) (n + 1) := by
  have hbody : Copies answer n (indexInOut sha256 mode tx) n := by
    rw [indexInOut]
    split_ifs
    · rw [spendInputs_eq]
      exact copies_pure ()
    · exact copies_indexOutputs _ 0 _
  refine copies_call rfl (fun _ _ => hbody.bind fun _ => ?_) (fun _ _ h => absurd rfl (h _))
  refine copies_call rfl (fun _ _ => ?_) (fun _ h => absurd trivial h)
  exact copies_call rfl (fun _ _ => copies_pure ()) (fun _ h => absurd trivial h)

theorem copies_indexTxs (answer : Calls → Call → ℤ) (n mode : ℕ) (vtx : List CTransaction) :
    Copies answer n (indexTxs sha256 mode vtx) (n + vtx.length) := by
  induction vtx generalizing n with
  | nil => exact copies_pure ()
  | cons tx vtx ih =>
    have hlength : n + (tx :: vtx).length = n + 1 + vtx.length := by
      rw [List.length_cons]
      omega
    rw [hlength]
    exact (copies_indexTx mode tx).bind fun _ => ih (n + 1)

theorem copies_putHeader (header : CBlockHeader) :
    Copies answer n (putHeader sha256 header) n :=
  copies_store rfl (fun _ => rfl) (fun _ => Iff.rfl) fun _ => Iff.rfl

/-- A table that is not opened ends the attempt with an error, even when the map is full. -/
theorem halts_openFailed {dbn : Dbi} {dupsort : Bool} {r : Reply} (hcode : r.code = MDB_MAP_FULL) :
    Halts answer 0 ⟨.dbiOpen dbn dupsort, r⟩
      (increaseMapSize >>= fun err => (.fail (.err err) : Prog Unit)) := by
  intro s hs
  obtain ⟨m, tr, hrun, htr⟩ := run_increaseMapSize_faulty answer s
  have hleaving : ∀ e ∈ tr, e.1.leaving = true :=
    fun e he => (Bool.or_eq_true _ _).mpr (.inl (htr e he))
  obtain ⟨-, -, hcount, hcommits⟩ := leaving_quiet (n := 0) hleaving
  refine ⟨_, _, tr, Dialog.run_bind_of_ok hrun _, rfl, hleaving, ⟨rfl, rfl, rfl, hcount, hcommits⟩,
    .inr ⟨_, ?_, rfl⟩, nofun, ?_⟩
  · split_ifs <;> decide
  · exact iff_of_false (fun h => h hcode) fun h => nomatch h.2 hcode

theorem copies_openTable (dbn : Dbi) (dupsort : Bool) :
    Copies answer 0 (openTable dbn dupsort) 0 := by
  refine copies_call rfl (fun r hpasses => ?_) (fun r hfails _ => ?_)
  · have hcode : r.code = 0 := hpasses
    rw [if_neg (not_not.mpr hcode)]
    exact copies_pure ()
  · have hcode : r.code ≠ 0 := hfails
    rw [if_pos hcode]
    by_cases hfull : r.code = MDB_MAP_FULL
    · rw [if_pos hfull]
      exact halts_openFailed hfull
    · rw [if_neg hfull]
      exact halts_err hcode (iff_and_self.mpr fun _ => rfl)

/-- What follows the begin, up to the commit. -/
def afterBegin (sha256 : Bytes → UInt256) (mode : ℕ) (blk : CBlock) : Prog Unit := do
  openTable .txo true
  openTable .addr true
  openTable .blk false
  let err ← call (.setDupsort .txo txoCmp)
  check err
  putHeader sha256 blk.header
  indexTxs sha256 mode blk.vtx

theorem copies_afterBegin (answer : Calls → Call → ℤ) (sha256 : Bytes → UInt256) (mode : ℕ)
    (blk : CBlock) : Copies answer 0 (afterBegin sha256 mode blk) blk.vtx.length := by
  refine (copies_openTable .txo true).bind fun _ => (copies_openTable .addr true).bind fun _ => ?_
  refine (copies_openTable .blk false).bind fun _ => ?_
  refine copies_call rfl (fun r hpasses => ?_) (fun r hfails _ => ?_)
  · have hcode : r.code = 0 := hpasses
    rw [check, if_neg (not_not.mpr hcode)]
    have htxs : Copies answer 0 (indexTxs sha256 mode blk.vtx) (0 + blk.vtx.length) :=
      copies_indexTxs answer 0 mode blk.vtx
    rw [Nat.zero_add] at htxs
    exact (copies_putHeader blk.header).bind fun _ => htxs
  · have hcode : r.code ≠ 0 := hfails
    rw [check, if_pos hcode]
    exact halts_err hcode (iff_and_self.mpr fun _ => rfl)

theorem indexBlock_eq_afterBegin (sha256 : Bytes → UInt256) (mode : ℕ) (blk : CBlock) :
    indexBlock sha256 mode blk = call .txnBegin >>= fun err => check err >>= fun _ =>
      afterBegin sha256 mode blk >>= fun _ => commitBlock := by
  simp only [indexBlock, beginBlock, afterBegin, commitBlock, Dialog.bind_assoc]

/-- The commit is counted whatever it returns. -/
theorem run_commitBlock_faulty (answer : Calls → Call → ℤ) (s : Faulty) : ∃ r s',
    commitBlock.run (faulty answer) s = (.ok (), s') ∧
      s'.log = s.log ++ [⟨.txnCommit, r⟩, ⟨.tally .block, {}⟩] ∧
      s'.store.txn = none ∧ s'.lost = s.lost ∧
      s'.store.total_block_process = s.store.total_block_process + 1 ∧
      s'.store.total_tx_process = s.store.total_tx_process ∧
      (r.code = 0 → commitBlock.run lmdb s.store = (.ok (), s'.store)) := by
  have hlog (r : Reply) : s.log ++ [⟨.txnCommit, r⟩, ⟨.tally .block, {}⟩] =
      s.log ++ [⟨.txnCommit, r⟩] ++ [⟨.tally .block, {}⟩] := by simp
  by_cases hcode : answer s.log .txnCommit = 0
  · have hcommit : faulty answer .txnCommit s = (.ok {}, s.made .txnCommit {}
        { s.store with tables := s.store.txn.getD s.store.tables, txn := none }) := by
      rw [faulty, hcode]
      rfl
    refine ⟨{}, _, Dialog.run_bind_of_ok (run_call_faulty hcommit) _, ?_, rfl, rfl, rfl, rfl,
      fun _ => rfl⟩
    exact (hlog {}).symm
  · have hcommit : faulty answer .txnCommit s = (.ok { code := answer s.log .txnCommit },
        s.fail .txnCommit (answer s.log .txnCommit)) := by
      rw [faulty, if_pos (by simp [Call.failsWith, Call.fallible, hcode])]
    refine ⟨{ code := answer s.log .txnCommit }, _,
      Dialog.run_bind_of_ok (run_call_faulty hcommit) _, ?_, rfl, rfl, rfl, rfl,
      fun h => absurd h hcode⟩
    exact (hlog _).symm

/-- What an attempt that is through has stored. -/
theorem addBlock_of_run {mode : ℕ} {blk : CBlock} {s s' : Store} (hs : s.txn = none)
    (h : (indexBlock sha256 mode blk).run lmdb s = (.ok (), s')) :
    ∃ v, addBlock sha256 mode s.tables.opened blk = some v ∧ s'.tables = v.tables := by
  cases hadd : addBlock sha256 mode s.tables.opened blk with
  | some v =>
    obtain ⟨s₁, hrun, -, htables⟩ := run_indexBlock hs hadd
    obtain rfl := (Prod.mk.inj (h.symm.trans hrun)).2
    exact ⟨v, rfl, htables⟩
  | none =>
    obtain ⟨s₁, hrun, -⟩ := run_indexBlock_none hs hadd
    exact nomatch (Prod.mk.inj (h.symm.trans hrun)).1

/-- An attempt that does not commit is honest if it has counted nothing, and started over when the
map was full. -/
theorem honest_error_iff {mode : ℕ} {blk : CBlock} {s s' : Store} {stop : Stop}
    (htables : s'.tables = s.tables) (hblocks : s'.total_block_process = s.total_block_process)
    (htxs : s'.total_tx_process = s.total_tx_process + k) (hcommits : commits tr = 0)
    (herr : stop = .again ∨ ∃ err, err ≠ 0 ∧ stop = .err err) :
    Honest sha256 mode blk s s' tr (.error stop) ↔ k = 0 ∧ (MapFull tr → stop = .again) := by
  constructor
  · intro h
    have hk := h.txs
    rw [htxs, hcommits, Nat.zero_mul] at hk
    exact ⟨by omega, fun hfull => Except.error.inj (h.full hfull)⟩
  · rintro ⟨rfl, hfull⟩
    refine ⟨by rw [hblocks, hcommits]; rfl, by rw [htxs, hcommits, Nat.zero_mul], nofun, ?_, ?_⟩
    · intro stop' hstop'
      obtain rfl := Except.error.inj hstop'
      exact ⟨hcommits, htables, herr⟩
    · exact fun h => congrArg Except.error (hfull h)

/-- The codes of a commit that is made after a clean run decide. -/
theorem honest_ok_iff {mode : ℕ} {blk : CBlock} {s s₂ s' : Store} {r : Reply}
    (hkept : Kept 0 blk.vtx.length s s₂ tr) (hhandled : Handled 0 tr) (hfull : ¬ MapFull tr)
    (hblocks : s'.total_block_process = s₂.total_block_process + 1)
    (htxs : s'.total_tx_process = s₂.total_tx_process)
    (hadd : r.code = 0 →
      ∃ v, addBlock sha256 mode s.tables.opened blk = some v ∧ s'.tables = v.tables) :
    Honest sha256 mode blk s s' (tr ++ [⟨.txnCommit, r⟩, ⟨.tally .block, {}⟩]) (.ok ()) ↔
      Handled 0 (tr ++ [⟨.txnCommit, r⟩, ⟨.tally .block, {}⟩]) := by
  have hcommits : commits (tr ++ [⟨.txnCommit, r⟩, ⟨.tally .block, {}⟩]) =
      if r.code = 0 then 1 else 0 := by
    rw [commits, List.countP_append, ← commits, hkept.commits]
    by_cases hcode : r.code = 0 <;> simp [hcode]
  have hcounted := hkept.txs
  rw [handled_append]
  by_cases hcode : r.code = 0
  · rw [if_pos hcode] at hcommits
    refine iff_of_true ⟨?_, ?_, fun _ => ⟨hcommits, hadd hcode⟩, ?_, fun h => ?_⟩
      ⟨hhandled, hcode, trivial, trivial⟩
    · rw [hcommits, hblocks, hkept.blocks]
    · rw [hcommits, htxs]
      omega
    · intro stop h
      cases h
    · obtain h | ⟨e, he, hfallible, hmap⟩ := mapFull_append.mp h
      · exact absurd h hfull
      · obtain rfl | rfl : e = ⟨.txnCommit, r⟩ ∨ e = ⟨.tally .block, {}⟩ := by simpa using he
        · exact absurd (hcode.symm.trans hmap) (by decide)
        · cases hfallible
  · rw [if_neg hcode] at hcommits
    refine iff_of_false (fun h => ?_) fun h => hcode h.2.1
    have hh := h.blocks
    rw [hcommits, hblocks, hkept.blocks] at hh
    omega

theorem run_afterBegin_faulty (answer : Calls → Call → ℤ) (sha256 : Bytes → UInt256) (mode : ℕ)
    (blk : CBlock) {s : Store} (s₁ : Faulty) (htxn : s.txn = none)
    (hs₁ : s₁.store = { s with txn := some s.tables }) (hlost : s₁.lost = false) : ∃ res s' tr,
    (afterBegin sha256 mode blk >>= fun _ => commitBlock).run (faulty answer) s₁ = (res, s') ∧
      s'.log = s₁.log ++ tr ∧
      (CursorsOpen tr → (Honest sha256 mode blk s s'.store tr res ↔ Handled 0 tr) ∧
        (res = .ok () ∨ res = .error .again → s'.store.txn = none ∧ s'.lost = false)) := by
  obtain ⟨tr, hlog, h⟩ := copies_afterBegin answer sha256 mode blk s₁ hlost
  by_cases hopen : CursorsOpen tr
  · have hout := h hopen
    generalize hclean : (afterBegin sha256 mode blk).run lmdb s₁.store = clean at hout
    generalize hrun : (afterBegin sha256 mode blk).run (faulty answer) s₁ = out at hout hlog
    cases hout with
    | goesOn a s₂ hclean' hlost₂ hkept hhandled hfull =>
      subst hclean'
      obtain ⟨r, s', hcommit, hlog', htxn', hlost', hblocks, htxs, hmade⟩ :=
        run_commitBlock_faulty answer s₂
      refine ⟨.ok (), s', tr ++ [⟨.txnCommit, r⟩, ⟨.tally .block, {}⟩], ?_, ?_, fun _ => ⟨?_, ?_⟩⟩
      · rw [Dialog.run_bind_of_ok hrun, hcommit]
      · rw [hlog', hlog, List.append_assoc]
      · rw [hs₁] at hkept
        refine honest_ok_iff ⟨hkept.tables, hkept.blocks, hkept.txs, hkept.count, hkept.commits⟩
          hhandled hfull hblocks htxs fun hcode => addBlock_of_run htxn ?_
        have hbegin : lmdb .txnBegin s = (.ok {}, s₁.store) := by rw [lmdb, htxn, hs₁]
        rw [indexBlock_eq_afterBegin, Dialog.run_bind_of_ok (run_call hbegin)]
        exact (Dialog.run_bind_of_ok hclean _).trans (hmade hcode)
      · exact fun _ => ⟨htxn', hlost'.trans hlost₂⟩
    | stops k stop s' hkept herr hagain hhandled =>
      rw [hs₁] at hkept
      refine ⟨.error stop, s', tr, Dialog.run_bind_of_error hrun _, hlog, fun _ => ⟨?_, ?_⟩⟩
      · rw [hhandled]
        exact honest_error_iff hkept.tables hkept.blocks hkept.txs hkept.commits herr
      · rintro (h | h)
        · cases h
        · exact hagain (Except.error.inj h)
  · rcases hrun : (afterBegin sha256 mode blk).run (faulty answer) s₁ with ⟨stop | a, s₂⟩ <;>
      rw [hrun] at hlog
    · exact ⟨_, s₂, tr, Dialog.run_bind_of_error hrun _, hlog, fun h => absurd h hopen⟩
    · obtain ⟨tr', hlog'⟩ := run_faulty_log answer commitBlock s₂
      refine ⟨_, _, tr ++ tr', Dialog.run_bind_of_ok hrun _, ?_, fun h => ?_⟩
      · rw [hlog', hlog, List.append_assoc]
      · exact absurd (cursorsOpen_append.mp h).1 hopen

/-- A begin that succeeds makes no difference. -/
theorem honest_begin {mode : ℕ} {blk : CBlock} {s s' : Store} {res : Except Stop Unit} :
    Honest sha256 mode blk s s' (⟨.txnBegin, {}⟩ :: tr) res ↔
      Honest sha256 mode blk s s' tr res := by
  have hfull : MapFull (⟨.txnBegin, {}⟩ :: tr) ↔ MapFull tr := by
    rw [← List.singleton_append, mapFull_append, or_iff_right]
    simp [MapFull, Call.fallible, MDB_MAP_FULL]
  constructor
  · exact fun h => ⟨h.blocks, h.txs, h.goesOn, h.stops, fun hmap => h.full (hfull.mpr hmap)⟩
  · exact fun h => ⟨h.blocks, h.txs, h.goesOn, h.stops, fun hmap => h.full (hfull.mp hmap)⟩

/-- **An attempt is honest if and only if its failures are handled**, as long as there is a
cursor. -/
theorem run_indexBlock_faulty (answer : Calls → Call → ℤ) (sha256 : Bytes → UInt256) (mode : ℕ)
    (blk : CBlock) {s : Faulty} (htxn : s.store.txn = none) (hlost : s.lost = false) :
    ∃ res s' r tr, (indexBlock sha256 mode blk).run (faulty answer) s = (res, s') ∧
      s'.log = s.log ++ ⟨.txnBegin, r⟩ :: tr ∧ (CursorsOpen (⟨.txnBegin, r⟩ :: tr) →
        (Honest sha256 mode blk s.store s'.store (⟨.txnBegin, r⟩ :: tr) res ↔
          Handled 0 (⟨.txnBegin, r⟩ :: tr)) ∧
        (res = .ok () ∨ res = .error .again → s'.store.txn = none ∧ s'.lost = false)) := by
  by_cases hcode : answer s.log .txnBegin = 0
  · have hbegin : faulty answer .txnBegin s = (.ok {}, s.made .txnBegin {}
        { s.store with txn := some s.store.tables }) := by
      rw [faulty, hcode, lmdb, htxn]
      rfl
    obtain ⟨res, s', tr, hrun, hlog, h⟩ := run_afterBegin_faulty answer sha256 mode blk
      (s.made .txnBegin {} { s.store with txn := some s.store.tables }) htxn rfl hlost
    refine ⟨res, s', {}, tr, ?_, ?_, fun hopen => ?_⟩
    · rw [indexBlock_eq_afterBegin, Dialog.run_bind_of_ok (run_call_faulty hbegin)]
      exact hrun
    · rw [hlog]
      exact List.append_assoc _ _ _
    · have hopen' : CursorsOpen tr := fun dbi r hr => hopen dbi r (List.mem_cons_of_mem _ hr)
      rw [honest_begin, (h hopen').1]
      refine ⟨?_, (h hopen').2⟩
      exact (and_iff_right (by decide : (0 : ℤ) ≠ MDB_MAP_FULL)).symm
  · have hbegin : faulty answer .txnBegin s = (.ok { code := answer s.log .txnBegin },
        s.fail .txnBegin (answer s.log .txnBegin)) := by
      rw [faulty, if_pos (by simp [Call.failsWith, Call.fallible, hcode])]
    refine ⟨.error (.err (answer s.log .txnBegin)), s.fail .txnBegin (answer s.log .txnBegin),
      { code := answer s.log .txnBegin }, [], ?_, rfl, fun _ => ⟨?_, ?_⟩⟩
    · rw [indexBlock_eq_afterBegin, Dialog.run_bind_of_ok (run_call_faulty hbegin), check,
        if_pos hcode]
      rfl
    · refine (honest_error_iff (k := 0) rfl rfl rfl rfl (.inr ⟨_, hcode, rfl⟩)).trans ?_
      simp [MapFull, Call.fallible, Handled, Tolerable]
    · rintro (h | h) <;> cases h

end ElectrumZ.Blockchain
