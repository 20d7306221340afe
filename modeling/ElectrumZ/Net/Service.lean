import ElectrumZ.Blockchain.Overwriting
import ElectrumZ.Net.NetWorker

/-!
# The life of a database

A database goes through runs of the program, one after another, preloads and servers, each stopped
in any state after it has started up.

* `Life.lists`: whatever it has gone through, `addr` has an outpoint under the script hashes paid by
  the blocks whose outputs have been committed, and under no others.
* `handleRead_serves`: on such a database a read neither waits for a lookup nor is thrown out of
  one, and leaves the database as it is.
* `service`: so in **every run of a server, on every database in its life**, lookups find the
  outputs that were committed, and none brings the server down.
-/

namespace ElectrumZ.Net

open Foundations Bitcoin Blockchain JsonRPCServer

variable {sha256 : Bytes → UInt256} {blks blks' : List CBlock} {v v' : View} {key : Bytes}

/-! ## What `addr` lists -/

/-- An output of the blocks pays the script hash. -/
def Pays (sha256 : Bytes → UInt256) (blks : List CBlock) (key : Bytes) : Prop :=
  ∃ b ∈ blks, ∃ tx ∈ b.vtx, ∃ o ∈ tx.vout, addrKey sha256 o = key

/-- `addr` has values under the keys in `K` and no others, and all of them are outpoints. -/
structure AddrLists (K : Bytes → Prop) (t : Table) : Prop where
  keys : ∀ key, t.vals key ≠ [] ↔ K key
  length : ∀ key, ∀ val ∈ t.vals key, val.length = 36

theorem length_addrVal (txHash : UInt256) (n : ℕ) : (addrVal txHash n).length = 36 := by
  simp [addrVal, COutPoint.serialize, UInt256.serialize, txHash.size_eq, serWritedata32]

/-- An output adds its script hash. -/
theorem AddrLists.addOutput {K : Bytes → Prop} {txHash : UInt256} {n : ℕ} {o : CTxOut}
    (h : AddrLists K v.addr) (hadd : addOutput sha256 txHash n o v = some v') :
    AddrLists (fun key => K key ∨ addrKey sha256 o = key) v'.addr := by
  unfold Blockchain.addOutput at hadd
  cases hput : v.addr.put (addrKey sha256 o) (addrVal txHash n) with
  | none =>
    rw [hput] at hadd
    obtain rfl := Option.some.inj hadd
    refine ⟨fun key => ?_, h.length⟩
    rw [h.keys]
    refine (or_iff_left_of_imp ?_).symm
    rintro rfl
    exact (h.keys _).mp (Foundations.Table.vals_ne_nil_of_put_eq_none hput)
  | some addr =>
    rw [hput] at hadd
    obtain ⟨txo, -, rfl⟩ := Option.map_eq_some_iff.mp hadd
    refine ⟨fun key => ?_, fun key val hval => ?_⟩
    · rw [Foundations.Table.put_vals_ne_nil hput, h.keys, or_comm, eq_comm]
    · obtain rfl | hval := Foundations.Table.eq_or_mem_of_mem_put hput hval
      · exact length_addrVal txHash n
      · exact h.length key val hval

theorem AddrLists.congr {K K' : Bytes → Prop} {t : Table} (h : AddrLists K t)
    (hK : ∀ key, K key ↔ K' key) : AddrLists K' t where
  keys key := (h.keys key).trans (hK key)
  length := h.length

theorem AddrLists.addOutputs {K : Bytes → Prop} {txHash : UInt256} {n : ℕ} {vout : List CTxOut}
    (h : AddrLists K v.addr) (hadd : addOutputs sha256 txHash n vout v = some v') :
    AddrLists (fun key => K key ∨ ∃ o ∈ vout, addrKey sha256 o = key) v'.addr := by
  induction vout generalizing n v K with
  | nil =>
    obtain rfl := Option.some.inj hadd
    exact h.congr fun key => by simp
  | cons o vout ih =>
    obtain ⟨v₁, h₁, h₂⟩ := Option.bind_eq_some_iff.mp hadd
    exact (ih (h.addOutput h₁) h₂).congr fun key => by simp [or_assoc]

/-- What each step adds, a sequence of steps adds. -/
theorem AddrLists.foldlM {α : Type} {step : View → α → Option View} {P : α → Bytes → Prop}
    (hstep : ∀ {K v a v'}, AddrLists K v.addr → step v a = some v' →
      AddrLists (fun key => K key ∨ P a key) v'.addr)
    {K : Bytes → Prop} {l : List α} (h : AddrLists K v.addr) (hl : l.foldlM step v = some v') :
    AddrLists (fun key => K key ∨ ∃ a ∈ l, P a key) v'.addr := by
  induction l generalizing v K with
  | nil =>
    obtain rfl := Option.some.inj hl
    exact h.congr fun key => by simp
  | cons a l ih =>
    obtain ⟨v₁, h₁, h₂⟩ := Option.bind_eq_some_iff.mp (List.foldlM_cons.symm.trans hl)
    exact (ih (hstep h h₁) h₂).congr fun key => by simp [or_assoc]

/-- A block adds the script hashes of its outputs, in the first phase. -/
theorem AddrLists.addBlock {K : Bytes → Prop} {b : ℕ × CBlock} (h : AddrLists K v.addr)
    (hadd : addBlock sha256 b.1 v b.2 = some v') :
    AddrLists (fun key => K key ∨
      b.1 ≠ 1 ∧ ∃ tx ∈ b.2.vtx, ∃ o ∈ tx.vout, addrKey sha256 o = key) v'.addr := by
  obtain ⟨blk, -, htxs⟩ := Option.bind_eq_some_iff.mp hadd
  have hblk : AddrLists K ({ v with blk } : View).addr := h
  refine (hblk.foldlM (P := fun tx key => b.1 ≠ 1 ∧ ∃ o ∈ tx.vout, addrKey sha256 o = key)
    (fun {K v tx v'} h hadd => ?_) htxs).congr fun key => ?_
  · unfold addTx at hadd
    split_ifs at hadd with hmode
    · obtain rfl := Option.some.inj hadd
      exact h.congr fun key => by simp [hmode]
    · exact (h.addOutputs hadd).congr fun key => by simp [hmode]
  · by_cases hmode : b.1 = 1 <;> simp [hmode]

/-- **The tables of a pool** list what the committed blocks pay, besides what was there. -/
theorem AddrLists.stored {tables : Tables} {s : Pool} {K : Bytes → Prop}
    (h : AddrLists K tables.opened.addr) (hs : Pool.Stored sha256 tables s) :
    AddrLists (fun key => K key ∨ Pays sha256 (outputBlocks s.committed) key)
      s.store.tables.opened.addr := by
  obtain ⟨v, hv, hopened⟩ := hs
  rw [hopened]
  refine (h.foldlM (fun h hadd => h.addBlock hadd) hv).congr fun key => or_congr_right ?_
  simp only [Pays, mem_outputBlocks]
  constructor
  · rintro ⟨⟨mode, b⟩, hmem, hmode, hpays⟩
    exact ⟨b, ⟨mode, hmode, hmem⟩, hpays⟩
  · rintro ⟨b, ⟨mode, hmode, hmem⟩, hpays⟩
    exact ⟨(mode, b), hmem, hmode, hpays⟩

/-! ## Starting up -/

section Startup

variable {s s' s₀ : Store} {ts : Tables}

theorem opened_addr_dbiOpen (ts : Tables) (dbi : Dbi) :
    (ts.dbiOpen dbi false).opened.addr.vals = ts.opened.addr.vals := by
  obtain ⟨txo, addr, blk⟩ := ts
  cases dbi <;> cases txo <;> cases addr <;> cases blk <;> rfl

/-- A statistics query creates a table that is missing. -/
theorem run_getTXOStats (htxn : s.txn = none) (dbi : Dbi) :
    (getTXOStats dbi).run lmdb s = (.ok 0, { s with tables := s.tables.dbiOpen dbi false }) := by
  obtain ⟨⟨txo, addr, blk⟩, txn, mapsize, ntx, nblk⟩ := s
  obtain rfl : txn = none := htxn
  cases dbi <;> cases txo <;> cases addr <;> cases blk <;> rfl

theorem run_openEnv (htxn : s.txn = none) :
    ∃ mapsize, openEnv.run lmdb s = (.ok 0, { s with mapsize }) := by
  obtain ⟨tables, txn, mapsize, ntx, nblk⟩ := s
  obtain rfl : txn = none := htxn
  by_cases hsize : mapsize < MAPSIZE_BASE_UNIT
  · refine ⟨MAPSIZE_BASE_UNIT, ?_⟩
    simp [openEnv, call, Dialog.run_bind, Dialog.run_query, lmdb, hsize]
  · refine ⟨mapsize, ?_⟩
    simp [openEnv, call, Dialog.run_bind, Dialog.run_query, lmdb, hsize]

/-- **Starting up** succeeds, and changes no value in `addr`. -/
theorem run_startup_any (htxn : s.txn = none) : ∃ s', startup.run lmdb s = (.ok true, s') ∧
    s'.txn = none ∧ s'.tables.opened.addr.vals = s.tables.opened.addr.vals := by
  obtain ⟨mapsize, hopen⟩ := run_openEnv htxn
  let tables := ((s.tables.dbiOpen .txo false).dbiOpen .addr false).dbiOpen .blk false
  refine ⟨{ s with mapsize, tables }, ?_, htxn, ?_⟩
  · rw [startup, Dialog.run_bind_of_ok hopen, if_neg (by decide),
      Dialog.run_bind_of_ok (run_getTXOStats (by exact htxn) .txo), if_neg (by decide),
      Dialog.run_bind_of_ok (run_getTXOStats (by exact htxn) .addr), if_neg (by decide),
      Dialog.run_bind_of_ok (run_getTXOStats (by exact htxn) .blk), if_neg (by decide)]
    rfl
  · rw [opened_addr_dbiOpen, opened_addr_dbiOpen, opened_addr_dbiOpen]

theorem AddrLists.startup {K : Bytes → Prop} (h : AddrLists K s.tables.opened.addr)
    (htxn : s.txn = none) (hstart : Blockchain.startup.run lmdb s = (.ok true, s₀)) :
    s₀.txn = none ∧ AddrLists K s₀.tables.opened.addr := by
  obtain ⟨s', hrun, htxn', hvals⟩ := run_startup_any htxn
  obtain rfl := (Prod.mk.inj (hstart.symm.trans hrun)).2
  refine ⟨htxn', fun key => ?_, fun key => ?_⟩
  · rw [hvals]
    exact h.keys key
  · rw [hvals]
    exact h.length key

end Startup

/-! ## Lookups -/

section Lookup

variable {K : Bytes → Prop} {s : Store}

theorem stored_addr (s : Store) (key : Bytes) :
    s.stored .addr key = (s.tables.opened.addr.vals key).head? := by
  obtain ⟨⟨txo, _ | addr, blk⟩, txn, mapsize, ntx, nblk⟩ := s <;> rfl

/-- It can be searched for every key. -/
theorem AddrLists.searchable (h : AddrLists K s.tables.opened.addr) (htxn : s.txn = none)
    (key : Bytes) : s.Searchable key where
  txn := htxn
  long v hv := by
    rw [stored_addr] at hv
    rw [h.length key v (List.mem_of_mem_head? hv)]

/-- **A lookup finds what is listed**, and leaves the database as it was. -/
theorem AddrLists.run_getTXOs (h : AddrLists K s.tables.opened.addr) (htxn : s.txn = none)
    (scriptHash : UInt256) (ntx : List TXO) :
    ∃ err, (getTXOs scriptHash ntx).run lmdb s = (.ok (err, ntx), s) ∧
      (err = TXO_OK ↔ K scriptHash.serialize) ∧
      (err = TXO_NOTFOUND ↔ ¬ K scriptHash.serialize) := by
  have hstored := stored_addr s scriptHash.serialize
  cases hv : s.stored .addr scriptHash.serialize with
  | none =>
    rw [hv] at hstored
    have hK : ¬ K scriptHash.serialize := by
      rw [← h.keys, not_not]
      exact List.head?_eq_none_iff.mp hstored.symm
    refine ⟨TXO_NOTFOUND, run_getTXOs_none scriptHash ntx htxn hv, ?_, ?_⟩
    · exact iff_of_false (by decide) hK
    · exact iff_of_true rfl hK
  | some v =>
    rw [hv] at hstored
    have hmem : v ∈ s.tables.opened.addr.vals scriptHash.serialize :=
      List.mem_of_mem_head? hstored.symm
    have hK : K scriptHash.serialize := (h.keys _).mp (List.ne_nil_of_mem hmem)
    have hlong : 36 ≤ v.length := (h.length _ v hmem).ge
    refine ⟨TXO_OK, run_getTXOs_some scriptHash ntx htxn hv hlong, ?_, ?_⟩
    · exact iff_of_true rfl hK
    · exact iff_of_false (by decide) (not_not.mpr hK)

end Lookup

/-! ## Serving -/

section Serving

variable {lib : Mbedtls} {env : Env} {renv : RPCEnv} {r : Read} {srv : JsonRPCServer lib}
  {nw nw' : NetWorker lib} {cfg : Config} {codes : InitCodes}

/-- A failure that no lookup is to blame for. -/
def Fault.Harmless (e : Fault) : Prop := e ≠ .blocked ∧ ∀ f, e ≠ .stream f

/-- A database that can be searched is left as it is, and lookups in it return. -/
theorem serving_sessionKept (env : Env) (h : ∀ key, r.store.Searchable key) :
    SessionKept env (MetBy r) fun e s => MetBy r s ∧ e.Harmless where
  command := by
    refine handleCommand_maintains (fun _ hs => ⟨hs, by simp [Fault.Harmless]⟩)
      (fun _ _ hs => ⟨hs, by simp [Fault.Harmless]⟩) (fun _ _ hs => hs) (fun scriptHash s hs => ?_)
      (rpcQuery_maintains_metBy fun _ hs => ⟨hs, by simp [Fault.Harmless]⟩)
    obtain ⟨err, hrun⟩ := run_getTXOs scriptHash [] (h scriptHash.serialize)
    rw [← hs.1] at hrun
    rw [onStore, hrun]
    exact ⟨fun _ _ => hs, fun e he => by cases he⟩
  wire _ _ hs := hs
  json _ h := h.1
  null _ hs := ⟨hs, by simp [Fault.Harmless]⟩
  assertion _ _ hs := ⟨hs, by simp [Fault.Harmless]⟩

/-- **However a read ends**, it leaves such a database as it is, and no lookup is what ends it. -/
theorem handleRead_serves (h : ∀ key, r.store.Searchable key) :
    (handleRead env r srv).2.session.store = r.store ∧
      ∀ e, (handleRead env r srv).1 = .error e → e.Harmless := by
  obtain ⟨hok, herr⟩ :=
    @SessionKept.handleRead lib env r srv _ _ (serving_sessionKept env h) ⟨rfl, rfl⟩
  rcases hread : (handleRead env r srv).1 with e | ret
  · refine ⟨(herr e hread).1.1, fun e' he => ?_⟩
    cases he
    exact (herr e hread).2
  · exact ⟨(hok ret hread).1, by simp⟩

theorem new_db (db : Store) (cfg : Config) (codes : InitCodes) :
    (NetWorker.new db cfg codes : NetWorker lib).db = db ∧
      (NetWorker.new db cfg codes : NetWorker lib).clients = [] := by
  unfold NetWorker.new NetWorker.connectRpc
  split_ifs <;> exact ⟨rfl, rfl⟩

/-- The server has the database of the beginning, and no lookup has ended a read. -/
structure Serving (db : Store) (nw : NetWorker lib) : Prop where
  db : nw.db = db
  harmless : ∀ client ∈ nw.clients, ∀ e, client.outcome = .error e → e.Harmless

theorem Serving.onConnect {db : Store} (h : Serving db nw) (status accept : ℤ) :
    Serving db (nw.onConnect status accept) := by
  unfold NetWorker.onConnect
  split_ifs
  · refine ⟨h.db, fun client hclient => ?_⟩
    rw [List.mem_append, List.mem_singleton] at hclient
    obtain hclient | rfl := hclient
    · exact h.harmless client hclient
    · simp
  · exact h

theorem Serving.read {db : Store} (h : Serving db nw) (hdb : ∀ key, db.Searchable key) {k : ℕ}
    {base after : Bytes} (hread : nw.read env renv k base after = some nw') : Serving db nw' := by
  obtain ⟨srv, srv', res, hk, hrun, rfl⟩ := NetWorker.read_cases hread
  obtain ⟨hstore, hharmless⟩ := @handleRead_serves lib env
    ⟨base, after, nw.db, nw.link⟩ srv (h.db ▸ hdb)
  rw [hrun] at hstore hharmless
  refine ⟨hstore.trans h.db, fun client hclient => ?_⟩
  obtain hclient | rfl := List.mem_or_eq_of_mem_set hclient
  · exact h.harmless client hclient
  · intro e he
    cases res with
    | error e' =>
      cases he
      exact hharmless e rfl
    | ok ret => cases he

theorem Serving.rpcCallback {db : Store} (h : Serving db nw) {x : RPCM Unit}
    (hcallback : nw.rpcCallback x = some nw') : Serving db nw' := by
  obtain ⟨c, -, rfl⟩ := Option.map_eq_some_iff.mp hcallback
  exact ⟨h.db, h.harmless⟩

/-- One event on the loop. -/
theorem Serving.step {db : Store} (h : Serving db nw) (hdb : ∀ key, db.Searchable key)
    {a : NetWorker.Event} (hstep : NetWorker.step env renv a nw = some nw') : Serving db nw' := by
  unfold NetWorker.step at hstep
  split_ifs at hstep
  cases a with
  | onConnect status accept =>
    obtain rfl := Option.some.inj hstep
    exact h.onConnect status accept
  | read k base after => exact h.read hdb hstep
  | rpcConnect handle status read_start => exact h.rpcCallback hstep
  | rpcRead nread fragments => exact h.rpcCallback hstep

/-- **Every run** of a server. -/
theorem serving_of_runs {db : Store} (hdb : ∀ key, db.Searchable key)
    {events : List NetWorker.Event}
    (hrun : Runs (NetWorker.step env renv) (.new db cfg codes) events nw) : Serving db nw := by
  refine runs_invariant (fun a nw nw' h hstep => h.step hdb hstep) hrun
    ⟨(new_db db cfg codes).1, ?_⟩
  rw [(new_db db cfg codes).2]
  simp

end Serving

/-! ## The life of a database -/

/-- A database as a program that starts finds it. -/
def atRest (tables : Tables) (mapsize : ℕ) : Store := ⟨tables, none, mapsize, 0, 0⟩

/-- What a database may have gone through, with the blocks whose outputs have been committed. -/
inductive Life (sha256 : Bytes → UInt256) : List CBlock → Tables → Prop
  | new : Life sha256 [] .none
  | preload {blks : List CBlock} {tables : Tables} {mapsize : ℕ} {s₀ : Store} {files : List Bytes}
      {n : ℕ} {as : List PoolAction} {s : Pool} (h : Life sha256 blks tables)
      (hstart : startup.run lmdb (atRest tables mapsize) = (.ok true, s₀))
      (hrun : Runs (Pool.step sha256 files) (.start n s₀.tables s₀.mapsize) as s) :
      Life sha256 (blks ++ outputBlocks s.committed) s.store.tables
  | serve {blks : List CBlock} {tables : Tables} {mapsize : ℕ} {s₀ : Store} {lib : Mbedtls}
      {env : Env} {renv : RPCEnv} {cfg : Config} {codes : InitCodes} {events : List NetWorker.Event}
      {nw : NetWorker lib} (h : Life sha256 blks tables)
      (hstart : startup.run lmdb (atRest tables mapsize) = (.ok true, s₀))
      (hrun : Runs (NetWorker.step env renv) (.new s₀ cfg codes) events nw) :
      Life sha256 blks nw.db.tables

variable {tables : Tables} {mapsize : ℕ} {s₀ : Store}

/-- **Whatever a database has gone through**, it lists what the blocks pay whose outputs have been
committed. -/
theorem Life.lists (h : Life sha256 blks tables) :
    AddrLists (Pays sha256 blks) tables.opened.addr := by
  induction h with
  | new =>
    refine ⟨fun key => iff_of_false (not_not.mpr rfl) ?_, fun key val hval => by cases hval⟩
    rintro ⟨b, hb, -⟩
    cases hb
  | preload h hstart hrun ih =>
    obtain ⟨-, hlists⟩ := ih.startup rfl hstart
    have hatomic := ((Pool.intact_always _ _ _ _ _ _).last hrun).atomic
    refine (hlists.stored hatomic.stored).congr fun key => ?_
    simp only [Pays, List.mem_append, or_and_right, exists_or]
  | serve h hstart hrun ih =>
    obtain ⟨htxn, hlists⟩ := ih.startup rfl hstart
    rw [(serving_of_runs (hlists.searchable htxn) hrun).db]
    exact hlists

/-- **In every run of a server, on every database in its life**, the database stays as it is, no
lookup keeps a read waiting or throws, and lookups find exactly the script hashes paid by the blocks
whose outputs have been committed. A block that is committed in the second phase alone, its outputs
given up in the first, is not among them. -/
theorem service {lib : Mbedtls} {env : Env} {renv : RPCEnv} {cfg : Config} {codes : InitCodes}
    {events : List NetWorker.Event} {nw : NetWorker lib} (hlife : Life sha256 blks tables)
    (hstart : startup.run lmdb (atRest tables mapsize) = (.ok true, s₀))
    (hrun : Runs (NetWorker.step env renv) (.new s₀ cfg codes) events nw) :
    nw.db = s₀ ∧
      (∀ client ∈ nw.clients, ∀ e, client.outcome = .error e → e.Harmless) ∧
      ∀ scriptHash ntx, ∃ err, (getTXOs scriptHash ntx).run lmdb nw.db = (.ok (err, ntx), nw.db) ∧
        (err = TXO_OK ↔ Pays sha256 blks scriptHash.serialize) ∧
        (err = TXO_NOTFOUND ↔ ¬ Pays sha256 blks scriptHash.serialize) := by
  obtain ⟨htxn, hlists⟩ := hlife.lists.startup rfl hstart
  have hserving := serving_of_runs (hlists.searchable htxn) hrun
  refine ⟨hserving.db, hserving.harmless, fun scriptHash ntx => ?_⟩
  rw [hserving.db]
  exact hlists.run_getTXOs htxn scriptHash ntx

/-- Two workers preload two blocks into a new database, and a server is started on it and accepts a
connection: the script hash the blocks pay is found, and another is not. -/
theorem service_twoOutputs : ∃ nw : NetWorker nullCipher, nw.clients.length = 1 ∧
    (getTXOs (Pool.sumDigest [0x51]) []).run lmdb nw.db = (.ok (TXO_OK, []), nw.db) ∧
    (getTXOs .zero []).run lmdb nw.db = (.ok (TXO_NOTFOUND, []), nw.db) := by
  obtain ⟨s, h⟩ := Pool.completes_secondFirst
  have hlife : Life Pool.sumDigest (outputBlocks s.committed) s.store.tables :=
    @Life.preload _ _ _ Store.DEFAULT_MAPSIZE _ _ _ _ _ .new rfl h.runs
  obtain ⟨s₀, hstart, -⟩ := run_startup_any (s := atRest s.store.tables MAPSIZE_BASE_UNIT) rfl
  obtain ⟨nw, hrun, hcount⟩ : ∃ nw : NetWorker nullCipher,
      Runs (NetWorker.step pingEnv firstEnv) (.new s₀ NetWorker.tlsConfig NetWorker.noErrors)
        [.onConnect 0 0] nw ∧ nw.clients.length = 1 :=
    ⟨_, ⟨_, rfl, rfl⟩, rfl⟩
  obtain ⟨-, -, hlookup⟩ := service hlife hstart hrun
  have hblocks : blocksIn [twoOutputs.content, Pool.oneOutput.content] =
      allBlocks [twoOutputs, Pool.oneOutput] := blocksIn_content [twoOutputs, Pool.oneOutput]
  have hmem (b : CBlock) :
      b ∈ outputBlocks s.committed ↔ b ∈ allBlocks [twoOutputs, Pool.oneOutput] := by
    rw [(h.mem_committed b).1, hblocks]
  refine ⟨nw, hcount, ?_, ?_⟩
  · obtain ⟨err, hget, hfound, -⟩ := hlookup (Pool.sumDigest [0x51]) []
    have hpays :
        Pays Pool.sumDigest (outputBlocks s.committed) (Pool.sumDigest [0x51]).serialize := by
      simp only [Pays, hmem]
      decide +kernel
    obtain rfl := hfound.mpr hpays
    exact hget
  · obtain ⟨err, hget, -, habsent⟩ := hlookup .zero []
    have hnone : ¬ Pays Pool.sumDigest (outputBlocks s.committed) UInt256.zero.serialize := by
      simp only [Pays, hmem]
      decide +kernel
    obtain rfl := habsent.mpr hnone
    exact hget

end ElectrumZ.Net
