import ElectrumZ.Bitcoin.Hash
import ElectrumZ.Bitcoin.Streams
import ElectrumZ.Blockchain.Lmdb

/-!
# The output index

The programs of `TXODB.cxx` over the calls of `Lmdb`: opening the environment, the statistics
query, growing the map, and the indexing of one block, from `try_block_again` to the commit.

The second half relates `indexBlock` to `addBlock`, a function of the three tables: when the
tables take every pair they are given, or report a duplicate in `addr`, an attempt at a block ends
well and commits what `addBlock` computes (`run_indexBlock`).
-/

namespace ElectrumZ.Blockchain

open Foundations Bitcoin

/-- Of `TXODB_ERR`, where 0 is an error though it is what LMDB returns for success. -/
def TXO_OK : ℤ := 1

def TXO_NOTFOUND : ℤ := 2

def TXO_RESIZED : ℤ := 3

/-- The map grows to the next multiple of this. -/
def MAPSIZE_BASE_UNIT : ℕ := 1024 * 1024 * 100

/-- An output as the index stores it. -/
structure TXO where
  scriptHash : UInt256
  txHash : UInt256
  n : UInt32
  value : Int64
  spend : COutPoint

namespace TXO

/-- The constructor of the source; the output is not spent yet. -/
def ofOutput (sHash txHash : UInt256) (tIndex : UInt32) (v : Int64) : TXO :=
  ⟨sHash, txHash, tIndex, v, .null⟩

/-- The hashes are in memory only. -/
def serialize (t : TXO) : Bytes :=
  serWritedata32 t.n ++ (serializeInt64 t.value ++ t.spend.serialize)

end TXO

/-- The `dupsort` comparator of the `txo` table: the difference of the first four bytes, as the
`int` it is returned as. -/
def txoCmp (a b : Bytes) : ℤ :=
  ((ofLeBytes (a.take 4) : ℤ) - ofLeBytes (b.take 4)).bmod (2 ^ 32)

/-! ## Opening -/

/-- `return err` unless the call succeeded. -/
def check (err : ℤ) : Prog Unit := if err ≠ 0 then .fail (.err err) else pure ()

/-- `TXODB::Open`. -/
def openEnv : Prog ℤ := do
  let err ← call .envCreate
  if err ≠ 0 then return err
  let err ← call (.setMaxdbs 3)
  if err ≠ 0 then return err
  let err ← call .envOpen
  if err ≠ 0 then return err
  let r ← Dialog.query .envInfo
  if r.code ≠ 0 then return r.code
  if r.mapsize < MAPSIZE_BASE_UNIT then
    let err ← call (.setMapsize MAPSIZE_BASE_UNIT)
    return err
  else return r.code

/-- The body of `IncreaseMapSize`, under the resize lock. -/
def growMap : Prog ℤ := do
  let r ← Dialog.query .envInfo
  if r.code ≠ 0 then return r.code
  let new_size := r.mapsize - r.mapsize % MAPSIZE_BASE_UNIT + MAPSIZE_BASE_UNIT
  let err ← call (.setMapsize new_size)
  if err ≠ 0 then return err
  return TXO_RESIZED

/-- `IncreaseMapSize`, under its lock. -/
def increaseMapSize : Prog ℤ := do
  let _ ← call .lockResize
  let err ← growMap
  let _ ← call .unlockResize
  return err

/-- `StartTXOTxn`: a write transaction, with the table opened as it is or without duplicates. -/
def startTXOTxn (dbn : Dbi) : Prog ℤ := do
  let err ← call .txnBegin
  if err ≠ 0 then return err
  let err ← call (.dbiOpen dbn false)
  if err ≠ 0 then
    if err = MDB_MAP_FULL then increaseMapSize else return err
  else return TXO_OK

/-- `GetTXOStats`. It goes on if `StartTXOTxn` returns anything but 0. -/
def getTXOStats (dbn : Dbi) : Prog ℤ := do
  let err ← startTXOTxn dbn
  if err = 0 then return err
  let err ← call (.stat dbn)
  if err ≠ 0 then return err
  let _ ← call .txnCommit
  return err

/-- Decode a stored outpoint. A value that is too short throws out of the function. -/
def readOutPoint (data : Bytes) : Prog COutPoint :=
  match (COutPoint.unserialize.run CDataStream.read data).1 with
  | .ok outPoint => pure outPoint
  | .error e => .fail (.thrown e)

/-- `TXODB::GetTXOs`. The outpoint found is decoded and dropped: `ntx` comes back as it was. -/
def getTXOs (scriptHash : UInt256) (ntx : List TXO) : Prog (ℤ × List TXO) := do
  let err ← startTXOTxn .addr
  if err = 0 then return (err, ntx)
  let r ← Dialog.query (.get .addr scriptHash.serialize)
  if r.code = MDB_NOTFOUND then do
    let _ ← call .txnAbort
    return (TXO_NOTFOUND, ntx)
  else if r.code = EINVAL then do
    let _ ← call .txnAbort
    return (r.code, ntx)
  else do
    let _outPoint ← readOutPoint r.data
    let _ ← call .txnCommit
    return (TXO_OK, ntx)

/-! ## Indexing a block -/

variable (sha256 : Bytes → UInt256)

/-- Open a table of the block's transaction. -/
def openTable (dbn : Dbi) (dupsort : Bool) : Prog Unit := do
  let err ← call (.dbiOpen dbn dupsort)
  if err ≠ 0 then
    let err ← if err = MDB_MAP_FULL then increaseMapSize else pure err
    .fail (.err err)
  else pure ()

/-- A full map: abort, grow it, and start over. -/
def tryBlockAgain : Prog Unit := do
  let _ ← call .txnAbort
  let err ← increaseMapSize
  if err ≠ TXO_RESIZED then .fail (.err err) else .fail .again

/-- A `put` that did not succeed. -/
def putFailed (err : ℤ) : Prog Unit :=
  if err = MDB_MAP_FULL then tryBlockAgain else .fail (.err err)

/-- What `addr` stores for output `n` of a transaction. -/
def addrVal (txHash : UInt256) (n : ℕ) : Bytes :=
  (COutPoint.mk txHash (UInt32.ofNat n)).serialize

/-- What `txo` stores for it. -/
def txoVal (txHash : UInt256) (n : ℕ) (o : CTxOut) : Bytes :=
  (TXO.ofOutput (SHash sha256 o.scriptPubKey) txHash (UInt32.ofNat n) o.nValue).serialize

/-- The key of the output in `addr`. -/
def addrKey (o : CTxOut) : Bytes := (SHash sha256 o.scriptPubKey).serialize

/-- The body of the output loop. A pair that `addr` already has skips the `txo` put. -/
def indexOutput (txHash : UInt256) (n : ℕ) (ntxo : CTxOut) : Prog Unit := do
  let err ← call (.put .addr (addrKey sha256 ntxo) (addrVal txHash n))
  if err ≠ 0 then
    if err = MDB_MAP_FULL then tryBlockAgain
    else if err = MDB_KEYEXIST then pure ()
    else .fail (.err err)
  else do
    let err ← call (.cursorPut .txo txHash.serialize (txoVal sha256 txHash n ntxo))
    if err ≠ 0 then putFailed err else pure ()

/-- The output loop; `txop` counts from `n`. -/
def indexOutputs (txHash : UInt256) : ℕ → List CTxOut → Prog Unit
  | _, [] => pure ()
  | n, ntxo :: vout => do
    indexOutput sha256 txHash n ntxo
    indexOutputs txHash (n + 1) vout

/-- The body of `InternalSpendTXO` is commented out. -/
def internalSpendTXO (_prevout _spendingTx : COutPoint) : Prog ℤ := pure TXO_OK

/-- The input loop of the second pass; `txip` counts from `n`. -/
def spendInputs (txHash : UInt256) : ℕ → List CTxIn → Prog Unit
  | _, [] => pure ()
  | n, ntxi :: vin => do
    if ntxi.prevout.isNull then pure ()
    else do
      let thisTxi := COutPoint.mk txHash (UInt32.ofNat n)
      let err ← internalSpendTXO ntxi.prevout thisTxi
      if err = TXO_RESIZED then do
        let _ ← internalSpendTXO ntxi.prevout thisTxi
      else pure ()
    spendInputs txHash (n + 1) vin

/-- Process inputs or outputs. -/
def indexInOut (mode : ℕ) (tx : CTransaction) : Prog Unit :=
  if mode = 1 then spendInputs (tx.getHash sha256) 0 tx.vin
  else indexOutputs sha256 (tx.getHash sha256) 0 tx.vout

/-- One transaction, with a cursor on `txo`. -/
def indexTx (mode : ℕ) (tx : CTransaction) : Prog Unit := do
  let _ ← call (.cursorOpen .txo)
  indexInOut sha256 mode tx
  let _ ← call .cursorClose
  let _ ← call (.tally .tx)

/-- The transactions of a block, in order. -/
def indexTxs (mode : ℕ) : List CTransaction → Prog Unit
  | [] => pure ()
  | tx :: vtx => do
    indexTx sha256 mode tx
    indexTxs mode vtx

/-- Begin the block's transaction and open its tables. -/
def beginBlock : Prog Unit := do
  let err ← call .txnBegin
  check err
  openTable .txo true
  openTable .addr true
  openTable .blk false
  let err ← call (.setDupsort .txo txoCmp)
  check err

/-- Store the block header. -/
def putHeader (header : CBlockHeader) : Prog Unit := do
  let err ← call (.put .blk (header.getHash sha256).serialize header.serialize)
  if err ≠ 0 then putFailed err else pure ()

/-- One attempt at a block, from `try_block_again` on. -/
def indexBlock (mode : ℕ) (blk : CBlock) : Prog Unit := do
  beginBlock
  putHeader sha256 blk.header
  indexTxs sha256 mode blk.vtx
  let _ ← call .txnCommit
  let _ ← call (.tally .block)

/-! ## What an attempt does to the tables -/

/-- The tables a block is indexed in. -/
structure View where
  txo : Table
  addr : Table
  blk : Table

/-- One output: `none` when the append to `txo` is refused. -/
def addOutput (txHash : UInt256) (n : ℕ) (o : CTxOut) (v : View) : Option View :=
  match v.addr.put (addrKey sha256 o) (addrVal txHash n) with
  | none => some v
  | some addr =>
    (v.txo.append txHash.serialize (txoVal sha256 txHash n o)).map fun txo => { v with txo, addr }

/-- The outputs of a transaction, from the `n`-th on. -/
def addOutputs (txHash : UInt256) : ℕ → List CTxOut → View → Option View
  | _, [], v => some v
  | n, o :: vout, v => (addOutput sha256 txHash n o v).bind (addOutputs txHash (n + 1) vout)

/-- One transaction; the second pass stores nothing. -/
def addTx (mode : ℕ) (v : View) (tx : CTransaction) : Option View :=
  if mode = 1 then some v else addOutputs sha256 (tx.getHash sha256) 0 tx.vout v

/-- The header and the transactions of one block. -/
def addBlock (mode : ℕ) (v : View) (b : CBlock) : Option View :=
  (v.blk.put (b.header.getHash sha256).serialize b.header.serialize).bind fun blk =>
    b.vtx.foldlM (addTx sha256 mode) { v with blk }

/-- The tables as a block's transaction opens them: created where they do not exist. -/
def Tables.opened (ts : Tables) : View where
  txo := { ts.txo.getD (.empty true memcmp) with dcmp := txoCmp }
  addr := ts.addr.getD (.empty true memcmp)
  blk := ts.blk.getD (.empty false memcmp)

/-- The tables of an environment that has all three. -/
def View.tables (v : View) : Tables := ⟨some v.txo, some v.addr, some v.blk⟩

/-- The store with the block's transaction at `v`. -/
def Store.within (s : Store) (v : View) : Store := { s with txn := some v.tables }

variable {sha256} {s : Store} {v v' : View}

theorem run_call {c : Call} {s s' : Store} {r : Reply} (h : lmdb c s = (.ok r, s')) :
    (call c).run lmdb s = (.ok r.code, s') := by
  have hq : (Dialog.query c : Prog Reply).run lmdb s = (.ok r, s') := by rw [Dialog.run_query, h]
  rw [call, Dialog.run_bind_of_ok hq]
  rfl

/-- A `put` into `addr` within a transaction. -/
theorem run_put_addr (key val : Bytes) :
    (call (.put .addr key val)).run lmdb (s.within v) = match v.addr.put key val with
      | none => (.ok MDB_KEYEXIST, s.within v)
      | some addr => (.ok 0, s.within { v with addr }) := by
  have h : lmdb (.put .addr key val) (s.within v) = (s.within v).inTxn fun ts =>
    ts.update .addr (·.put key val) := rfl
  cases hput : v.addr.put key val <;>
    simp only [Store.within, Store.inTxn, Tables.update, Tables.get, View.tables, hput] at h <;>
    exact run_call h

theorem run_put_blk (key val : Bytes) :
    (call (.put .blk key val)).run lmdb (s.within v) = match v.blk.put key val with
      | none => (.ok MDB_KEYEXIST, s.within v)
      | some blk => (.ok 0, s.within { v with blk }) := by
  have h : lmdb (.put .blk key val) (s.within v) = (s.within v).inTxn fun ts =>
    ts.update .blk (·.put key val) := rfl
  cases hput : v.blk.put key val <;>
    simp only [Store.within, Store.inTxn, Tables.update, Tables.get, View.tables, hput] at h <;>
    exact run_call h

theorem run_cursorPut (key val : Bytes) :
    (call (.cursorPut .txo key val)).run lmdb (s.within v) = match v.txo.append key val with
      | none => (.ok MDB_KEYEXIST, s.within v)
      | some txo => (.ok 0, s.within { v with txo }) := by
  have h : lmdb (.cursorPut .txo key val) (s.within v) = (s.within v).inTxn fun ts =>
    ts.update .txo (·.append key val) := rfl
  cases hput : v.txo.append key val <;>
    simp only [Store.within, Store.inTxn, Tables.update, Tables.get, View.tables, hput] at h <;>
    exact run_call h

/-- An output is indexed as `addOutput` says, as long as the append is not refused. -/
theorem run_indexOutput {txHash : UInt256} {n : ℕ} {o : CTxOut}
    (h : addOutput sha256 txHash n o v = some v') :
    (indexOutput sha256 txHash n o).run lmdb (s.within v) = (.ok (), s.within v') := by
  have hput := run_put_addr (s := s) (v := v) (addrKey sha256 o) (addrVal txHash n)
  rw [addOutput] at h
  cases haddr : v.addr.put (addrKey sha256 o) (addrVal txHash n) with
  | none =>
    rw [haddr] at h hput
    obtain rfl := Option.some.inj h
    rw [indexOutput, Dialog.run_bind_of_ok hput, if_pos (by decide), if_neg (by decide),
      if_pos rfl]
    rfl
  | some addr =>
    rw [haddr] at h hput
    obtain ⟨txo, htxo, rfl⟩ := Option.map_eq_some_iff.mp h
    have happend := run_cursorPut (s := s) (v := { v with addr }) txHash.serialize
      (txoVal sha256 txHash n o)
    rw [htxo] at happend
    rw [indexOutput, Dialog.run_bind_of_ok hput, if_neg (by decide),
      Dialog.run_bind_of_ok happend, if_neg (by decide)]
    rfl

theorem run_indexOutputs {txHash : UInt256} {n : ℕ} {vout : List CTxOut}
    (h : addOutputs sha256 txHash n vout v = some v') :
    (indexOutputs sha256 txHash n vout).run lmdb (s.within v) = (.ok (), s.within v') := by
  induction vout generalizing n v with
  | nil =>
    obtain rfl := Option.some.inj h
    rfl
  | cons o vout ih =>
    obtain ⟨v₁, h₁, h₂⟩ := Option.bind_eq_some_iff.mp h
    rw [indexOutputs, Dialog.run_bind_of_ok (run_indexOutput h₁)]
    exact ih h₂

/-- The input loop makes no call. -/
theorem spendInputs_eq (txHash : UInt256) (n : ℕ) (vin : List CTxIn) :
    spendInputs txHash n vin = pure () := by
  induction vin generalizing n with
  | nil => rfl
  | cons i vin ih =>
    rw [spendInputs, ih]
    cases i.prevout.isNull <;> rfl

theorem run_indexTx {mode : ℕ} {tx : CTransaction} (h : addTx sha256 mode v tx = some v') :
    (indexTx sha256 mode tx).run lmdb (s.within v) = (.ok (), (s.count .tx).within v') := by
  have hopen : (call (.cursorOpen .txo)).run lmdb (s.within v) = (.ok 0, s.within v) := rfl
  have hbody : (indexInOut sha256 mode tx).run lmdb (s.within v) = (.ok (), s.within v') := by
    rw [addTx] at h
    rw [indexInOut]
    split_ifs at h ⊢
    · obtain rfl := Option.some.inj h
      rw [spendInputs_eq]
      rfl
    · exact run_indexOutputs h
  rw [indexTx, Dialog.run_bind_of_ok hopen, Dialog.run_bind_of_ok hbody]
  rfl

theorem run_indexTxs {mode : ℕ} {vtx : List CTransaction}
    (h : vtx.foldlM (addTx sha256 mode) v = some v') :
    ∃ s' : Store, (indexTxs sha256 mode vtx).run lmdb (s.within v) = (.ok (), s'.within v') := by
  induction vtx generalizing s v with
  | nil =>
    obtain rfl := Option.some.inj h
    exact ⟨s, rfl⟩
  | cons tx vtx ih =>
    rw [List.foldlM_cons] at h
    obtain ⟨v₁, h₁, h₂⟩ := Option.bind_eq_some_iff.mp h
    obtain ⟨s', hs'⟩ := ih (s := s.count .tx) h₂
    exact ⟨s', by rw [indexTxs, Dialog.run_bind_of_ok (run_indexTx h₁), hs']⟩

/-- The transaction begins with the committed tables, those that are missing created. -/
theorem run_beginBlock (h : s.txn = none) :
    beginBlock.run lmdb s = (.ok (), s.within s.tables.opened) := by
  obtain ⟨⟨txo, addr, blk⟩, txn, mapsize, ntx, nblk⟩ := s
  obtain rfl : txn = none := h
  cases txo <;> cases addr <;> cases blk <;> rfl

theorem run_putHeader {header : CBlockHeader} {blk : Table}
    (h : v.blk.put (header.getHash sha256).serialize header.serialize = some blk) :
    (putHeader sha256 header).run lmdb (s.within v) = (.ok (), s.within { v with blk }) := by
  have hput := run_put_blk (s := s) (v := v) (header.getHash sha256).serialize header.serialize
  rw [h] at hput
  rw [putHeader, Dialog.run_bind_of_ok hput, if_neg (by decide)]
  rfl

/-- **An attempt at a block commits what `addBlock` computes**, and leaves no transaction open. -/
theorem run_indexBlock {mode : ℕ} {b : CBlock} (hs : s.txn = none)
    (h : addBlock sha256 mode s.tables.opened b = some v') :
    ∃ s', (indexBlock sha256 mode b).run lmdb s = (.ok (), s') ∧ s'.txn = none ∧
      s'.tables = v'.tables := by
  obtain ⟨blk, hblk, htxs⟩ := Option.bind_eq_some_iff.mp h
  obtain ⟨s₁, hs₁⟩ := run_indexTxs (s := s) htxs
  refine ⟨{ s₁ with
    tables := v'.tables, txn := none, total_block_process := s₁.total_block_process + 1 }, ?_, rfl,
    rfl⟩
  rw [indexBlock, Dialog.run_bind_of_ok (run_beginBlock hs), Dialog.run_bind_of_ok
    (run_putHeader hblk), Dialog.run_bind_of_ok hs₁]
  rfl

/-! ## What an attempt does when a table refuses a pair -/

/-- The run ends with the code of the refused pair, inside the transaction. -/
def Refused (s : Store) (r : Except Stop Unit × Store) : Prop :=
  ∃ v, r = (.error (.err MDB_KEYEXIST), s.within v)

theorem refused_bind {s : Store} {d : Prog Unit} {f : Unit → Prog Unit}
    (h : Refused s (d.run lmdb (s.within v))) : Refused s ((d >>= f).run lmdb (s.within v)) := by
  obtain ⟨v', hrun⟩ := h
  exact ⟨v', Dialog.run_bind_of_error hrun f⟩

/-- An output whose record is refused ends the attempt. -/
theorem run_indexOutput_none {txHash : UInt256} {n : ℕ} {o : CTxOut}
    (h : addOutput sha256 txHash n o v = none) :
    Refused s ((indexOutput sha256 txHash n o).run lmdb (s.within v)) := by
  have hput := run_put_addr (s := s) (v := v) (addrKey sha256 o) (addrVal txHash n)
  rw [addOutput] at h
  cases haddr : v.addr.put (addrKey sha256 o) (addrVal txHash n) with
  | none =>
    rw [haddr] at h
    exact nomatch h
  | some addr =>
    rw [haddr] at h hput
    have happend := run_cursorPut (s := s) (v := { v with addr }) txHash.serialize
      (txoVal sha256 txHash n o)
    rw [Option.map_eq_none_iff.mp h] at happend
    refine ⟨{ v with addr }, ?_⟩
    rw [indexOutput, Dialog.run_bind_of_ok hput, if_neg (by decide),
      Dialog.run_bind_of_ok happend, if_pos (by decide), putFailed, if_neg (by decide)]
    rfl

theorem run_indexOutputs_none {txHash : UInt256} {n : ℕ} {vout : List CTxOut}
    (h : addOutputs sha256 txHash n vout v = none) :
    Refused s ((indexOutputs sha256 txHash n vout).run lmdb (s.within v)) := by
  induction vout generalizing n v with
  | nil => exact nomatch h
  | cons o vout ih =>
    rw [addOutputs] at h
    cases ho : addOutput sha256 txHash n o v with
    | none => exact refused_bind (run_indexOutput_none ho)
    | some v₁ =>
      rw [ho] at h
      rw [indexOutputs, Dialog.run_bind_of_ok (run_indexOutput ho)]
      exact ih h

theorem run_indexTx_none {mode : ℕ} {tx : CTransaction} (h : addTx sha256 mode v tx = none) :
    Refused s ((indexTx sha256 mode tx).run lmdb (s.within v)) := by
  have hopen : (call (.cursorOpen .txo)).run lmdb (s.within v) = (.ok 0, s.within v) := rfl
  have hbody : Refused s ((indexInOut sha256 mode tx).run lmdb (s.within v)) := by
    rw [addTx] at h
    rw [indexInOut]
    split_ifs at h ⊢
    exact run_indexOutputs_none h
  rw [indexTx, Dialog.run_bind_of_ok hopen]
  exact refused_bind hbody

theorem run_indexTxs_none {mode : ℕ} {vtx : List CTransaction}
    (h : vtx.foldlM (addTx sha256 mode) v = none) :
    ∃ s', s'.tables = s.tables ∧
      Refused s' ((indexTxs sha256 mode vtx).run lmdb (s.within v)) := by
  induction vtx generalizing s v with
  | nil => exact nomatch h
  | cons tx vtx ih =>
    rw [List.foldlM_cons] at h
    cases htx : addTx sha256 mode v tx with
    | none => exact ⟨s, rfl, refused_bind (run_indexTx_none htx)⟩
    | some v₁ =>
      rw [htx] at h
      obtain ⟨s', htables, hrefused⟩ := ih (s := s.count .tx) h
      refine ⟨s', htables, ?_⟩
      rw [indexTxs, Dialog.run_bind_of_ok (run_indexTx htx)]
      exact hrefused

/-- **An attempt at a block that a table refuses** ends with its code and commits nothing. -/
theorem run_indexBlock_none {mode : ℕ} {b : CBlock} (hs : s.txn = none)
    (h : addBlock sha256 mode s.tables.opened b = none) :
    ∃ s', (indexBlock sha256 mode b).run lmdb s = (.error (.err MDB_KEYEXIST), s') ∧
      s'.tables = s.tables := by
  rw [indexBlock, Dialog.run_bind_of_ok (run_beginBlock hs)]
  rw [addBlock] at h
  cases hblk : s.tables.opened.blk.put (b.header.getHash sha256).serialize b.header.serialize with
  | none =>
    have hput := run_put_blk (s := s) (v := s.tables.opened) (b.header.getHash sha256).serialize
      b.header.serialize
    rw [hblk] at hput
    refine ⟨s.within s.tables.opened, ?_, rfl⟩
    have hheader : (putHeader sha256 b.header).run lmdb (s.within s.tables.opened) =
        (.error (.err MDB_KEYEXIST), s.within s.tables.opened) := by
      rw [putHeader, Dialog.run_bind_of_ok hput, if_pos (by decide), putFailed,
        if_neg (by decide)]
      rfl
    rw [Dialog.run_bind_of_error hheader]
  | some blk =>
    rw [hblk] at h
    obtain ⟨s₁, htables, v', hrefused⟩ := run_indexTxs_none (s := s) h
    refine ⟨s₁.within v', ?_, htables⟩
    rw [Dialog.run_bind_of_ok (run_putHeader hblk), Dialog.run_bind_of_error hrefused]

end ElectrumZ.Blockchain
