import ElectrumZ.Blockchain.TXODB

/-!
# Looking up a script hash

What `GetTXOs` does to a database without an open transaction, by the first value `addr` has under
the script hash: without one it finds nothing, one that holds an outpoint is decoded, and one that
is too short throws and leaves the transaction open.
-/

namespace ElectrumZ.Blockchain

open Foundations Bitcoin

/-- The first value under a key, as `mdb_get` returns it. -/
def Store.stored (s : Store) (dbi : Dbi) (key : Bytes) : Option Bytes :=
  (s.tables.get dbi).bind fun t => (t.vals key).head?

variable {s : Store}

/-- The store inside the transaction of a lookup. -/
def Store.looking (s : Store) : Store :=
  { s with txn := some (s.tables.dbiOpen .addr false) }

theorem run_startTXOTxn (h : s.txn = none) :
    (startTXOTxn .addr).run lmdb s = (.ok TXO_OK, s.looking) := by
  obtain ⟨tables, txn, mapsize, ntx, nblk⟩ := s
  obtain rfl : txn = none := h
  rfl

theorem run_startTXOTxn_blocked (h : s.txn ≠ none) :
    (startTXOTxn .addr).run lmdb s = (.error .blocked, s) := by
  obtain ⟨tables, _ | txn, mapsize, ntx, nblk⟩ := s
  · exact absurd rfl h
  · rfl

theorem lookup_looking (key : Bytes) :
    s.looking.lookup .addr key = match s.stored .addr key with
      | none => { code := MDB_NOTFOUND }
      | some v => { data := v } := by
  obtain ⟨⟨txo, _ | addr, blk⟩, txn, mapsize, ntx, nblk⟩ := s
  · rfl
  · cases hvals : addr.vals key with
    | nil => simp [Store.lookup, Store.stored, Store.looking, Tables.dbiOpen, Tables.get, hvals]
    | cons v vals =>
      simp [Store.lookup, Store.stored, Store.looking, Tables.dbiOpen, Tables.get, hvals]

theorem run_query_of_le {n : ℕ} {data : Bytes} (h : n ≤ data.length) :
    (Dialog.query n).run CDataStream.read data = (.ok (data.take n), data.drop n) := by
  rw [Dialog.run_query, CDataStream.read, if_pos h]

theorem run_query_of_lt {n : ℕ} {data : Bytes} (h : data.length < n) :
    (Dialog.query n).run CDataStream.read data = (.error .endOfData, data) := by
  rw [Dialog.run_query, CDataStream.read, if_neg (by omega)]

/-- An outpoint is decoded from 36 bytes or more. -/
theorem readOutPoint_of_le {data : Bytes} (h : 36 ≤ data.length) :
    ∃ o, readOutPoint data = pure o := by
  have hdrop : 4 ≤ (data.drop 32).length := by rw [List.length_drop]; omega
  have hhash : UInt256.unserialize.run CDataStream.read data =
      (.ok (if h : (data.take 32).length = 32 then ⟨data.take 32, h⟩ else .zero),
        data.drop 32) := by
    rw [UInt256.unserialize, Dialog.run_bind_of_ok (run_query_of_le (by omega))]
    rfl
  have hn : serReaddata32.run CDataStream.read (data.drop 32) =
      (.ok (UInt32.ofNat (ofLeBytes ((data.drop 32).take 4))), (data.drop 32).drop 4) := by
    have hle : (readLE 4).run CDataStream.read (data.drop 32) =
        (.ok (ofLeBytes ((data.drop 32).take 4)), (data.drop 32).drop 4) := by
      rw [readLE, Dialog.run_bind_of_ok (run_query_of_le hdrop)]
      rfl
    rw [serReaddata32, Dialog.run_bind_of_ok hle]
    rfl
  rw [readOutPoint, COutPoint.unserialize, Dialog.run_bind_of_ok hhash, Dialog.run_bind_of_ok hn]
  exact ⟨_, rfl⟩

/-- From fewer bytes it throws. -/
theorem readOutPoint_of_lt {data : Bytes} (h : data.length < 36) :
    readOutPoint data = .fail (.thrown .endOfData) := by
  by_cases h32 : data.length < 32
  · have hhash : UInt256.unserialize.run CDataStream.read data = (.error .endOfData, data) := by
      rw [UInt256.unserialize, Dialog.run_bind_of_error (run_query_of_lt h32)]
    rw [readOutPoint, COutPoint.unserialize, Dialog.run_bind_of_error hhash]
  · have hdrop : (data.drop 32).length < 4 := by rw [List.length_drop]; omega
    have hhash : UInt256.unserialize.run CDataStream.read data =
        (.ok (if h : (data.take 32).length = 32 then ⟨data.take 32, h⟩ else .zero),
          data.drop 32) := by
      rw [UInt256.unserialize, Dialog.run_bind_of_ok (run_query_of_le (by omega))]
      rfl
    have hn : serReaddata32.run CDataStream.read (data.drop 32) =
        (.error .endOfData, data.drop 32) := by
      have hle : (readLE 4).run CDataStream.read (data.drop 32) =
          (.error .endOfData, data.drop 32) := by
        rw [readLE, Dialog.run_bind_of_error (run_query_of_lt hdrop)]
      rw [serReaddata32, Dialog.run_bind_of_error hle]
    rw [readOutPoint, COutPoint.unserialize, Dialog.run_bind_of_ok hhash,
      Dialog.run_bind_of_error hn]

/-! ## The lookup -/

variable (scriptHash : UInt256) (ntx : List TXO)

/-- The database can be searched: no transaction is open, and what is stored first under the script
hash holds an outpoint. -/
structure Store.Searchable (s : Store) (key : Bytes) : Prop where
  txn : s.txn = none
  long : ∀ v, s.stored .addr key = some v → 36 ≤ v.length

/-- The transaction of a lookup creates a missing `addr` and is aborted, or finds it. -/
theorem looking_of_stored {key v : Bytes} (htxn : s.txn = none)
    (h : s.stored .addr key = some v) : lmdb .txnCommit s.looking = (.ok {}, s) := by
  obtain ⟨⟨txo, _ | addr, blk⟩, txn, mapsize, ntx, nblk⟩ := s
  · exact absurd h (by simp [Store.stored, Tables.get])
  · obtain rfl : txn = none := htxn
    rfl

theorem found_code (v : Bytes) : ({ data := v } : Reply).code ≠ MDB_NOTFOUND ∧
    ({ data := v } : Reply).code ≠ EINVAL := by
  constructor
  · show (0 : ℤ) ≠ MDB_NOTFOUND
    decide
  · show (0 : ℤ) ≠ EINVAL
    decide

theorem run_get_looking (key : Bytes) : (Dialog.query (.get .addr key)).run lmdb s.looking =
    (.ok (match s.stored .addr key with
      | none => { code := MDB_NOTFOUND }
      | some v => { data := v }), s.looking) := by
  rw [← lookup_looking]
  exact Dialog.run_query _ _ _

/-- A lookup that finds nothing leaves the database as it was. -/
theorem run_getTXOs_none (htxn : s.txn = none) (h : s.stored .addr scriptHash.serialize = none) :
    (getTXOs scriptHash ntx).run lmdb s = (.ok (TXO_NOTFOUND, ntx), s) := by
  have hget := run_get_looking (s := s) scriptHash.serialize
  rw [h] at hget
  have habort : (call .txnAbort).run lmdb s.looking = (.ok 0, s) := by
    obtain ⟨tables, txn, mapsize, ntx, nblk⟩ := s
    obtain rfl : txn = none := htxn
    rfl
  rw [getTXOs, Dialog.run_bind_of_ok (run_startTXOTxn htxn), if_neg (by decide),
    Dialog.run_bind_of_ok hget, if_pos rfl, Dialog.run_bind_of_ok habort]
  rfl

/-- One that finds an outpoint does, too. -/
theorem run_getTXOs_some {v : Bytes} (htxn : s.txn = none)
    (hv : s.stored .addr scriptHash.serialize = some v) (hlong : 36 ≤ v.length) :
    (getTXOs scriptHash ntx).run lmdb s = (.ok (TXO_OK, ntx), s) := by
  have hget := run_get_looking (s := s) scriptHash.serialize
  rw [hv] at hget
  obtain ⟨hfound, hvalid⟩ := found_code v
  obtain ⟨o, ho⟩ := readOutPoint_of_le hlong
  have hcommit : (call .txnCommit).run lmdb s.looking = (.ok 0, s) := by
    rw [call, Dialog.run_bind, Dialog.run_query, looking_of_stored htxn hv]
    rfl
  rw [getTXOs, Dialog.run_bind_of_ok (run_startTXOTxn htxn), if_neg (by decide),
    Dialog.run_bind_of_ok hget, if_neg hfound, if_neg hvalid, ho]
  show ((call .txnCommit) >>= fun _ => pure (TXO_OK, ntx)).run lmdb s.looking = _
  rw [Dialog.run_bind_of_ok hcommit]
  rfl

/-- A value that is too short is an exception. -/
theorem run_getTXOs_short {v : Bytes} (htxn : s.txn = none)
    (hv : s.stored .addr scriptHash.serialize = some v) (hlt : v.length < 36) :
    (getTXOs scriptHash ntx).run lmdb s = (.error (.thrown .endOfData), s.looking) := by
  have hget := run_get_looking (s := s) scriptHash.serialize
  rw [hv] at hget
  obtain ⟨hfound, hvalid⟩ := found_code v
  rw [getTXOs, Dialog.run_bind_of_ok (run_startTXOTxn htxn), if_neg (by decide),
    Dialog.run_bind_of_ok hget, if_neg hfound, if_neg hvalid, readOutPoint_of_lt hlt]
  rfl

/-- What is too short where the database cannot be searched. -/
theorem exists_short {key : Bytes} (htxn : s.txn = none) (h : ¬ s.Searchable key) :
    ∃ v, s.stored .addr key = some v ∧ v.length < 36 := by
  by_contra hlong
  push Not at hlong
  exact h ⟨htxn, hlong⟩

/-- **A lookup that finds nothing, or an outpoint**, leaves the database as it was. -/
theorem run_getTXOs (h : s.Searchable scriptHash.serialize) :
    ∃ err, (getTXOs scriptHash ntx).run lmdb s = (.ok (err, ntx), s) := by
  cases hv : s.stored .addr scriptHash.serialize with
  | none => exact ⟨TXO_NOTFOUND, run_getTXOs_none scriptHash ntx h.txn hv⟩
  | some v => exact ⟨TXO_OK, run_getTXOs_some scriptHash ntx h.txn hv (h.long v hv)⟩

/-- Without an open transaction a lookup does not wait. -/
theorem run_getTXOs_ne_blocked (htxn : s.txn = none) :
    ((getTXOs scriptHash ntx).run lmdb s).1 ≠ .error .blocked := by
  by_cases h : s.Searchable scriptHash.serialize
  · obtain ⟨err, hrun⟩ := run_getTXOs scriptHash ntx h
    rw [hrun]
    exact nofun
  · obtain ⟨v, hv, hlt⟩ := exists_short htxn h
    rw [run_getTXOs_short scriptHash ntx htxn hv hlt]
    exact nofun

/-- A lookup in any other database waits for the open transaction, or throws. -/
theorem run_getTXOs_fails (h : ¬ s.Searchable scriptHash.serialize) :
    ∃ stop s', (getTXOs scriptHash ntx).run lmdb s = (.error stop, s') ∧
      (stop = .blocked ∨ stop = .thrown .endOfData) := by
  by_cases htxn : s.txn = none
  · obtain ⟨v, hv, hlt⟩ := exists_short htxn h
    exact ⟨.thrown .endOfData, s.looking, run_getTXOs_short scriptHash ntx htxn hv hlt, .inr rfl⟩
  · refine ⟨.blocked, s, ?_, .inl rfl⟩
    rw [getTXOs, Dialog.run_bind_of_error (run_startTXOTxn_blocked htxn)]

end ElectrumZ.Blockchain
