import ElectrumZ.Bitcoin.Serialize
import ElectrumZ.Foundations.Table

/-!
# The LMDB environment

The part of LMDB the index relies on, as a handler of the calls a program makes (`Call`): one
environment with up to three named tables, at most one write transaction, and the size of its map.

* The flags of a table are fixed when `mdb_dbi_open` creates it and never change.
* A `put` on a table with sorted duplicates returns `MDB_KEYEXIST` for a pair that exists, a
  cursor `put` with `MDB_APPENDDUP` for a value that is not greater than the last one; on any other
  table both replace the value of the key.
* What a transaction does is seen by others when it commits.

`lmdb` is the environment in which no call fails for reasons of its own. A call outside a
transaction, or on a table that has not been opened, returns `EINVAL`, and a second transaction of
the same thread waits for ever.
-/

namespace ElectrumZ.Blockchain

open Foundations Bitcoin

/-! ## Return codes -/

def MDB_KEYEXIST : ℤ := -30799

def MDB_NOTFOUND : ℤ := -30798

def MDB_MAP_FULL : ℤ := -30792

def EINVAL : ℤ := 22

/-! ## Tables -/

/-- The named databases `DBI_TXO`, `DBI_ADDR` and `DBI_BLK`. -/
inductive Dbi
  | txo
  | addr
  | blk
  deriving DecidableEq, Repr

/-- The default comparison of LMDB. -/
def memcmp : Bytes → Bytes → ℤ
  | [], [] => 0
  | [], _ :: _ => -1
  | _ :: _, [] => 1
  | a :: as, b :: bs => if a = b then memcmp as bs else (a.toNat : ℤ) - b.toNat

theorem memcmp_eq_zero {a b : Bytes} : memcmp a b = 0 ↔ a = b := by
  induction a generalizing b with
  | nil => cases b <;> simp [memcmp]
  | cons x as ih =>
    cases b with
    | nil => simp [memcmp]
    | cons y bs =>
      rw [memcmp]
      split_ifs with hxy
      · rw [ih, hxy, List.cons.injEq]
        simp
      · have hne : x.toNat ≠ y.toNat := fun h => hxy (UInt8.toNat_inj.mp h)
        simp only [List.cons.injEq, hxy, false_and, iff_false]
        omega

/-- A table of bytes. -/
abbrev Table := Foundations.Table Bytes Bytes

/-- The tables of an environment, absent until they are created. -/
structure Tables where
  txo : Option Table
  addr : Option Table
  blk : Option Table

namespace Tables

/-- No table has been created. -/
def none : Tables := ⟨.none, .none, .none⟩

/-- The table of a handle. -/
def get (ts : Tables) : Dbi → Option Table
  | .txo => ts.txo
  | .addr => ts.addr
  | .blk => ts.blk

/-- Another table under a handle. -/
def set (ts : Tables) (dbi : Dbi) (t : Table) : Tables :=
  match dbi with
  | .txo => { ts with txo := some t }
  | .addr => { ts with addr := some t }
  | .blk => { ts with blk := some t }

/-- `mdb_dbi_open` with `MDB_CREATE`: an existing table is returned whatever the flags. -/
def dbiOpen (ts : Tables) (dbi : Dbi) (dupsort : Bool) : Tables :=
  match ts.get dbi with
  | some _ => ts
  | .none => ts.set dbi (.empty dupsort memcmp)

/-- Change an opened table by an operation that may refuse the pair. -/
def update (ts : Tables) (dbi : Dbi) (f : Table → Option Table) : ℤ × Tables :=
  match ts.get dbi with
  | .none => (EINVAL, ts)
  | some t =>
    match f t with
    | .none => (MDB_KEYEXIST, ts)
    | some t => (0, ts.set dbi t)

end Tables

/-! ## Calls -/

/-- The counters of the preload that outlive a block. -/
inductive Tally
  | tx
  | block
  deriving DecidableEq, Repr

/-- What the database code does outside its own variables: the calls of LMDB, the lock around
resizing, and the totals. -/
inductive Call
  | envCreate
  | setMaxdbs (dbs : ℕ)
  | envOpen
  | envInfo
  | setMapsize (size : ℕ)
  | lockResize
  | unlockResize
  | txnBegin
  | txnCommit
  | txnAbort
  | dbiOpen (dbi : Dbi) (dupsort : Bool)
  | setDupsort (dbi : Dbi) (cmp : Bytes → Bytes → ℤ)
  | put (dbi : Dbi) (key val : Bytes)
  | cursorOpen (dbi : Dbi)
  | cursorPut (dbi : Dbi) (key val : Bytes)
  | cursorClose
  | stat (dbi : Dbi)
  | get (dbi : Dbi) (key : Bytes)
  | tally (what : Tally)

/-- A return code, and what the call stores through its other arguments. -/
structure Reply where
  code : ℤ := 0
  mapsize : ℕ := 0
  data : Bytes := []

/-- How a program ends early: at the label `try_block_again`, with `return err`, with an exception
of a stream, or waiting for a transaction of its own. -/
inductive Stop
  | again
  | err (e : ℤ)
  | thrown (f : Failure)
  | blocked
  deriving DecidableEq, Repr

/-- A program over the database. -/
abbrev Prog (α : Type) := Dialog Call (fun _ => Reply) Stop α

/-- Make a call for its return code. -/
def call (c : Call) : Prog ℤ := do
  let r ← Dialog.query c
  return r.code

/-! ## The environment -/

/-- An LMDB environment, and the counters of the database class. -/
structure Store where
  /-- What has been committed. -/
  tables : Tables
  /-- The tables as the active write transaction sees them. -/
  txn : Option Tables
  mapsize : ℕ
  total_tx_process : ℕ
  total_block_process : ℕ

namespace Store

/-- The default map size of LMDB. -/
def DEFAULT_MAPSIZE : ℕ := 1048576

/-- An environment nothing has been stored in. -/
def fresh : Store := ⟨.none, none, DEFAULT_MAPSIZE, 0, 0⟩

/-- A call inside the active transaction. -/
def inTxn (s : Store) (f : Tables → ℤ × Tables) : Except Stop Reply × Store :=
  match s.txn with
  | none => (.ok { code := EINVAL }, s)
  | some ts => (.ok { code := (f ts).1 }, { s with txn := some (f ts).2 })

/-- The first value under a key. -/
def lookup (s : Store) (dbi : Dbi) (key : Bytes) : Reply :=
  match s.txn.bind (·.get dbi) with
  | none => { code := EINVAL }
  | some t =>
    match t.vals key with
    | [] => { code := MDB_NOTFOUND }
    | v :: _ => { data := v }

/-- One more transaction, or block, has been processed. -/
def count (s : Store) : Tally → Store
  | .tx => { s with total_tx_process := s.total_tx_process + 1 }
  | .block => { s with total_block_process := s.total_block_process + 1 }

end Store

/-- **The environment of one thread.** A second write transaction of the same thread blocks. -/
def lmdb : Dialog.Handler Call (fun _ => Reply) Stop Store
  | .envInfo, s => (.ok { mapsize := s.mapsize }, s)
  | .setMapsize size, s =>
    if s.txn.isSome then (.ok { code := EINVAL }, s) else (.ok {}, { s with mapsize := size })
  | .txnBegin, s =>
    match s.txn with
    | some _ => (.error .blocked, s)
    | none => (.ok {}, { s with txn := some s.tables })
  | .txnCommit, s => (.ok {}, { s with tables := s.txn.getD s.tables, txn := none })
  | .txnAbort, s => (.ok {}, { s with txn := none })
  | .dbiOpen dbi dupsort, s => s.inTxn fun ts => (0, ts.dbiOpen dbi dupsort)
  | .setDupsort dbi cmp, s => s.inTxn fun ts => ts.update dbi fun t => some { t with dcmp := cmp }
  | .put dbi key val, s => s.inTxn fun ts => ts.update dbi (·.put key val)
  | .cursorPut dbi key val, s => s.inTxn fun ts => ts.update dbi (·.append key val)
  | .stat dbi, s => s.inTxn fun ts => (if (ts.get dbi).isSome then 0 else EINVAL, ts)
  | .get dbi key, s => (.ok (s.lookup dbi key), s)
  | .tally what, s => (.ok {}, s.count what)
  | .envCreate, s | .setMaxdbs _, s | .envOpen, s | .lockResize, s | .unlockResize, s
  | .cursorOpen _, s | .cursorClose, s => (.ok {}, s)

/-- A call that does not return waits for a transaction. -/
theorem lmdb_blocked {c : Call} {s s' : Store} {stop : Stop} (h : lmdb c s = (.error stop, s')) :
    stop = .blocked := by
  cases c with
  | txnBegin =>
    simp only [lmdb] at h
    split at h
    · exact (Except.error.inj (Prod.mk.inj h).1).symm
    · cases h
  | setMapsize | dbiOpen | setDupsort | put | cursorPut | stat =>
    simp only [lmdb, Store.inTxn] at h
    split at h <;> cases h
  | _ => cases h

end ElectrumZ.Blockchain
