import ElectrumZ.Foundations.Runs
import ElectrumZ.Blockchain.Attempt
import ElectrumZ.Blockchain.Passes

/-!
# Several workers

`PreLoadBlocks` with any number of workers: each takes the next file of the list under its lock,
scans it, and makes one call for a block after another, in any order with the others. Its two phases
follow each other when all workers of the first have been joined.

One worker at a time has a write transaction, which a begin waits for, and one at a time is within
`IncreaseMapSize`. The calls are answered as by `lmdb`, but a put may find the map full whenever an
action says so.

* `step`: what an action of a worker makes of the pool.
* `Fine` is what is assumed of LMDB, `Undisturbed` what a resize relies on, and `Complete` says that
  no block is lost.
-/

namespace ElectrumZ.Blockchain

open Foundations Bitcoin

/-- Where a worker stands. -/
inductive Position
  /-- It is about to take a file. -/
  | idle
  /-- It is in the loop over its file. -/
  | reading (bf : CBufferedFile)
  /-- It indexes a block of its file, and `rest` is what is left of the attempt. -/
  | indexing (bf : CBufferedFile) (blk : CBlock) (rest : Prog Unit)
  /-- It has left its loop: no file is left. -/
  | finished
  /-- It has returned early. -/
  | gaveUp (stop : Stop)

/-- A file that a worker has taken. -/
structure Take where
  mode : ℕ
  file : ℕ
  worker : ℕ
  deriving DecidableEq, Repr

/-- The workers of a preload, and what they share. -/
structure Pool where
  store : Store
  /-- The worker that the write transaction belongs to. -/
  owner : Option ℕ
  /-- The worker that holds the resize lock. -/
  resizing : Option ℕ
  mode : ℕ
  /-- `pos_txo`. -/
  pos_txo : ℕ
  workers : List Position
  /-- `PreLoadBlocks` has returned. -/
  returned : Bool
  /-- The files that have been taken. -/
  taken : List Take
  /-- The blocks that have been committed, each with the phase. -/
  committed : List (ℕ × CBlock)

/-- What a worker does next, by its number: take a file, make a pass over its file, or make a call,
for which a put may find the map full. -/
inductive PoolAction
  | take (k : ℕ)
  | pass (k : ℕ)
  | call (k : ℕ) (full : Bool)
  | join
  deriving DecidableEq, Repr

/-- How a call is answered. -/
def answer (full : Bool) (c : Call) (s : Store) : Except Stop Reply × Store :=
  ((filling c (s, [full])).1, (filling c (s, [full])).2.1)

namespace Position

/-- The worker's thread has ended. -/
def ended : Position → Bool
  | finished | gaveUp _ => true
  | _ => false

/-- Where the rest of an attempt leads without a call. -/
def settle (sha256 : Bytes → UInt256) (mode : ℕ) (bf : CBufferedFile) (blk : CBlock) :
    Prog Unit → Position
  | .done () => reading bf
  | .fail .again => indexing bf blk (indexBlock sha256 mode blk)
  | .fail stop => gaveUp stop
  | .ask c rest => indexing bf blk (.ask c rest)

end Position

namespace Pool

/-- The workers of the first phase have been started. -/
def start (n : ℕ) (tables : Tables) (mapsize : ℕ) : Pool where
  store := ⟨tables, none, mapsize, 0, 0⟩
  owner := none
  resizing := none
  mode := 0
  pos_txo := 0
  workers := List.replicate n .idle
  returned := false
  taken := []
  committed := []

/-- The call waits for another worker. -/
def waits (s : Pool) : Call → Bool
  | .txnBegin => s.owner.isSome
  | .lockResize => s.resizing.isSome
  | _ => false

/-- The worker `k` has made a call for a block, which leaves the store. -/
def made (s : Pool) (k : ℕ) (blk : CBlock) (c : Call) (store : Store) : Pool :=
  match c with
  | .txnBegin => { s with store, owner := some k }
  | .txnCommit => { s with store, owner := none, committed := s.committed ++ [(s.mode, blk)] }
  | .txnAbort => { s with store, owner := none }
  | .lockResize => { s with store, resizing := some k }
  | .unlockResize => { s with store, resizing := none }
  | _ => { s with store }

/-- The worker `k` has taken the next file of the list. -/
def popped (s : Pool) (k : ℕ) : Pool :=
  { s with pos_txo := s.pos_txo + 1, taken := s.taken ++ [⟨s.mode, s.pos_txo, k⟩] }

/-- The worker `k` moves on. -/
def move (s : Pool) (k : ℕ) (w : Position) : Pool := { s with workers := s.workers.set k w }

variable (sha256 : Bytes → UInt256) (files : List Bytes)

/-- What an action makes of the pool; a call that waits is not made. -/
def step : PoolAction → Pool → Option Pool
  | .take k, s =>
    match s.workers[k]? with
    | some .idle =>
      match files[s.pos_txo]? with
      | none => some (s.move k .finished)
      | some content =>
        some ((s.popped k).move k (.reading (openBlockFile content)))
    | _ => none
  | .pass k, s =>
    match s.workers[k]? with
    | some (.reading bf) =>
      match scanStep bf with
      | (.leave, _) => some (s.move k .idle)
      | (.again, bf) => some (s.move k (.reading bf))
      | (.block blk, bf) => some (s.move k (.indexing bf blk (indexBlock sha256 s.mode blk)))
    | _ => none
  | .call k full, s =>
    match s.workers[k]? with
    | some (.indexing bf blk (.ask c rest)) =>
      if s.waits c then none
      else
        match answer full c s.store with
        | (.ok r, store) =>
          some ((s.made k blk c store).move k (.settle sha256 s.mode bf blk (rest r)))
        | (.error stop, store) => some { s.move k (.gaveUp stop) with store }
    | _ => none
  | .join, s =>
    if s.workers.all Position.ended then
      if s.mode = 0 then
        some { s with mode := 1, pos_txo := 0, workers := s.workers.map fun _ => .idle }
      else some { s with returned := true }
    else none

/-! ## What is assumed, and what is claimed -/

/-- The call that the worker `k` makes next. -/
def nextCall (s : Pool) (k : ℕ) : Option Call :=
  match s.workers[k]? with
  | some (.indexing _ _ (.ask c _)) => some c
  | _ => none

/-- LMDB reports nothing but a full map, at a put, and what the worker goes on after. -/
def Fine (a : PoolAction) (s : Pool) : Prop :=
  match a with
  | .call k full => ∀ c r, s.nextCall k = some c → (answer full c s.store).1 = .ok r →
      Passes ⟨c, r⟩ ∨ c.unplanned = false ∧ r.code = MDB_MAP_FULL
  | _ => True

/-- The map is resized only while no write transaction is active. -/
def Undisturbed (a : PoolAction) (s : Pool) : Prop :=
  match a with
  | .call k _ => ∀ size, s.nextCall k = some (.setMapsize size) → s.owner = none
  | _ => True

instance decidableFine : ∀ a s, Decidable (Fine a s)
  | .take _, _ | .pass _, _ | .join, _ => .isTrue trivial
  | .call k full, s =>
    match hc : s.nextCall k with
    | none => .isTrue fun _ _ hc' => nomatch hc.symm.trans hc'
    | some c =>
      match hr : (answer full c s.store).1 with
      | .error stop => .isTrue fun c' r hc' hr' => by
          obtain rfl := Option.some.inj (hc.symm.trans hc')
          exact nomatch hr.symm.trans hr'
      | .ok r => decidable_of_iff (Passes ⟨c, r⟩ ∨ c.unplanned = false ∧ r.code = MDB_MAP_FULL)
        ⟨fun h c' r' hc' hr' => by
          obtain rfl := Option.some.inj (hc.symm.trans hc')
          obtain rfl := Except.ok.inj (hr.symm.trans hr')
          exact h, fun h => h c r hc hr⟩

instance decidableUndisturbed : ∀ a s, Decidable (Undisturbed a s)
  | .take _, _ | .pass _, _ | .join, _ => .isTrue trivial
  | .call k _, s =>
    match hc : s.nextCall k with
    | some (.setMapsize size) => decidable_of_iff (s.owner = none)
      ⟨fun h _ _ => h, fun h => h size hc⟩
    | some .envCreate | some (.setMaxdbs _) | some .envOpen | some .envInfo | some .lockResize
    | some .unlockResize | some .txnBegin | some .txnCommit | some .txnAbort | some (.dbiOpen _ _)
    | some (.setDupsort _ _) | some (.put _ _ _) | some (.cursorOpen _) | some (.cursorPut _ _ _)
    | some .cursorClose | some (.stat _) | some (.get _ _) | some (.tally _) | none =>
      .isTrue fun _ h => nomatch hc.symm.trans h

/-- The files taken in a phase, in order, by their place in the list. -/
def takenIn (s : Pool) (mode : ℕ) : List ℕ :=
  (s.taken.filter fun t => t.mode = mode).map Take.file

/-- The blocks committed in a phase. -/
def committedIn (s : Pool) (mode : ℕ) : List CBlock :=
  (s.committed.filter fun b => b.1 = mode).map Prod.snd

/-- **No block is lost.** No worker gives up, no file is taken twice in a phase, and when the
workers of a phase have been joined every file has been taken and every block committed. What is
stored is what adding the committed blocks to the tables of the start makes, one after another. -/
structure Complete (tables : Tables) (s : Pool) : Prop where
  goesOn : ∀ (k : ℕ) stop, s.workers[k]? ≠ some (Position.gaveUp stop)
  once : ∀ mode, s.takenIn mode <+: List.range files.length
  outputs : 0 < s.mode → s.takenIn 0 = List.range files.length ∧
    (s.committedIn 0).Perm (files.flatMap blocksOf)
  inputs : s.returned = true → s.takenIn 1 = List.range files.length ∧
    (s.committedIn 1).Perm (files.flatMap blocksOf)
  stored : ∃ v, s.committed.foldlM (fun v b => addBlock sha256 b.1 v b.2) tables.opened = some v ∧
    s.store.tables.opened = v

end Pool

end ElectrumZ.Blockchain
