import ElectrumZ.Blockchain.Worker

/-!
# Preloading the index

`main` up to the preload, and `PreLoadBlocks` with one worker: the statistics queries, the two
passes over the block files, and in each the scan loop around the retry loop of a block. The
number of retries of a block and of rounds of a scan loop are bounded by parameters.

* `worker_eq`: over well-formed files, with enough rounds, a worker does what indexing all their
  blocks in order does (`indexBlocks`).
* `indexBlocks_of_addBlocks`: indexing blocks commits what `addBlock` computes, one block after
  another; `preLoadBlocks_of_addBlocks`: so do both passes over any files.
* `run_startup`: the statistics queries create the three tables, without sorted duplicates.
-/

namespace ElectrumZ.Blockchain

open Foundations Bitcoin

variable (sha256 : Bytes → UInt256)

/-! ## One worker -/

/-- `preload_func` of a single worker: one file after another, until it gives up. -/
def worker (retries rounds mode : ℕ) (blks : List Bytes) (s : Store) :
    Option (Except (Stop × Store) Store) :=
  preloadFunc lmdb sha256 retries rounds mode blks s

/-- Indexing blocks one after another, until a block is given up. -/
def indexBlocks (retries mode : ℕ) (blks : List CBlock) (s : Store) :
    Except (Stop × Store) Store :=
  loadBlocks lmdb sha256 retries mode blks s

/-- What is left when the worker's thread has been joined; one that waits for ever never is. -/
def joined : Except (Stop × Store) Store → Option Store
  | .ok s => some s
  | .error (.err _, s) => some s
  | .error _ => none

/-! ## The preload -/

/-- A file of the data directory. -/
structure DirEntry where
  name : Bytes
  content : Bytes

/-- The contents of the files whose names begin with `blk`. -/
def blockFiles (dir : List DirEntry) : List Bytes :=
  (dir.filter fun entry => (ascii "blk").isPrefixOf entry.name).map DirEntry.content

/-- Start a worker for one pass over the files, and join it. -/
def pass (retries rounds mode : ℕ) (blks : List Bytes) (s : Store) : Option Store := do
  let r ← worker sha256 retries rounds mode blks s
  joined r

/-- `PreLoadBlocks` with one worker: all outputs first, then the inputs. -/
def preLoadBlocks (retries rounds : ℕ) (dir : List DirEntry) (s : Store) : Option Store := do
  let s ← pass sha256 retries rounds 0 (blockFiles dir) s
  pass sha256 retries rounds 1 (blockFiles dir) s

/-- `main` up to the preload: open the environment and query the statistics of each table. -/
def startup : Prog Bool := do
  let err ← openEnv
  if err ≠ 0 then return false
  let err ← getTXOStats .txo
  if err ≠ 0 then return false
  let err ← getTXOStats .addr
  if err ≠ 0 then return false
  let err ← getTXOStats .blk
  if err ≠ 0 then return false
  return true

/-- `main` with `--preload`. -/
def main (retries rounds : ℕ) (dir : List DirEntry) (s : Store) : Option Store :=
  match startup.run lmdb s with
  | (.ok true, s) => preLoadBlocks sha256 retries rounds dir s
  | (.ok false, s) => some s
  | (.error _, _) => none

/-! ## Well-formed files -/

/-- The file in a directory. -/
def BlockFile.entry (f : BlockFile) : DirEntry := ⟨ascii "blk" ++ f.suffix, f.content⟩

theorem blockFiles_entries (files : List BlockFile) :
    blockFiles (files.map BlockFile.entry) = files.map BlockFile.content := by
  induction files with
  | nil => rfl
  | cons f files ih =>
    have hblk : (ascii "blk").isPrefixOf f.entry.name = true := by
      rw [List.isPrefixOf_iff_prefix]
      exact List.prefix_append _ _
    rw [blockFiles] at ih ⊢
    rw [List.map_cons, List.filter_cons, if_pos hblk, List.map_cons, ih]
    rfl

variable {sha256} {s : Store}

/-- **A worker over well-formed files indexes all their blocks, in order.** -/
theorem worker_eq (retries mode : ℕ) (files : List BlockFile) (s : Store) :
    ∃ n, ∀ rounds, n ≤ rounds →
      worker sha256 retries rounds mode (files.map BlockFile.content) s =
        some (indexBlocks sha256 retries mode (allBlocks files) s) :=
  preloadFunc_eq lmdb sha256 retries mode files s

/-! ## Indexing and the tables -/

/-- A block whose pairs the tables take is indexed at the first attempt. -/
theorem loadBlock_of_addBlock {mode : ℕ} {b : CBlock} {v : View} (retries : ℕ) (hs : s.txn = none)
    (h : addBlock sha256 mode s.tables.opened b = some v) :
    ∃ s', loadBlock lmdb sha256 (retries + 1) mode b s = .ok s' ∧ s'.txn = none ∧
      s'.tables = v.tables := by
  obtain ⟨s', hrun, hs', htables⟩ := run_indexBlock hs h
  refine ⟨s', ?_, hs', htables⟩
  rw [loadBlock, loop_succ_inr (tryBlock_ok hrun)]
  rfl

/-- The tables of a view whose `txo` has its comparator are opened as they are. -/
theorem opened_tables {v : View} (h : v.txo.dcmp = txoCmp) : v.tables.opened = v := by
  obtain ⟨⟨dupsort, dcmp, vals⟩, addr, blk⟩ := v
  obtain rfl : dcmp = txoCmp := h
  rfl

theorem addOutput_dcmp {txHash : UInt256} {n : ℕ} {o : CTxOut} {v v' : View}
    (h : addOutput sha256 txHash n o v = some v') : v'.txo.dcmp = v.txo.dcmp := by
  rw [addOutput] at h
  split at h
  · rw [← Option.some.inj h]
  · obtain ⟨txo, htxo, rfl⟩ := Option.map_eq_some_iff.mp h
    exact Foundations.Table.append_dcmp htxo

theorem addOutputs_dcmp {txHash : UInt256} {n : ℕ} {vout : List CTxOut} {v v' : View}
    (h : addOutputs sha256 txHash n vout v = some v') : v'.txo.dcmp = v.txo.dcmp := by
  induction vout generalizing n v with
  | nil => rw [← Option.some.inj h]
  | cons o vout ih =>
    obtain ⟨v₁, h₁, h₂⟩ := Option.bind_eq_some_iff.mp h
    rw [ih h₂, addOutput_dcmp h₁]

theorem addBlock_dcmp {mode : ℕ} {b : CBlock} {v v' : View}
    (h : addBlock sha256 mode v b = some v') : v'.txo.dcmp = v.txo.dcmp := by
  obtain ⟨blk, -, htxs⟩ := Option.bind_eq_some_iff.mp h
  refine foldlM_invariant (I := fun v₁ => v₁.txo.dcmp = v.txo.dcmp) ?_ htxs rfl
  intro v₁ tx v₂ hv₁ htx
  rw [addTx] at htx
  split_ifs at htx
  · rw [← Option.some.inj htx, hv₁]
  · rw [addOutputs_dcmp htx, hv₁]

/-- **Indexing blocks commits what `addBlock` computes**, one block after another. Without blocks
nothing is committed, but the next block would open the same tables. -/
theorem indexBlocks_of_addBlocks {mode : ℕ} {blks : List CBlock} {v : View} (retries : ℕ)
    (hs : s.txn = none) (h : blks.foldlM (addBlock sha256 mode) s.tables.opened = some v) :
    ∃ s', indexBlocks sha256 (retries + 1) mode blks s = .ok s' ∧ s'.txn = none ∧
      s'.tables.opened = v ∧ s'.tables = if blks = [] then s.tables else v.tables := by
  induction blks generalizing s with
  | nil => exact ⟨s, rfl, hs, Option.some.inj h, rfl⟩
  | cons b blks ih =>
    obtain ⟨v₁, h₁, h₂⟩ := Option.bind_eq_some_iff.mp (List.foldlM_cons.symm.trans h)
    obtain ⟨s₁, hindex, hs₁, htables⟩ := loadBlock_of_addBlock retries hs h₁
    have hopened : s₁.tables.opened = v₁ := by
      rw [htables]
      exact opened_tables (addBlock_dcmp h₁)
    obtain ⟨s', hrun, hs', hopened', htables'⟩ := ih hs₁ (hopened.symm ▸ h₂)
    refine ⟨s', ?_, hs', hopened', ?_⟩
    · rw [indexBlocks, loadBlocks, List.foldlM_cons, hindex]
      exact hrun
    · rw [if_neg (List.cons_ne_nil b blks)]
      split_ifs at htables' with hnil
      · rw [htables', htables, ← hopened', htables', htables, opened_tables (addBlock_dcmp h₁)]
      · exact htables'

/-- Blocks that are indexed have been added, one after another. -/
theorem addBlocks_of_indexBlocks {mode : ℕ} {blks : List CBlock} {s' : Store} (retries : ℕ)
    (hs : s.txn = none) (h : indexBlocks sha256 (retries + 1) mode blks s = .ok s') :
    ∃ v, blks.foldlM (addBlock sha256 mode) s.tables.opened = some v ∧ s'.txn = none ∧
      s'.tables.opened = v := by
  induction blks generalizing s with
  | nil =>
    obtain rfl := Except.ok.inj h
    exact ⟨_, rfl, hs, rfl⟩
  | cons b blks ih =>
    cases hadd : addBlock sha256 mode s.tables.opened b with
    | none =>
      obtain ⟨s₁, hrun, -⟩ := run_indexBlock_none hs hadd
      rw [indexBlocks, loadBlocks, List.foldlM_cons, loadBlock,
        loop_succ_inr (tryBlock_error (by simp) hrun)] at h
      cases h
    | some v₁ =>
      obtain ⟨s₁, hindex, hs₁, htables⟩ := loadBlock_of_addBlock retries hs hadd
      rw [indexBlocks, loadBlocks, List.foldlM_cons, hindex] at h
      obtain ⟨v, hrun, hs', hopened⟩ := ih hs₁ h
      rw [htables, opened_tables (addBlock_dcmp hadd)] at hrun
      exact ⟨v, List.foldlM_cons.trans (by rw [hadd]; exact hrun), hs', hopened⟩

/-- One pass over any files adds all their blocks, one after another. -/
theorem pass_of_addBlocks {mode : ℕ} {files : List Bytes} {v : View} (retries : ℕ)
    (hs : s.txn = none)
    (h : (blocksIn files).foldlM (addBlock sha256 mode) s.tables.opened = some v) :
    ∃ n s', (∀ rounds, n ≤ rounds →
        pass sha256 (retries + 1) rounds mode files s = some s') ∧
      s'.txn = none ∧ s'.tables.opened = v := by
  obtain ⟨s', hindex, hs', hopened, -⟩ := indexBlocks_of_addBlocks retries hs h
  obtain ⟨n, hn⟩ := preloadFunc_found lmdb sha256 (retries + 1) mode files s
  refine ⟨n, s', fun rounds hle => ?_, hs', hopened⟩
  rw [indexBlocks] at hindex
  rw [pass, worker, hn rounds hle, hindex]
  rfl

/-- **Both passes of one worker over any files.** -/
theorem preLoadBlocks_of_addBlocks {dir : List DirEntry} {v v' : View} (retries : ℕ)
    (hs : s.txn = none)
    (h : (blocksIn (blockFiles dir)).foldlM (addBlock sha256 0) s.tables.opened = some v)
    (h' : (blocksIn (blockFiles dir)).foldlM (addBlock sha256 1) v = some v') :
    ∃ n s', (∀ rounds, n ≤ rounds →
        preLoadBlocks sha256 (retries + 1) rounds dir s = some s') ∧ s'.tables.opened = v' := by
  obtain ⟨n, s₁, hn, hs₁, hopened⟩ := pass_of_addBlocks retries hs h
  obtain ⟨n', s', hn', -, hopened'⟩ := pass_of_addBlocks retries hs₁ (hopened.symm ▸ h')
  refine ⟨max n n', s', fun rounds hle => ?_, hopened'⟩
  rw [preLoadBlocks, hn rounds (by omega)]
  exact hn' rounds (by omega)

/-! ## The start-up -/

/-- The tables the statistics queries leave in a new environment. -/
def plainTables : Tables :=
  ⟨some (.empty false memcmp), some (.empty false memcmp), some (.empty false memcmp)⟩

/-- **The statistics queries create the tables**, and without sorted duplicates. -/
theorem run_startup : ∃ s, startup.run lmdb Store.fresh = (.ok true, s) ∧ s.txn = none ∧
    s.tables = plainTables :=
  ⟨_, rfl, rfl, rfl⟩

end ElectrumZ.Blockchain
