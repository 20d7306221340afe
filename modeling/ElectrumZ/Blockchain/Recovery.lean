import ElectrumZ.Blockchain.Atomicity
import ElectrumZ.Blockchain.Index

/-!
# What preloads make of a database

The tables that a preload leaves depend on the blocks of the files alone: not on the number of
workers, the order of their steps, which puts have found the map full, or the preloads before it,
wherever they were stopped.

* `Atomic.indexOf`: at every moment the tables are the index of what has been committed.
* `concurrent_eq_sequential`: **the workers leave the tables that one worker alone leaves**.
* `recovered`: **a preload that is run to its end makes up for those that were not**.
-/

namespace ElectrumZ.Blockchain

open Foundations Bitcoin

variable {sha256 : Bytes → UInt256}

theorem vout_length_of_blocksIn {files : List Bytes} {b : CBlock} (hb : b ∈ blocksIn files) :
    ∀ tx ∈ b.vtx, tx.vout.length ≤ MAX_SIZE := by
  obtain ⟨content, -, hb⟩ := List.mem_flatMap.mp hb
  obtain ⟨p, hp, rfl⟩ := List.mem_map.mp hb
  exact vout_length_of_found hp

theorem mem_outputBlocks {l : List (ℕ × CBlock)} {b : CBlock} :
    b ∈ outputBlocks l ↔ ∃ mode ≠ 1, (mode, b) ∈ l := by
  simp [outputBlocks]
  grind

/-- Adding the blocks of one pass. -/
theorem IndexOf.addPass {outs hdrs blks : List CBlock} {v : View} (h : IndexOf sha256 outs hdrs v)
    (hc : Functional (entriesOf sha256 (outs ++ blks)))
    (hlen : ∀ b ∈ blks, ∀ tx ∈ b.vtx, tx.vout.length ≤ MAX_SIZE) (mode : ℕ) :
    ∃ v', blks.foldlM (Blockchain.addBlock sha256 mode) v = some v' ∧
      IndexOf sha256 (outs ++ if mode = 1 then [] else blks) (hdrs ++ blks) v' := by
  have hsnd : (blks.map fun b => (mode, b)).map Prod.snd = blks := by simp
  have houts : outputBlocks (blks.map fun b => (mode, b)) = if mode = 1 then [] else blks := by
    unfold outputBlocks
    split_ifs with hmode <;> simp [List.filter_map, Function.comp_def, hmode]
  have hlen' : ∀ p ∈ blks.map fun b => (mode, b), ∀ tx ∈ p.2.vtx, tx.vout.length ≤ MAX_SIZE := by
    simpa using hlen
  obtain ⟨v', hfold, hindex⟩ := h.addBlocks (hsnd.symm ▸ hc) hlen'
  rw [List.foldlM_map] at hfold
  rw [hsnd, houts] at hindex
  exact ⟨v', hfold, hindex⟩

namespace Pool

variable {files files' : List Bytes} {tables tables' : Tables} {s s' : Pool}
  {n n' mapsize mapsize' : ℕ} {as as' : List PoolAction} {outs hdrs : List CBlock}

/-! ## What is committed -/

/-- What has been committed are blocks of the files. -/
theorem Atomic.mem_blocksIn (h : Atomic sha256 files tables s) {mode : ℕ} {b : CBlock}
    (hb : (mode, b) ∈ s.committed) : b ∈ blocksIn files := by
  obtain ⟨m, -, -, hsub⟩ := h.phases mode
  have hmem : b ∈ s.committedIn mode := by
    rw [committedIn, List.mem_map]
    exact ⟨(mode, b), by simpa using hb, rfl⟩
  obtain ⟨content, hcontent, hblock⟩ := List.mem_flatMap.mp (hsub.subset hmem)
  exact List.mem_flatMap.mpr ⟨content, List.mem_of_mem_take hcontent, hblock⟩

/-- **At every moment the tables are the index of what has been committed.** -/
theorem Atomic.indexOf (h : Atomic sha256 files tables s)
    (hindex : IndexOf sha256 outs hdrs tables.opened)
    (hc : Functional (entriesOf sha256 (outs ++ blocksIn files))) :
    IndexOf sha256 (outs ++ outputBlocks s.committed) (hdrs ++ s.committed.map Prod.snd)
      s.store.tables.opened := by
  obtain ⟨v, hfold, hv⟩ := h.stored
  have hfun : Functional (entriesOf sha256 (outs ++ s.committed.map Prod.snd)) := by
    refine hc.sublist fun e he => ?_
    obtain ⟨b, hb, he⟩ := mem_entriesOf.mp he
    refine mem_entriesOf.mpr ⟨b, ?_, he⟩
    rw [List.mem_append, List.mem_map] at hb
    rw [List.mem_append]
    obtain hb | ⟨⟨mode, b⟩, hmem, rfl⟩ := hb
    · exact .inl hb
    · exact .inr (h.mem_blocksIn hmem)
  have hlen : ∀ b ∈ s.committed, ∀ tx ∈ b.2.vtx, tx.vout.length ≤ MAX_SIZE :=
    fun b hb => vout_length_of_blocksIn (h.mem_blocksIn hb)
  obtain ⟨v', hfold', hv'⟩ := hindex.addBlocks hfun hlen
  obtain rfl := Option.some.inj (hfold.symm.trans hfold')
  exact hv.symm ▸ hv'

/-! ## A preload that is run to its end -/

/-- A preload by `n + 1` workers is run to its end. LMDB reports nothing but a full map, and the map
is resized only while no write transaction is active. -/
structure Completes (sha256 : Bytes → UInt256) (files : List Bytes) (n : ℕ) (tables : Tables)
    (mapsize : ℕ) (as : List PoolAction) (s : Pool) : Prop where
  runs : Runs (step sha256 files) (start (n + 1) tables mapsize) as s
  fine : Throughout (step sha256 files) Fine (start (n + 1) tables mapsize) as
  undisturbed : Throughout (step sha256 files) Undisturbed (start (n + 1) tables mapsize) as
  returned : s.returned = true

theorem Completes.inv (h : Completes sha256 files n tables mapsize as s) :
    Inv sha256 files tables s := by
  have hinv := always_of_throughout (I := Inv sha256 files tables) (A := fun _ => True)
    (C := fun a s => Fine a s ∧ Undisturbed a s) ?_ (always_of_forall fun _ => trivial)
    (start_inv sha256 files n tables mapsize) (h.fine.and h.undisturbed)
  · exact hinv.last h.runs
  · intro a s s' hs _ hstep ⟨hfine, hundisturbed⟩ _
    obtain rfl | ⟨k, w, w', hw, hm⟩ := hs.moves_step hfine hundisturbed hstep
    · exact hs.join hstep
    · exact hs.moves hw hm

theorem Completes.atomic (h : Completes sha256 files n tables mapsize as s) :
    Atomic sha256 files tables s :=
  ((intact_always sha256 files (n + 1) tables mapsize as).last h.runs).atomic

/-- Every block has been committed in both phases, and nothing else. -/
theorem Completes.mem_committed (h : Completes sha256 files n tables mapsize as s) (b : CBlock) :
    (b ∈ outputBlocks s.committed ↔ b ∈ blocksIn files) ∧
      (b ∈ s.committed.map Prod.snd ↔ b ∈ blocksIn files) := by
  have hcomplete := h.inv.complete
  have hmode : 0 < s.mode := by
    rw [(h.inv.returned h.returned).1]
    exact Nat.one_pos
  have hzero (hb : b ∈ blocksIn files) : (0, b) ∈ s.committed := by
    have hmem : b ∈ s.committedIn 0 := (hcomplete.outputs hmode).2.mem_iff.mpr hb
    simpa [committedIn] using hmem
  rw [mem_outputBlocks, List.mem_map]
  refine ⟨⟨?_, fun hb => ⟨0, by simp, hzero hb⟩⟩, ⟨?_, fun hb => ⟨_, hzero hb, rfl⟩⟩⟩
  · rintro ⟨mode, -, hmem⟩
    exact h.atomic.mem_blocksIn hmem
  · rintro ⟨⟨mode, b⟩, hmem, rfl⟩
    exact h.atomic.mem_blocksIn hmem

/-- **The tables are the index of the blocks of the files**, if they were the index of some of
them. -/
theorem Completes.indexOf (h : Completes sha256 files n tables mapsize as s)
    (hc : Collisionless sha256 (blocksIn files)) (hindex : IndexOf sha256 outs hdrs tables.opened)
    (houts : outs ⊆ blocksIn files) (hhdrs : hdrs ⊆ blocksIn files) :
    ∃ outs' hdrs', IndexOf sha256 outs' hdrs' s.store.tables.opened ∧
      (∀ b, b ∈ outs' ↔ b ∈ blocksIn files) ∧ ∀ b, b ∈ hdrs' ↔ b ∈ blocksIn files := by
  have hsub : outs ++ blocksIn files ⊆ blocksIn files := List.append_subset.mpr ⟨houts, fun _ => id⟩
  refine ⟨_, _, h.atomic.indexOf hindex (hc.subset hsub).txs, fun b => ?_, fun b => ?_⟩
  · rw [List.mem_append, (h.mem_committed b).1]
    exact or_iff_right_of_imp fun hb => houts hb
  · rw [List.mem_append, (h.mem_committed b).2]
    exact or_iff_right_of_imp fun hb => hhdrs hb

/-- **The workers leave the tables that one worker alone leaves.** From fresh tables, for any
directory whose blocks do not collide, any number of workers in any order, and any puts finding the
map full. -/
theorem concurrent_eq_sequential {dir : List DirEntry} {s₀ : Store} (retries : ℕ)
    (h₀ : Fresh s₀) (hc : Collisionless sha256 (blocksIn (blockFiles dir)))
    (h : Completes sha256 (blockFiles dir) n s₀.tables mapsize as s) :
    ∃ m s', (∀ rounds, m ≤ rounds →
        preLoadBlocks sha256 (retries + 1) rounds dir s₀ = some s') ∧
      s'.tables.opened = s.store.tables.opened := by
  have hempty : IndexOf sha256 [] [] s₀.tables.opened := h₀.2 ▸ indexOf_nil
  have hlen (b : CBlock) (hb : b ∈ blocksIn (blockFiles dir)) := vout_length_of_blocksIn hb
  -- the first pass, and the second over what it has stored
  have htxs : Functional (entriesOf sha256 ([] ++ blocksIn (blockFiles dir))) := hc.txs
  obtain ⟨v, hv, hindex⟩ := hempty.addPass htxs hlen 0
  obtain ⟨v', hv', hindex'⟩ := hindex.addPass (hc.subset (by simp)).txs hlen 1
  obtain ⟨m, s', hm, hopened⟩ := preLoadBlocks_of_addBlocks retries h₀.1 hv hv'
  refine ⟨m, s', hm, hopened.trans ?_⟩
  obtain ⟨outs', hdrs', hs, houts, hhdrs⟩ := h.indexOf hc hempty (by simp) (by simp)
  refine hindex'.unique hs (fun b => ?_) (fun b => ?_) (hc.subset (by simp))
  · rw [houts]
    simp
  · rw [hhdrs]
    simp

/-! ## Preloads that were stopped -/

/-- A preload of files with no other blocks has left these tables, in whatever state it was
stopped and whatever has gone wrong before. -/
def Stopped (sha256 : Bytes → UInt256) (blks : List CBlock) (tables tables' : Tables) : Prop :=
  ∃ files n mapsize as s, blocksIn files ⊆ blks ∧
    Runs (step sha256 files) (start n tables mapsize) as s ∧ s.store.tables = tables'

/-- The tables are the index of some of the blocks. -/
def Partial (sha256 : Bytes → UInt256) (blks : List CBlock) (tables : Tables) : Prop :=
  ∃ outs hdrs, outs ⊆ blks ∧ hdrs ⊆ blks ∧ IndexOf sha256 outs hdrs tables.opened

/-- **A preload that is stopped** leaves an index of some of the blocks. -/
theorem Stopped.indexes {blks : List CBlock} (h : Stopped sha256 blks tables tables')
    (hc : Collisionless sha256 blks) (hindex : Partial sha256 blks tables) :
    Partial sha256 blks tables' := by
  obtain ⟨files, n, mapsize, as, s, hsub, hruns, rfl⟩ := h
  obtain ⟨outs, hdrs, houts, hhdrs, hindex⟩ := hindex
  have hatomic := ((intact_always sha256 files n tables mapsize as).last hruns).atomic
  have hall := List.append_subset.mpr ⟨houts, hsub⟩
  refine ⟨_, _, ?_, ?_, hatomic.indexOf hindex (hc.subset hall).txs⟩
  · refine List.append_subset.mpr ⟨houts, fun b hb => ?_⟩
    obtain ⟨mode, -, hmem⟩ := mem_outputBlocks.mp hb
    exact hsub (hatomic.mem_blocksIn hmem)
  · refine List.append_subset.mpr ⟨hhdrs, fun b hb => ?_⟩
    obtain ⟨⟨mode, b⟩, hmem, rfl⟩ := List.mem_map.mp hb
    exact hsub (hatomic.mem_blocksIn hmem)

theorem indexes_of_stopped {blks : List CBlock}
    (h : Relation.ReflTransGen (Stopped sha256 blks) tables tables')
    (hc : Collisionless sha256 blks) (hempty : tables.opened = emptyView) :
    Partial sha256 blks tables' := by
  induction h with
  | refl => exact ⟨[], [], by simp, by simp, hempty ▸ indexOf_nil⟩
  | tail _ hstopped ih => exact hstopped.indexes hc ih

/-- **A preload that is run to its end makes up for those that were not.** After any number of
preloads that were stopped, or lost blocks, it leaves the tables that a preload of the same blocks
would have left in the first place. -/
theorem recovered (hempty : tables.opened = emptyView)
    (hc : Collisionless sha256 (blocksIn files))
    (hstopped : Relation.ReflTransGen (Stopped sha256 (blocksIn files)) tables tables')
    (h : Completes sha256 files n tables' mapsize as s)
    (hsame : ∀ b, b ∈ blocksIn files ↔ b ∈ blocksIn files')
    (h' : Completes sha256 files' n' tables mapsize' as' s') :
    s.store.tables.opened = s'.store.tables.opened := by
  obtain ⟨outs, hdrs, houts, hhdrs, hindex⟩ := indexes_of_stopped hstopped hc hempty
  obtain ⟨outs₁, hdrs₁, hs, houts₁, hhdrs₁⟩ := h.indexOf hc hindex houts hhdrs
  have hc' : Collisionless sha256 (blocksIn files') := hc.subset fun b => (hsame b).mpr
  obtain ⟨outs₂, hdrs₂, hs', houts₂, hhdrs₂⟩ :=
    h'.indexOf hc' (hempty ▸ indexOf_nil) (by simp) (by simp)
  refine hs.unique hs' (fun b => ?_) (fun b => ?_) (hc.subset fun b => (hhdrs₁ b).mp)
  · rw [houts₁, houts₂, hsame]
  · rw [hhdrs₁, hhdrs₂, hsame]

/-! ## Two preloads of a block -/

/-- What can be decided of a run that is complete. -/
theorem Completes.of_run (hrun : (as.foldlM (fun s a => step sha256 files a s)
      (start (n + 1) tables mapsize)).any Pool.returned = true)
    (hfine : Throughout (step sha256 files) Fine (start (n + 1) tables mapsize) as)
    (hundisturbed : Throughout (step sha256 files) Undisturbed (start (n + 1) tables mapsize) as) :
    ∃ s, Completes sha256 files n tables mapsize as s := by
  obtain ⟨s, hs, hreturned⟩ := (Option.any_eq_true _ _).mp hrun
  exact ⟨s, runs_iff_foldlM.mpr hs, hfine, hundisturbed, hreturned⟩

theorem collisionless_twoOutputs {blks : List CBlock}
    (h : ∀ b ∈ blks, b = payTo [[0x51], [0x51]]) : Collisionless (fun _ => .zero) blks where
  txs e he e' he' _ := by
    obtain ⟨b, hb, he⟩ := mem_entriesOf.mp he
    obtain ⟨b', hb', he'⟩ := mem_entriesOf.mp he'
    rw [h b hb, payTo, List.map_singleton, List.mem_singleton] at he
    rw [h b' hb', payTo, List.map_singleton, List.mem_singleton] at he'
    rw [he, he']
  headers b hb b' hb' _ := by rw [h b hb, h b' hb']

theorem mem_blocksIn_twoOutputs {k : ℕ} {b : CBlock}
    (hb : b ∈ blocksIn (List.replicate k twoOutputs.content)) : b = payTo [[0x51], [0x51]] := by
  obtain ⟨content, hcontent, hb⟩ := List.mem_flatMap.mp hb
  rw [List.eq_of_mem_replicate hcontent, blocksOf_content] at hb
  exact List.mem_singleton.mp hb

/-- Two workers with a file each go through both phases, the first with a resize. -/
def resizeThrough : List PoolAction :=
  resizeFirst ++ [.take 0, .take 1, .pass 1, .pass 0] ++ List.replicate 11 (.call 1 false) ++
    List.replicate 11 (.call 0 false) ++ [.pass 0, .pass 1, .take 1, .take 0, .join]

/-- One worker goes through both phases, and finds the outputs of its block stored. -/
def throughAgain : List PoolAction :=
  [.take 0, .pass 0] ++ List.replicate 13 (.call 0 false) ++ [.pass 0, .take 0, .join] ++
    [.take 0, .pass 0] ++ List.replicate 11 (.call 0 false) ++ [.pass 0, .take 0, .join]

theorem completes_resizeThrough : ∃ s, Completes (fun _ => .zero)
    [twoOutputs.content, twoOutputs.content] 1 .none Store.DEFAULT_MAPSIZE resizeThrough s :=
  Completes.of_run (by decide +kernel) (by decide +kernel) (by decide +kernel)

/-- The workers of that run leave what one worker alone leaves. -/
theorem concurrent_eq_sequential_twoOutputs : ∃ (s : Pool) (m : ℕ) (s' : Store),
    s.returned = true ∧ (∀ rounds, m ≤ rounds → preLoadBlocks (fun _ => .zero) 1 rounds
      [twoOutputs.entry, twoOutputs.entry] .fresh = some s') ∧
    s'.tables.opened = s.store.tables.opened := by
  obtain ⟨s, h⟩ := completes_resizeThrough
  have hfiles : blockFiles [twoOutputs.entry, twoOutputs.entry] =
      [twoOutputs.content, twoOutputs.content] := blockFiles_entries [twoOutputs, twoOutputs]
  have hc : Collisionless (fun _ => .zero)
      (blocksIn (blockFiles [twoOutputs.entry, twoOutputs.entry])) := by
    rw [hfiles]
    exact collisionless_twoOutputs fun b hb => mem_blocksIn_twoOutputs (k := 2) hb
  rw [← hfiles] at h
  have h₀ : Fresh .fresh := ⟨rfl, rfl⟩
  obtain ⟨m, s', hm, hs'⟩ := concurrent_eq_sequential 0 h₀ hc h
  exact ⟨s, m, s', h.returned, hm, hs'⟩

/-- The tables after the first phase of that run. -/
def stoppedTables : Tables :=
  ((resizeFirst.foldlM (fun s a => step (fun _ => .zero) [twoOutputs.content, twoOutputs.content] a
    s) (start 2 .none Store.DEFAULT_MAPSIZE)).map fun s => s.store.tables).getD .none

theorem stopped_stoppedTables :
    Stopped (fun _ => .zero) (blocksIn [twoOutputs.content]) .none stoppedTables := by
  have hsome : (resizeFirst.foldlM (fun s a => step (fun _ => .zero)
      [twoOutputs.content, twoOutputs.content] a s)
      (start 2 .none Store.DEFAULT_MAPSIZE)).isSome = true := by decide +kernel
  obtain ⟨s, hs⟩ := Option.isSome_iff_exists.mp hsome
  refine ⟨_, 2, Store.DEFAULT_MAPSIZE, resizeFirst, s, ?_, runs_iff_foldlM.mpr hs, ?_⟩
  · intro b hb
    simpa [blocksIn] using hb
  · rw [stoppedTables, hs]
    rfl

/-- Two workers are stopped after the first phase, and one worker is run to its end on one of the
files. -/
theorem recovered_twoOutputs : ∃ s s' : Pool, s.returned = true ∧ s'.returned = true ∧
    s.store.tables.opened = s'.store.tables.opened := by
  obtain ⟨s, h⟩ : ∃ s, Completes (fun _ => .zero) [twoOutputs.content] 0 stoppedTables
      Store.DEFAULT_MAPSIZE throughAgain s :=
    Completes.of_run (by decide +kernel) (by decide +kernel) (by decide +kernel)
  obtain ⟨s', h'⟩ := completes_resizeThrough
  have hc : Collisionless (fun _ => .zero) (blocksIn [twoOutputs.content]) :=
    collisionless_twoOutputs fun b hb => mem_blocksIn_twoOutputs (k := 1) hb
  refine ⟨s, s', h.returned, h'.returned, ?_⟩
  exact recovered rfl hc (.single stopped_stoppedTables) h (by simp [blocksIn]) h'

end Pool

end ElectrumZ.Blockchain
