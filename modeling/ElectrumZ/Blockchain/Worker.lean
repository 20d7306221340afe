import ElectrumZ.Blockchain.Passes
import ElectrumZ.Blockchain.TXODB

/-!
# A worker in any environment

`preload_func` of `PreLoadBlocks`, its calls answered by any handler: an LMDB that never fails, or
one that returns what codes it likes, runs out of space, or does not commit.

* `preloadFunc_found`: over any files, with enough rounds, a worker does what indexing the blocks
  found in them does (`loadBlocks`); `preloadFunc_eq`: well-formed files hold all their blocks.
* `preloadFunc_invariant`: what the attempts at blocks preserve holds when the worker ends.
-/

namespace ElectrumZ.Blockchain

open Foundations Bitcoin

variable {σ : Type} (env : Dialog.Handler Call (fun _ => Reply) Stop σ) (sha256 : Bytes → UInt256)

/-- One round of the loop at `try_block_again`. -/
def tryBlock (mode : ℕ) (blk : CBlock) (s : σ) : σ ⊕ Except (Stop × σ) σ :=
  match (indexBlock sha256 mode blk).run env s with
  | (.ok (), s) => .inr (.ok s)
  | (.error .again, s) => .inl s
  | (.error stop, s) => .inr (.error (stop, s))

/-- Index a block. When the retries are used up the worker is still at `try_block_again`. -/
def loadBlock (retries mode : ℕ) (blk : CBlock) (s : σ) : Except (Stop × σ) σ :=
  (loop (tryBlock env sha256 mode blk) retries s).getD (.error (.again, s))

/-- The loop over one file. -/
def preloadFile (retries rounds mode : ℕ) (content : Bytes) (s : σ) :
    Option (Except (Stop × σ) σ) :=
  loop (scanLoop (loadBlock env sha256 retries mode)) rounds (openBlockFile content, s)

/-- `preload_func`: one file after another, until the worker gives up. -/
def preloadFunc (retries rounds mode : ℕ) : List Bytes → σ → Option (Except (Stop × σ) σ)
  | [], s => some (.ok s)
  | content :: blks, s =>
    match preloadFile env sha256 retries rounds mode content s with
    | some (.ok s) => preloadFunc retries rounds mode blks s
    | r => r

variable {env sha256} {I : σ → Prop} {J : Stop × σ → Prop} {s : σ}

theorem tryBlock_ok {mode : ℕ} {blk : CBlock} {s' : σ}
    (h : (indexBlock sha256 mode blk).run env s = (.ok (), s')) :
    tryBlock env sha256 mode blk s = .inr (.ok s') := by
  rw [tryBlock, h]

theorem tryBlock_again {mode : ℕ} {blk : CBlock} {s' : σ}
    (h : (indexBlock sha256 mode blk).run env s = (.error .again, s')) :
    tryBlock env sha256 mode blk s = .inl s' := by
  rw [tryBlock, h]

theorem tryBlock_error {mode : ℕ} {blk : CBlock} {stop : Stop} {s' : σ} (hstop : stop ≠ .again)
    (h : (indexBlock sha256 mode blk).run env s = (.error stop, s')) :
    tryBlock env sha256 mode blk s = .inr (.error (stop, s')) := by
  rw [tryBlock, h]
  cases stop <;> first | rfl | exact absurd rfl hstop

/-- How an attempt leaves the state: with `I` where the worker goes on, and with `J` where it gives
up. -/
def Attempted (I : σ → Prop) (J : Stop × σ → Prop) : Except Stop Unit × σ → Prop
  | (.ok (), s) => I s
  | (.error .again, s) => I s
  | (.error stop, s) => J (stop, s)

/-- What holds of the state however the attempt ends. -/
theorem attempted_of {r : Except Stop Unit × σ} (h : I r.2) :
    Attempted I (fun p => I p.2) r := by
  obtain ⟨stop | ⟨⟩, s⟩ := r
  · cases stop <;> exact h
  · exact h

/-- What the worker is left with when it ends: `I` if it is through, `J` if it gave up. -/
def Ends (I : σ → Prop) (J : Stop × σ → Prop) : Except (Stop × σ) σ → Prop
  | .ok s => I s
  | .error e => J e

theorem loadBlock_invariant {retries mode : ℕ} {blk : CBlock} (hagain : ∀ s, I s → J (.again, s))
    (hattempt : ∀ s, I s → Attempted I J ((indexBlock sha256 mode blk).run env s)) (hs : I s) :
    Ends I J (loadBlock env sha256 retries mode blk s) := by
  have hround (s : σ) (hs : I s) : match tryBlock env sha256 mode blk s with
      | .inl s' => I s'
      | .inr r => Ends I J r := by
    have h := hattempt s hs
    rw [tryBlock]
    rcases hrun : (indexBlock sha256 mode blk).run env s with ⟨e | ⟨⟩, s'⟩ <;> rw [hrun] at h
    · cases e <;> exact h
    · exact h
  rw [loadBlock]
  cases hloop : loop (tryBlock env sha256 mode blk) retries s with
  | none => exact hagain s hs
  | some r =>
    refine loop_invariant (I := I) (fun s s' hs h => ?_) (fun s r hs h => ?_) hloop hs
    · have hs' := hround s hs
      rwa [h] at hs'
    · have hr := hround s hs
      rwa [h] at hr

/-! ## The blocks of the files -/

/-- Indexing blocks one after another, until a block is given up. -/
def loadBlocks (env : Dialog.Handler Call (fun _ => Reply) Stop σ) (sha256 : Bytes → UInt256)
    (retries mode : ℕ) (blks : List CBlock) (s : σ) : Except (Stop × σ) σ :=
  blks.foldlM (fun s blk => loadBlock env sha256 retries mode blk s) s

theorem loadBlocks_append (retries mode : ℕ) (blks blks' : List CBlock) (s : σ) :
    loadBlocks env sha256 retries mode (blks ++ blks') s =
      loadBlocks env sha256 retries mode blks s >>= loadBlocks env sha256 retries mode blks' := by
  rw [loadBlocks, List.foldlM_append]
  rfl

variable (env sha256) in
/-- **Whatever the files hold, a worker indexes the blocks found in them**, in order, if it has
enough rounds. -/
theorem preloadFunc_found (retries mode : ℕ) (files : List Bytes) (s : σ) :
    ∃ n, ∀ rounds, n ≤ rounds → preloadFunc env sha256 retries rounds mode files s =
      some (loadBlocks env sha256 retries mode (blocksIn files) s) := by
  induction files generalizing s with
  | nil => exact ⟨0, fun _ _ => rfl⟩
  | cons content files ih =>
    have hexits : Exits (scanLoop (loadBlock env sha256 retries mode)) (openBlockFile content, s)
        (loadBlocks env sha256 retries mode (blocksOf content) s) := exits_blocksOf _ content s
    obtain ⟨n, hn⟩ := hexits.eventually
    have hfile : ∀ rounds, n ≤ rounds → preloadFile env sha256 retries rounds mode content s =
        some (loadBlocks env sha256 retries mode (blocksOf content) s) := hn
    rw [blocksIn, List.flatMap_cons, loadBlocks_append]
    cases hr : loadBlocks env sha256 retries mode (blocksOf content) s with
    | error e =>
      refine ⟨n, fun rounds hle => ?_⟩
      rw [preloadFunc, hfile rounds hle, hr]
      rfl
    | ok s' =>
      obtain ⟨n', hn'⟩ := ih s'
      refine ⟨max n n', fun rounds hle => ?_⟩
      rw [preloadFunc, hfile rounds (by omega), hr]
      exact hn' rounds (by omega)

/-- More rounds change nothing for a worker that has ended. -/
theorem preloadFunc_mono {retries mode m n : ℕ} {files : List Bytes} {r : Except (Stop × σ) σ}
    (hmn : m ≤ n) (h : preloadFunc env sha256 retries m mode files s = some r) :
    preloadFunc env sha256 retries n mode files s = some r := by
  induction files generalizing s with
  | nil => exact h
  | cons content files ih =>
    rw [preloadFunc] at h ⊢
    cases hfile : preloadFile env sha256 retries m mode content s with
    | none =>
      rw [hfile] at h
      cases h
    | some r' =>
      have hfile' : preloadFile env sha256 retries n mode content s = some r' :=
        loop_mono hmn hfile
      rw [hfile] at h
      rw [hfile']
      cases r' with
      | error e => exact h
      | ok s' => exact ih h

/-- A worker that ends has indexed the blocks found in the files. -/
theorem preloadFunc_reads {retries rounds mode : ℕ} {files : List Bytes} {r : Except (Stop × σ) σ}
    (h : preloadFunc env sha256 retries rounds mode files s = some r) :
    r = loadBlocks env sha256 retries mode (blocksIn files) s := by
  obtain ⟨n, hn⟩ := preloadFunc_found env sha256 retries mode files s
  have hmax := preloadFunc_mono (Nat.le_max_left rounds n) h
  exact Option.some.inj (hmax.symm.trans (hn _ (Nat.le_max_right rounds n)))

/-- What the attempts preserve holds at the end of a run over blocks. -/
theorem loadBlocks_invariant {retries mode : ℕ} (hagain : ∀ s, I s → J (.again, s))
    (hattempt : ∀ blk s, I s → Attempted I J ((indexBlock sha256 mode blk).run env s))
    (blks : List CBlock) (hs : I s) : Ends I J (loadBlocks env sha256 retries mode blks s) := by
  induction blks generalizing s with
  | nil => exact hs
  | cons blk blks ih =>
    have hblock : Ends I J (loadBlock env sha256 retries mode blk s) :=
      loadBlock_invariant hagain (hattempt blk) hs
    rw [loadBlocks, List.foldlM_cons]
    cases hload : loadBlock env sha256 retries mode blk s with
    | error e =>
      rw [hload] at hblock
      exact hblock
    | ok s' =>
      rw [hload] at hblock
      exact ih hblock

/-- **What the attempts preserve holds at the end of the worker.** -/
theorem preloadFunc_invariant {retries rounds mode : ℕ} (hagain : ∀ s, I s → J (.again, s))
    (hattempt : ∀ blk s, I s → Attempted I J ((indexBlock sha256 mode blk).run env s))
    {blks : List Bytes} {r : Except (Stop × σ) σ}
    (h : preloadFunc env sha256 retries rounds mode blks s = some r) (hs : I s) : Ends I J r := by
  rw [preloadFunc_reads h]
  exact loadBlocks_invariant hagain hattempt (blocksIn blks) hs

/-! ## Well-formed files -/

/-- A block file: well-formed items and zero bytes. -/
structure BlockFile where
  suffix : Bytes
  items : List Item
  padding : ℕ
  framed : Framed items

namespace BlockFile

/-- The bytes of the file. -/
def content (f : BlockFile) : Bytes := fileBytes f.items f.padding

end BlockFile

/-- The blocks of the files, in order. -/
def allBlocks (files : List BlockFile) : List CBlock := files.flatMap fun f => blocks f.items

/-- A file with one block, whose coinbase has two outputs to the same script. -/
def twoOutputs : BlockFile := ⟨[], [.full (payTo [[0x51], [0x51]])], 0, payTo_framed .nil⟩

theorem blocksOf_content (f : BlockFile) : blocksOf f.content = blocks f.items :=
  blocksOf_fileBytes f.framed f.padding

theorem blocksIn_content (files : List BlockFile) :
    blocksIn (files.map BlockFile.content) = allBlocks files := by
  simp only [blocksIn, allBlocks, List.flatMap_map, blocksOf_content]

variable (env sha256) in
/-- **A worker over well-formed files indexes all their blocks, in order.** -/
theorem preloadFunc_eq (retries mode : ℕ) (files : List BlockFile) (s : σ) :
    ∃ n, ∀ rounds, n ≤ rounds →
      preloadFunc env sha256 retries rounds mode (files.map BlockFile.content) s =
        some (loadBlocks env sha256 retries mode (allBlocks files) s) := by
  rw [← blocksIn_content]
  exact preloadFunc_found env sha256 retries mode _ s

end ElectrumZ.Blockchain
