import ElectrumZ.Blockchain.Damage
import ElectrumZ.Blockchain.Worker
import ElectrumZ.Foundations.Discipline

/-!
# The scan of a file ends

Whatever a block file holds: when no call of LMDB fails a block is indexed at the first attempt
(`loadBlock_obliged`), and then the loop over the file leaves, since every iteration that goes on
comes closer to the end of the file (`preloadFile_terminates`).
-/

namespace ElectrumZ.Blockchain

open Foundations Bitcoin

variable {σ : Type} {env : Dialog.Handler Call (fun _ => Reply) Stop σ} {sha256 : Bytes → UInt256}
  {α β : Type}

/-! ## When no call fails -/

/-- The call is put to `addr`, which may have the pair already. -/
def Call.toAddr : Call → Bool
  | .put .addr _ _ => true
  | _ => false

/-- The call succeeds: it returns 0, or `addr` has the pair. -/
def Succeeds (c : Call) (r : Reply) : Prop :=
  r.code = 0 ∨ c.toAddr = true ∧ r.code = MDB_KEYEXIST

instance (c : Call) (r : Reply) : Decidable (Succeeds c r) :=
  inferInstanceAs (Decidable (r.code = 0 ∨ c.toAddr = true ∧ r.code = MDB_KEYEXIST))

/-- All calls of the attempts at the blocks succeed, one block after another. -/
def Obliges (env : Dialog.Handler Call (fun _ => Reply) Stop σ) (sha256 : Bytes → UInt256)
    (mode : ℕ) : List CBlock → σ → Prop
  | [], _ => True
  | blk :: blks, s => (indexBlock sha256 mode blk).Answered Succeeds env s ∧
    Obliges env sha256 mode blks ((indexBlock sha256 mode blk).run env s).2

/-- The answers that are considered are those of calls that succeed. -/
def granted : Discipline Call (fun _ => Reply) Unit := ⟨fun _ _ => True, Succeeds, fun _ _ _ => ()⟩

/-- If all its calls succeed the program runs to its end. -/
def Completes (p : Prog α) : Prop := p.Obeys granted (fun res _ => ∃ a, res = .ok a) ()

theorem completes_pure (a : α) : Completes (pure a : Prog α) := ⟨a, rfl⟩

theorem Completes.bind {p : Prog α} {f : α → Prog β} (hp : Completes p)
    (hf : ∀ a, Completes (f a)) : Completes (p >>= f) := by
  refine Dialog.Obeys.bind hp (fun a _ _ => hf a) fun e _ herror => ?_
  obtain ⟨a, ha⟩ := herror
  cases ha

/-- A call that may find the pair in `addr`. -/
theorem completes_put {c : Call} {f : ℤ → Prog α} (hf : Completes (f 0))
    (hexist : Completes (f MDB_KEYEXIST)) : Completes (call c >>= f) := by
  refine ⟨trivial, fun r hr => ?_⟩
  change Completes (f r.code)
  obtain hcode | ⟨-, hcode⟩ := hr
  · rwa [hcode]
  · rwa [hcode]

/-- Any other call returns 0. -/
theorem completes_call {c : Call} {f : ℤ → Prog α} (hc : c.toAddr = false)
    (hf : Completes (f 0)) : Completes (call c >>= f) := by
  refine ⟨trivial, fun r hr => ?_⟩
  change Completes (f r.code)
  obtain hcode | ⟨haddr, -⟩ := hr
  · rwa [hcode]
  · exact absurd (hc.symm.trans haddr) Bool.false_ne_true

theorem completes_openTable (dbn : Dbi) (dupsort : Bool) : Completes (openTable dbn dupsort) := by
  refine completes_call rfl ?_
  rw [if_neg (by decide)]
  exact completes_pure ()

theorem completes_beginBlock : Completes beginBlock := by
  refine completes_call rfl ?_
  refine Completes.bind (completes_pure ()) fun _ => ?_
  refine (completes_openTable .txo true).bind fun _ => ?_
  refine (completes_openTable .addr true).bind fun _ => ?_
  refine (completes_openTable .blk false).bind fun _ => ?_
  exact completes_call rfl (completes_pure ())

variable (sha256)

theorem completes_putHeader (header : CBlockHeader) : Completes (putHeader sha256 header) := by
  refine completes_call rfl ?_
  rw [if_neg (by decide)]
  exact completes_pure ()

/-- A pair that `addr` has already is passed over. -/
theorem completes_indexOutput (txHash : UInt256) (n : ℕ) (ntxo : CTxOut) :
    Completes (indexOutput sha256 txHash n ntxo) := by
  refine completes_put ?_ ?_
  · rw [if_neg (by decide)]
    refine completes_call rfl ?_
    rw [if_neg (by decide)]
    exact completes_pure ()
  · rw [if_pos (by decide), if_neg (by decide), if_pos rfl]
    exact completes_pure ()

theorem completes_indexOutputs (txHash : UInt256) (n : ℕ) (vout : List CTxOut) :
    Completes (indexOutputs sha256 txHash n vout) := by
  induction vout generalizing n with
  | nil => exact completes_pure ()
  | cons ntxo vout ih => exact (completes_indexOutput sha256 txHash n ntxo).bind fun _ => ih (n + 1)

theorem completes_indexTxs (mode : ℕ) (vtx : List CTransaction) :
    Completes (indexTxs sha256 mode vtx) := by
  induction vtx with
  | nil => exact completes_pure ()
  | cons tx vtx ih =>
    refine Completes.bind ?_ fun _ => ih
    refine completes_call rfl (Completes.bind ?_ fun _ =>
      completes_call rfl (completes_call rfl (completes_pure ())))
    rw [indexInOut]
    split_ifs
    · rw [spendInputs_eq]
      exact completes_pure ()
    · exact completes_indexOutputs sha256 _ _ _

theorem completes_indexBlock (mode : ℕ) (blk : CBlock) : Completes (indexBlock sha256 mode blk) :=
  completes_beginBlock.bind fun _ => (completes_putHeader sha256 _).bind fun _ =>
    (completes_indexTxs sha256 mode blk.vtx).bind fun _ =>
      completes_call rfl (completes_call rfl (completes_pure ()))

variable {sha256} {s : σ}

/-- So a block is indexed at the first attempt. -/
theorem loadBlock_obliged (retries : ℕ) {mode : ℕ} {blk : CBlock}
    (h : (indexBlock sha256 mode blk).Answered Succeeds env s) :
    loadBlock env sha256 (retries + 1) mode blk s =
      .ok ((indexBlock sha256 mode blk).run env s).2 := by
  obtain ⟨-, ⟨⟩, hok⟩ := Dialog.Obeys.run (completes_indexBlock sha256 mode blk) h
  have hrun : (indexBlock sha256 mode blk).run env s =
      (.ok (), ((indexBlock sha256 mode blk).run env s).2) := Prod.ext hok rfl
  rw [loadBlock, loop_succ_inr (tryBlock_ok hrun)]
  rfl

/-- And all the blocks are indexed. -/
theorem loadBlocks_obliged (retries : ℕ) {mode : ℕ} {blks : List CBlock}
    (h : Obliges env sha256 mode blks s) :
    ∃ s', loadBlocks env sha256 (retries + 1) mode blks s = .ok s' := by
  induction blks generalizing s with
  | nil => exact ⟨s, rfl⟩
  | cons blk blks ih =>
    obtain ⟨hblk, hblks⟩ := h
    obtain ⟨s', hrest⟩ := ih hblks
    refine ⟨s', ?_⟩
    rw [loadBlocks, List.foldlM_cons, loadBlock_obliged retries hblk]
    exact hrest

variable (env sha256) in
/-- **The scan of a block file ends on every content.** With all calls of the run succeeding the
loop over the file leaves; and, whatever the calls return, every iteration that does not leave moves
the read position forward by eight bytes at least, or reaches the end of the file. -/
theorem preloadFile_terminates (retries mode : ℕ) (content : Bytes) (s : σ)
    (h : Obliges env sha256 mode (blocksOf content) s) :
    (∃ s' n, ∀ rounds, n ≤ rounds →
      preloadFile env sha256 (retries + 1) rounds mode content s = some (.ok s')) ∧
    ∀ bf s₁ bf' s₂,
      Rounds (scanLoop (loadBlock env sha256 (retries + 1) mode)) (openBlockFile content, s)
        (bf, s₁) →
      scanLoop (loadBlock env sha256 (retries + 1) mode) (bf, s₁) = .inl (bf', s₂) →
        bf.getPos + 8 ≤ bf'.getPos ∨ bf'.eof = true := by
  refine ⟨?_, fun bf s₁ bf' s₂ hrounds hround => ?_⟩
  · have hexits : Exits (scanLoop (loadBlock env sha256 (retries + 1) mode))
        (openBlockFile content, s)
        (loadBlocks env sha256 (retries + 1) mode (blocksOf content) s) :=
      exits_blocksOf _ content s
    obtain ⟨s', hload⟩ := loadBlocks_obliged retries h
    rw [hload] at hexits
    obtain ⟨n, hn⟩ := hexits.eventually
    exact ⟨s', n, hn⟩
  · exact (scanLoop_progress (rounds_inFile (inFile_open content) hrounds) hround).2

/-- A header of something else, a block twice, and three zero bytes. -/
def garbageFile : Bytes :=
  ascii "some" ++ (ascii "junk" ++
    fileBytes [.full (payTo [[0x51], [0x51]]), .full (payTo [[0x51], [0x51]])] 3)

/-- LMDB indexes the block, and finds its outputs the second time. -/
theorem preloadFile_terminates_garbage : ∃ s' n, ∀ rounds, n ≤ rounds →
    preloadFile lmdb (fun _ => .zero) 1 rounds 0 garbageFile .fresh = some (.ok s') := by
  have hblocks : blocksOf garbageFile = [payTo [[0x51], [0x51]], payTo [[0x51], [0x51]]] := by
    have hskips : Skips garbageFile
        (fileBytes [.full (payTo [[0x51], [0x51]]), .full (payTo [[0x51], [0x51]])] 3) :=
      .noMagic rfl rfl (by decide) (by decide)
    rw [blocksOf, hskips.found_eq]
    exact blocksOf_fileBytes (payTo_framed (payTo_framed .nil)) 3
  refine (preloadFile_terminates lmdb _ 0 0 garbageFile .fresh ?_).1
  rw [hblocks]
  refine ⟨?_, ?_, trivial⟩ <;> decide +kernel

end ElectrumZ.Blockchain
