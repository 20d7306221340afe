import ElectrumZ.Bitcoin.Sha256
import ElectrumZ.Blockchain.Consistency

/-!
# What the preload of a new database keeps

`main` asks for the statistics of the three tables before it preloads, and the query creates the
tables it does not find, without sorted duplicates. The preload then finds them as they are: every
put replaces the value of its key.

* `addBlocks_plain`: on such tables the preload keeps the last outpoint put under each script hash
  and the last record put under each transaction.
* `main_loads`: this is what `main` commits for any directory.
* `complete_iff`: so the index has all the outputs if and only if no script hash was paid twice
  and no transaction has two outputs.
-/

namespace ElectrumZ.Blockchain

open Foundations Bitcoin

variable (sha256 : Bytes → UInt256)

/-! ## Outputs -/

/-- An output of a loaded transaction: `n` is its index. -/
structure Output where
  txid : UInt256
  n : ℕ
  out : CTxOut

namespace Output

/-- The hash that clients look the output up by. -/
def scriptHash (x : Output) : UInt256 := SHash sha256 x.out.scriptPubKey

/-- What is put into `addr` for the output. -/
def addrPair (x : Output) : Bytes × Bytes := (addrKey sha256 x.out, addrVal x.txid x.n)

/-- What is put into `txo` for the output. -/
def txoPair (x : Output) : Bytes × Bytes :=
  (x.txid.serialize, txoVal sha256 x.txid x.n x.out)

end Output

/-- The outputs of a transaction, counted from `n`. -/
def outputsFrom (txid : UInt256) : ℕ → List CTxOut → List Output
  | _, [] => []
  | n, o :: vout => ⟨txid, n, o⟩ :: outputsFrom txid (n + 1) vout

/-- The outputs of the blocks, in the order they are indexed. -/
def outputsOf (blks : List CBlock) : List Output :=
  (blks.flatMap CBlock.vtx).flatMap fun tx => outputsFrom (tx.getHash sha256) 0 tx.vout

/-- The index has all outputs of the blocks and nothing else: `addr` has under every script hash
the outpoints paid to it, and `txo` under every transaction the records of its outputs. -/
structure Complete (blks : List CBlock) (v : View) : Prop where
  addr_iff : ∀ sh val, val ∈ v.addr.vals sh ↔
    ∃ x ∈ outputsOf sha256 blks, (x.scriptHash sha256).serialize = sh ∧
      val = (COutPoint.mk x.txid (UInt32.ofNat x.n)).serialize
  txo_iff : ∀ txid val, val ∈ v.txo.vals txid ↔
    ∃ x ∈ outputsOf sha256 blks, x.txid.serialize = txid ∧
      val = (TXO.ofOutput (x.scriptHash sha256) x.txid (UInt32.ofNat x.n) x.out.nValue).serialize

/-- No script hash is paid by two outputs, and no transaction has two. -/
def OnePerKey (blks : List CBlock) : Prop :=
  ∀ x ∈ outputsOf sha256 blks, ∀ y ∈ outputsOf sha256 blks,
    (x.scriptHash sha256 = y.scriptHash sha256 → x.txid = y.txid ∧ x.n = y.n) ∧
    (x.txid = y.txid → x.n = y.n ∧ x.out.nValue = y.out.nValue)

variable {sha256}

theorem n_lt_of_mem_outputsFrom {txid : UInt256} {n : ℕ} {vout : List CTxOut} {x : Output}
    (h : x ∈ outputsFrom txid n vout) : x.n < n + vout.length := by
  induction vout generalizing n with
  | nil => exact absurd h List.not_mem_nil
  | cons o vout ih =>
    rw [outputsFrom, List.mem_cons] at h
    rw [List.length_cons]
    obtain rfl | h := h
    · simp only
      omega
    · have := ih h
      omega

theorem n_lt_of_mem_outputsOf {blks : List CBlock} (hvalid : ∀ b ∈ blks, b.Valid) {x : Output}
    (h : x ∈ outputsOf sha256 blks) : x.n < 2 ^ 32 := by
  obtain ⟨tx, htx, hx⟩ := List.mem_flatMap.mp h
  obtain ⟨b, hb, htx⟩ := List.mem_flatMap.mp htx
  have hlen := ((hvalid b hb).tx tx htx).vout_length
  have hn := n_lt_of_mem_outputsFrom hx
  simp only [MAX_SIZE] at hlen
  omega

/-- Records are the same when their indices and values are. -/
theorem txoVal_inj {t t' : UInt256} {m n : ℕ} {o o' : CTxOut} (hm : m < 2 ^ 32) (hn : n < 2 ^ 32)
    (h : txoVal sha256 t m o = txoVal sha256 t' n o') : m = n ∧ o.nValue = o'.nValue := by
  obtain ⟨hidx, hrest⟩ := List.append_inj h (by simp)
  obtain ⟨hval, -⟩ := List.append_inj hrest (by simp [serializeInt64])
  have hread := reads_unserializeInt64 (le_refl maxPiece) o.nValue
  rw [show serializeInt64 o.nValue = serializeInt64 o'.nValue from hval] at hread
  refine ⟨ofNat_inj hm hn ?_, hread.unique (reads_unserializeInt64 (le_refl maxPiece) o'.nValue)⟩
  have hread' := reads_serReaddata32 (le_refl maxPiece) (UInt32.ofNat m)
  rw [show serWritedata32 (UInt32.ofNat m) = serWritedata32 (UInt32.ofNat n) from hidx] at hread'
  exact hread'.unique (reads_serReaddata32 (le_refl maxPiece) (UInt32.ofNat n))

/-! ## Plain tables -/

/-- The tables of `v` after the outputs have been put into them. -/
def View.putOutputs (sha256 : Bytes → UInt256) (v : View) (l : List Output) : View :=
  { v with
    addr := v.addr.setAll (l.map (Output.addrPair sha256))
    txo := v.txo.setAll (l.map (Output.txoPair sha256)) }

theorem putOutputs_append (v : View) (l l' : List Output) :
    v.putOutputs sha256 (l ++ l') = (v.putOutputs sha256 l).putOutputs sha256 l' := by
  simp only [View.putOutputs, List.map_append, Foundations.Table.setAll_append]

/-- `addr` and `txo` have no sorted duplicates. -/
structure Plain (v : View) : Prop where
  txo : v.txo.dupsort = false
  addr : v.addr.dupsort = false
  blk : v.blk.dupsort = false

variable {v : View}

theorem Plain.putOutputs (h : Plain v) (l : List Output) : Plain (v.putOutputs sha256 l) where
  txo := by rw [View.putOutputs, Foundations.Table.setAll_dupsort, h.txo]
  addr := by rw [View.putOutputs, Foundations.Table.setAll_dupsort, h.addr]
  blk := h.blk

theorem addOutputs_plain (h : Plain v) (txid : UInt256) (n : ℕ) (vout : List CTxOut) :
    addOutputs sha256 txid n vout v = some (v.putOutputs sha256 (outputsFrom txid n vout)) := by
  induction vout generalizing n v with
  | nil => rfl
  | cons o vout ih =>
    have hadd : addOutput sha256 txid n o v = some (v.putOutputs sha256 [⟨txid, n, o⟩]) := by
      rw [addOutput, Foundations.Table.put_plain h.addr]
      simp only [Foundations.Table.append_plain h.txo, Option.map_some]
      rfl
    rw [addOutputs, hadd, Option.bind_some, ih (h.putOutputs _), ← putOutputs_append]
    rfl

theorem addTxs_plain (h : Plain v) (vtx : List CTransaction) :
    vtx.foldlM (addTx sha256 0) v = some (v.putOutputs sha256
      (vtx.flatMap fun tx => outputsFrom (tx.getHash sha256) 0 tx.vout)) := by
  induction vtx generalizing v with
  | nil => rfl
  | cons tx vtx ih =>
    have hadd : addTx sha256 0 v tx =
        some (v.putOutputs sha256 (outputsFrom (tx.getHash sha256) 0 tx.vout)) := by
      rw [addTx, if_neg (by decide), addOutputs_plain h]
    rw [List.foldlM_cons, hadd, List.flatMap_cons, putOutputs_append]
    exact ih (h.putOutputs _)

/-- **On plain tables every output is put over the last one under its key.** -/
theorem addBlocks_plain (h : Plain v) (blks : List CBlock) :
    blks.foldlM (addBlock sha256 0) v = some { v.putOutputs sha256 (outputsOf sha256 blks) with
      blk := v.blk.setAll (blks.map (headerPair sha256)) } := by
  induction blks generalizing v with
  | nil => rfl
  | cons b blks ih =>
    set blk := v.blk.set (headerPair sha256 b).1 [(headerPair sha256 b).2] with hblk
    have hplain : Plain { v with blk } := ⟨h.txo, h.addr, h.blk⟩
    have hadd : addBlock sha256 0 v b = some (({ v with blk } : View).putOutputs sha256
        (b.vtx.flatMap fun tx => outputsFrom (tx.getHash sha256) 0 tx.vout)) := by
      rw [addBlock, Foundations.Table.put_plain h.blk]
      exact addTxs_plain hplain b.vtx
    have houts : outputsOf sha256 (b :: blks) =
        (b.vtx.flatMap fun tx => outputsFrom (tx.getHash sha256) 0 tx.vout) ++
          outputsOf sha256 blks := by
      rw [outputsOf, List.flatMap_cons, List.flatMap_append]
      rfl
    rw [List.foldlM_cons, hadd, houts, putOutputs_append]
    exact ih (hplain.putOutputs _)

/-! ## The preload of a new database -/

/-- The tables the statistics queries create. -/
def plainView : View :=
  ⟨{ Foundations.Table.empty false memcmp with dcmp := txoCmp }, .empty false memcmp,
    .empty false memcmp⟩

theorem plain_plainView : Plain plainView := ⟨rfl, rfl, rfl⟩

/-- The tables after the blocks have been loaded into a new database. -/
def loadedView (sha256 : Bytes → UInt256) (blks : List CBlock) : View :=
  { plainView.putOutputs sha256 (outputsOf sha256 blks) with
    blk := plainView.blk.setAll (blks.map (headerPair sha256)) }

/-- **What `main` commits** for a new database and any directory. -/
theorem main_loads (sha256 : Bytes → UInt256) (dir : List DirEntry) (retries : ℕ) :
    ∃ n s, (∀ rounds, n ≤ rounds → main sha256 (retries + 1) rounds dir .fresh = some s) ∧
      s.tables.opened = loadedView sha256 (blocksIn (blockFiles dir)) := by
  obtain ⟨s₀, hstart, hs₀, htables₀⟩ := run_startup
  have hopened₀ : s₀.tables.opened = plainView := by rw [htables₀]; rfl
  have hfirst := @addBlocks_plain sha256 _ plain_plainView (blocksIn (blockFiles dir))
  rw [← hopened₀] at hfirst
  -- the second pass puts the headers again
  obtain ⟨n, s, hrun, hopened⟩ := preLoadBlocks_of_addBlocks retries hs₀ hfirst (addBlocks_second
    (by rw [hopened₀, Foundations.Table.setAll_dupsort]; rfl))
  refine ⟨n, s, fun rounds hle => ?_, ?_⟩
  · rw [main, hstart]
    exact hrun rounds hle
  · rw [hopened]
    simp only [Foundations.Table.setAll_setAll, hopened₀]
    rfl

/-- **The index of a new database is complete exactly when no key repeats.** -/
theorem complete_iff {blks : List CBlock} (hvalid : ∀ b ∈ blks, b.Valid) :
    Complete sha256 blks (loadedView sha256 blks) ↔ OnePerKey sha256 blks := by
  have hnil : ∀ k : Bytes, plainView.addr.vals k = [] ∧ plainView.txo.vals k = [] :=
    fun _ => ⟨rfl, rfl⟩
  -- each table keeps its pairs if and only if they make a function
  have haddr := Foundations.Table.setAll_mem_iff (fun k => (hnil k).1)
    ((outputsOf sha256 blks).map (Output.addrPair sha256))
  have htxo := Foundations.Table.setAll_mem_iff (fun k => (hnil k).2)
    ((outputsOf sha256 blks).map (Output.txoPair sha256))
  have hmem : ∀ (f : Output → Bytes × Bytes) (k w : Bytes),
      (k, w) ∈ (outputsOf sha256 blks).map f ↔
        ∃ x ∈ outputsOf sha256 blks, (f x).1 = k ∧ w = (f x).2 := by
    intro f k w
    rw [List.mem_map]
    constructor
    · rintro ⟨x, hx, hf⟩
      exact ⟨x, hx, by rw [hf], by rw [hf]⟩
    · rintro ⟨x, hx, rfl, rfl⟩
      exact ⟨x, hx, rfl⟩
  simp only [List.forall_mem_map] at haddr htxo
  simp only [hmem] at haddr htxo
  constructor
  · rintro ⟨h₁, h₂⟩ x hx y hy
    have hxn := n_lt_of_mem_outputsOf hvalid hx
    have hyn := n_lt_of_mem_outputsOf hvalid hy
    refine ⟨fun hsh => ?_, fun htxid => ?_⟩
    · have := haddr.mp h₁ x hx y hy (congrArg UInt256.serialize hsh)
      obtain ⟨htxid, hn⟩ := addrVal_inj this
      exact ⟨htxid, ofNat_inj hxn hyn hn⟩
    · exact txoVal_inj hxn hyn (htxo.mp h₂ x hx y hy (congrArg UInt256.serialize htxid))
  · intro h
    refine ⟨haddr.mpr ?_, htxo.mpr ?_⟩
    · intro x hx y hy hsh
      obtain ⟨htxid, hn⟩ := (h x hx y hy).1 (UInt256_serialize_inj hsh)
      simp only [Output.addrPair, htxid, hn]
    · intro x hx y hy htxid
      have htxid := UInt256_serialize_inj htxid
      obtain ⟨hn, hval⟩ := (h x hx y hy).2 htxid
      simp only [Output.txoPair, txoVal, TXO.serialize, TXO.ofOutput, hn, hval]

theorem allBlocks_valid (files : List BlockFile) : ∀ b ∈ allBlocks files, b.Valid := by
  intro b hb
  obtain ⟨f, -, hb⟩ := List.mem_flatMap.mp hb
  exact blocks_valid f.framed b hb

/-- **Index completeness after a preload.** `main`, run on any block files in a new environment,
commits an index of all their outputs if and only if no script hash is paid by two outputs and no
transaction has two outputs. -/
theorem main_complete_iff (sha256 : Bytes → UInt256) (files : List BlockFile) (retries : ℕ) :
    ∃ n s, (∀ rounds, n ≤ rounds → main sha256 (retries + 1) rounds
        (files.map BlockFile.entry) .fresh = some s) ∧
      (Complete sha256 (allBlocks files) s.tables.opened ↔
        OnePerKey sha256 (allBlocks files)) := by
  obtain ⟨n, s, hrun, hopened⟩ := main_loads sha256 (files.map BlockFile.entry) retries
  rw [blockFiles_entries, blocksIn_content] at hopened
  exact ⟨n, s, hrun, by rw [hopened, complete_iff (allBlocks_valid files)]⟩

/-- The first of the two outputs is missing from the index. -/
theorem main_not_complete : ∃ n s, (∀ rounds, n ≤ rounds →
      main Sha256.digest 1 rounds [twoOutputs.entry] .fresh = some s) ∧
    ¬ Complete Sha256.digest [payTo [[0x51], [0x51]]] s.tables.opened := by
  obtain ⟨n, s, hrun, hopened⟩ := main_loads Sha256.digest ([twoOutputs].map BlockFile.entry) 0
  rw [blockFiles_entries, blocksIn_content] at hopened
  refine ⟨n, s, hrun, ?_⟩
  have hvalid : ∀ b ∈ [payTo [[0x51], [0x51]]], b.Valid := allBlocks_valid [twoOutputs]
  rw [hopened, show allBlocks [twoOutputs] = [payTo [[0x51], [0x51]]] from rfl,
    complete_iff hvalid]
  intro h
  have h01 := (h ⟨_, 0, ⟨50, [0x51]⟩⟩ (List.mem_cons_self) ⟨_, 1, ⟨50, [0x51]⟩⟩
    (List.mem_cons_of_mem _ List.mem_cons_self)).1 rfl
  exact absurd h01.2 (by decide)

end ElectrumZ.Blockchain
