import ElectrumZ.Bitcoin.Sha256
import ElectrumZ.Blockchain.Preload
import Mathlib.Data.List.Indexes

/-!
# The tables of the index agree

With sorted duplicates, the tables are a function of the transactions that have been indexed:
`Indexed es v` says that `addr` has the outpoints of the entries `es` under their script hashes,
nothing else, and that `txo` has under each transaction the records of all its outputs, in order.

* `addOutput_new`: the next output of a new transaction is taken by both tables. It is new to
  `addr`, so it is new to `txo`, and its index is the largest there.
* `addOutputs_old`: the outputs of an indexed transaction are skipped, one by one.
* `addBlocks_indexed`: hence blocks are indexed whatever repeats among them, and blocks that have
  been indexed change nothing.
* `preload_consistent`: the tables are consistent after every block of a preload, and a second
  preload or the second pass leaves them as they are.
-/

namespace ElectrumZ.Blockchain

open Foundations Bitcoin

variable {sha256 : Bytes → UInt256}

/-! ## Keys and values -/

theorem ofNat_inj {m n : ℕ} (hm : m < 2 ^ 32) (hn : n < 2 ^ 32)
    (h : UInt32.ofNat m = UInt32.ofNat n) : m = n := by
  have := congrArg UInt32.toNat h
  rwa [UInt32.toNat_ofNat_of_lt' hm, UInt32.toNat_ofNat_of_lt' hn] at this

/-- An outpoint is determined by its bytes. -/
theorem COutPoint_serialize_inj {o o' : COutPoint} (h : o.serialize = o'.serialize) : o = o' := by
  have hread := COutPoint.reads_unserialize (le_refl maxPiece) o
  rw [h] at hread
  exact hread.unique (COutPoint.reads_unserialize (le_refl maxPiece) o')

theorem addrVal_inj {t t' : UInt256} {m n : ℕ} (h : addrVal t m = addrVal t' n) :
    t = t' ∧ UInt32.ofNat m = UInt32.ofNat n := by
  have := COutPoint_serialize_inj h
  simpa only [COutPoint.mk.injEq] using this

theorem UInt256_serialize_inj {a b : UInt256} (h : a.serialize = b.serialize) : a = b :=
  UInt256.ext h

/-- The index comes first in a record. -/
theorem ofLeBytes_txoVal (t : UInt256) {n : ℕ} (hn : n < 2 ^ 32) (o : CTxOut) :
    ofLeBytes ((txoVal sha256 t n o).take 4) = n := by
  show ofLeBytes ((leBytes 4 (UInt32.ofNat n).toNat ++
    (serializeInt64 o.nValue ++ COutPoint.null.serialize)).take 4) = n
  rw [UInt32.toNat_ofNat_of_lt' hn]
  exact ofLeBytes_take_leBytes_append hn _

/-- Below `2 ^ 31` the comparator orders records by their index. -/
theorem txoCmp_txoVal {t t' : UInt256} {m n : ℕ} (hm : m < 2 ^ 31) (hn : n < 2 ^ 31)
    (o o' : CTxOut) : txoCmp (txoVal sha256 t m o) (txoVal sha256 t' n o') = (m : ℤ) - n := by
  rw [txoCmp, ofLeBytes_txoVal t (by omega), ofLeBytes_txoVal t' (by omega)]
  exact Int.bmod_eq_of_le_mul_two (by omega) (by omega)

/-! ## What has been indexed -/

/-- A transaction as the index sees it: its hash and its outputs. -/
abbrev Entry := UInt256 × List CTxOut

/-- The entry of a transaction. -/
def entry (sha256 : Bytes → UInt256) (tx : CTransaction) : Entry := (tx.getHash sha256, tx.vout)

/-- The records of an entry, in order. -/
def records (sha256 : Bytes → UInt256) (e : Entry) : List Bytes :=
  e.2.mapIdx fun n o => txoVal sha256 e.1 n o

theorem mem_records {e : Entry} {val : Bytes} :
    val ∈ records sha256 e ↔ ∃ n o, e.2[n]? = some o ∧ val = txoVal sha256 e.1 n o := by
  rw [records, List.mem_mapIdx]
  constructor
  · rintro ⟨n, hn, rfl⟩
    exact ⟨n, e.2[n], List.getElem?_eq_getElem hn, rfl⟩
  · rintro ⟨n, o, ho, rfl⟩
    obtain ⟨hn, rfl⟩ := List.getElem?_eq_some_iff.mp ho
    exact ⟨n, hn, rfl⟩

/-- The tables after the entries `es` have been indexed. -/
structure Indexed (sha256 : Bytes → UInt256) (es : List Entry) (v : View) : Prop where
  txo_dup : v.txo.dupsort = true
  txo_cmp : v.txo.dcmp = txoCmp
  addr_dup : v.addr.dupsort = true
  addr_cmp : v.addr.dcmp = memcmp
  addr_iff : ∀ key val, val ∈ v.addr.vals key ↔
    ∃ e ∈ es, ∃ n o, e.2[n]? = some o ∧ key = addrKey sha256 o ∧ val = addrVal e.1 n
  txo_eq : ∀ e ∈ es, v.txo.vals e.1.serialize = records sha256 e
  txo_nil : ∀ key, (∀ e ∈ es, e.1.serialize ≠ key) → v.txo.vals key = []

variable {es es' : List Entry} {v v' : View} {txid : UInt256} {outs : List CTxOut}

theorem Indexed.congr (h : Indexed sha256 es v) (hes : ∀ e, e ∈ es ↔ e ∈ es') :
    Indexed sha256 es' v where
  txo_dup := h.txo_dup
  txo_cmp := h.txo_cmp
  addr_dup := h.addr_dup
  addr_cmp := h.addr_cmp
  addr_iff := by simpa only [hes] using h.addr_iff
  txo_eq := by simpa only [hes] using h.txo_eq
  txo_nil := by simpa only [hes] using h.txo_nil

/-- A transaction none of whose outputs has been indexed yet. -/
theorem Indexed.start (h : Indexed sha256 es v) (hnew : ∀ e ∈ es, e.1 ≠ txid) :
    Indexed sha256 (es ++ [(txid, [])]) v where
  txo_dup := h.txo_dup
  txo_cmp := h.txo_cmp
  addr_dup := h.addr_dup
  addr_cmp := h.addr_cmp
  addr_iff := by
    intro key val
    rw [h.addr_iff]
    simp
  txo_eq := by
    intro e he
    rw [List.mem_append, List.mem_singleton] at he
    obtain he | rfl := he
    · exact h.txo_eq e he
    · exact h.txo_nil _ fun e he heq => hnew e he (UInt256_serialize_inj heq)
  txo_nil := by
    intro key hkey
    exact h.txo_nil key fun e he => hkey e (List.mem_append_left _ he)

/-! ## New and old outputs -/

theorem getElem?_concat_iff {α : Type} {l : List α} {a b : α} {n : ℕ} :
    (l ++ [a])[n]? = some b ↔ l[n]? = some b ∨ (n = l.length ∧ b = a) := by
  rcases Nat.lt_trichotomy n l.length with h | rfl | h
  · rw [List.getElem?_append_left h]
    simp [Nat.ne_of_lt h]
  · simp [eq_comm]
  · rw [List.getElem?_eq_none (by rw [List.length_append, List.length_singleton]; omega),
      List.getElem?_eq_none (by omega)]
    simp [Nat.ne_of_gt h]

/-- **The next output of a new transaction** goes into both tables. -/
theorem addOutput_new (h : Indexed sha256 (es ++ [(txid, outs)]) v) (hnew : ∀ e ∈ es, e.1 ≠ txid)
    (hlen : outs.length < 2 ^ 31) (o : CTxOut) :
    ∃ v', addOutput sha256 txid outs.length o v = some v' ∧
      Indexed sha256 (es ++ [(txid, outs ++ [o])]) v' ∧ v'.blk = v.blk := by
  -- the outpoint is new to `addr`
  have hfresh : ∀ w ∈ v.addr.vals (addrKey sha256 o),
      v.addr.dcmp (addrVal txid outs.length) w ≠ 0 := by
    intro w hw hcmp
    rw [h.addr_cmp, memcmp_eq_zero] at hcmp
    subst hcmp
    obtain ⟨e, he, n, o', ho', -, hval⟩ := (h.addr_iff _ _).mp hw
    obtain ⟨htxid, hn⟩ := addrVal_inj hval
    rw [List.mem_append, List.mem_singleton] at he
    obtain he | rfl := he
    · exact hnew e he htxid.symm
    · have hlt : n < outs.length := (List.getElem?_eq_some_iff.mp ho').1
      have := ofNat_inj (by omega) (by omega) hn
      omega
  have hput := Foundations.Table.put_fresh h.addr_dup hfresh
  set addr := v.addr.set (addrKey sha256 o) ((v.addr.vals (addrKey sha256 o)).orderedInsert
    (fun a b => v.addr.dcmp a b < 0) (addrVal txid outs.length)) with haddr
  -- its record comes after those of the outputs before it
  have hlast : v.txo.vals txid.serialize = records sha256 (txid, outs) :=
    h.txo_eq (txid, outs) (List.mem_append_right _ List.mem_cons_self)
  have happend : v.txo.append txid.serialize (txoVal sha256 txid outs.length o) = some
      (v.txo.set txid.serialize (records sha256 (txid, outs ++ [o]))) := by
    rw [Foundations.Table.append_last h.txo_dup, hlast]
    · simp [records, List.mapIdx_append]
    · intro w hw
      rw [hlast, mem_records] at hw
      obtain ⟨n, o', ho', rfl⟩ := hw
      have hlt : n < outs.length := (List.getElem?_eq_some_iff.mp ho').1
      rw [h.txo_cmp, txoCmp_txoVal hlen (by omega)]
      omega
  refine ⟨{ v with
    txo := v.txo.set txid.serialize (records sha256 (txid, outs ++ [o])), addr }, ?_, ?_, rfl⟩
  · rw [addOutput, hput]
    simp only [happend, Option.map_some]
  · refine ⟨h.txo_dup, h.txo_cmp, h.addr_dup, h.addr_cmp, ?_, ?_, ?_⟩
    · intro key val
      rw [show val ∈ addr.vals key ↔ _ from Foundations.Table.mem_vals_put h.addr_dup hput,
        h.addr_iff]
      simp only [List.mem_append, List.mem_singleton, or_and_right, exists_or, exists_eq_left,
        getElem?_concat_iff]
      constructor
      · rintro (⟨rfl, rfl⟩ | hold | hold)
        · exact .inr (.inr ⟨outs.length, o, ⟨rfl, rfl⟩, rfl, rfl⟩)
        · exact .inl hold
        · exact .inr (.inl hold)
      · rintro (hold | hold | ⟨n, o', ⟨rfl, rfl⟩, rfl, rfl⟩)
        · exact .inr (.inl hold)
        · exact .inr (.inr hold)
        · exact .inl ⟨rfl, rfl⟩
    · intro e he
      rw [List.mem_append, List.mem_singleton] at he
      obtain he | rfl := he
      · have hne : e.1.serialize ≠ txid.serialize := fun heq =>
          hnew e he (UInt256_serialize_inj heq)
        rw [Foundations.Table.set_vals_of_ne _ _ hne]
        exact h.txo_eq e (List.mem_append_left _ he)
      · exact Foundations.Table.set_vals_self _ _ _
    · intro key hkey
      have hne : key ≠ txid.serialize := fun heq =>
        hkey (txid, outs ++ [o]) (List.mem_append_right _ List.mem_cons_self) heq.symm
      rw [Foundations.Table.set_vals_of_ne _ _ hne]
      refine h.txo_nil key fun e he heq => ?_
      rw [List.mem_append, List.mem_singleton] at he
      obtain he | rfl := he
      · exact hkey e (List.mem_append_left _ he) heq
      · exact hne heq.symm

theorem addOutputs_new {vout : List CTxOut} (h : Indexed sha256 (es ++ [(txid, outs)]) v)
    (hnew : ∀ e ∈ es, e.1 ≠ txid) (hlen : outs.length + vout.length ≤ 2 ^ 31) :
    ∃ v', addOutputs sha256 txid outs.length vout v = some v' ∧
      Indexed sha256 (es ++ [(txid, outs ++ vout)]) v' ∧ v'.blk = v.blk := by
  induction vout generalizing outs v with
  | nil => exact ⟨v, rfl, by rwa [List.append_nil], rfl⟩
  | cons o vout ih =>
    rw [List.length_cons] at hlen
    obtain ⟨v₁, hadd, h₁, hblk₁⟩ := addOutput_new h hnew (by omega) o
    obtain ⟨v', hadds, h', hblk'⟩ := ih h₁
      (by rw [List.length_append, List.length_singleton]; omega)
    rw [List.length_append, List.length_singleton] at hadds
    refine ⟨v', ?_, by rwa [List.append_assoc] at h', by rw [hblk', hblk₁]⟩
    rw [addOutputs, hadd]
    exact hadds

/-- **The outputs of an indexed transaction are skipped.** -/
theorem addOutputs_old (h : Indexed sha256 es v) (he : (txid, outs) ∈ es) {n : ℕ}
    {vout : List CTxOut} (hvout : outs.drop n = vout) :
    addOutputs sha256 txid n vout v = some v := by
  induction vout generalizing n with
  | nil => rfl
  | cons o vout ih =>
    have ho : outs[n]? = some o := by
      rw [← List.head?_drop, hvout, List.head?_cons]
    have hmem : addrVal txid n ∈ v.addr.vals (addrKey sha256 o) :=
      (h.addr_iff _ _).mpr ⟨(txid, outs), he, n, o, ho, rfl, rfl⟩
    have hput : v.addr.put (addrKey sha256 o) (addrVal txid n) = none :=
      Foundations.Table.put_eq_none h.addr_dup hmem (by rw [h.addr_cmp, memcmp_eq_zero])
    have hadd : addOutput sha256 txid n o v = some v := by rw [addOutput, hput]
    rw [addOutputs, hadd]
    refine ih ?_
    rw [← List.drop_drop, hvout, List.drop_one, List.tail_cons]

/-! ## Transactions and blocks -/

/-- A transaction is indexed, and one that has been indexed changes nothing. -/
theorem addTx_indexed {tx : CTransaction} (h : Indexed sha256 es v)
    (hcoll : ∀ e ∈ es, e.1 = tx.getHash sha256 → e.2 = tx.vout)
    (hlen : tx.vout.length ≤ MAX_SIZE) :
    ∃ v', addTx sha256 0 v tx = some v' ∧ Indexed sha256 (es ++ [entry sha256 tx]) v' ∧
      v'.blk = v.blk ∧ (entry sha256 tx ∈ es → v' = v) := by
  rw [addTx, if_neg (by decide)]
  by_cases hmem : entry sha256 tx ∈ es
  · refine ⟨v, addOutputs_old h hmem rfl, h.congr fun e => ?_, rfl, fun _ => rfl⟩
    rw [List.mem_append, List.mem_singleton]
    exact ⟨.inl, fun he => he.elim id fun heq => heq ▸ hmem⟩
  · have hnew : ∀ e ∈ es, e.1 ≠ tx.getHash sha256 := by
      rintro ⟨t, outs⟩ he rfl
      exact hmem (by rw [entry, ← hcoll _ he rfl]; exact he)
    simp only [MAX_SIZE] at hlen
    have hnone : ([] : List CTxOut).length + tx.vout.length ≤ 2 ^ 31 := by
      rw [List.length_nil]
      omega
    obtain ⟨v', hadds, h', hblk⟩ := addOutputs_new (h.start hnew) hnew hnone
    exact ⟨v', hadds, h', hblk, fun hmem' => absurd hmem' hmem⟩

/-- Entries with the same hash have the same outputs. -/
def Functional (es : List Entry) : Prop := ∀ e ∈ es, ∀ e' ∈ es, e.1 = e'.1 → e.2 = e'.2

theorem Functional.sublist (h : Functional es') (hsub : es ⊆ es') : Functional es :=
  fun e he e' he' heq => h e (hsub he) e' (hsub he') heq

theorem addTxs_indexed {vtx : List CTransaction} (h : Indexed sha256 es v)
    (hf : Functional (es ++ vtx.map (entry sha256)))
    (hlen : ∀ tx ∈ vtx, tx.vout.length ≤ MAX_SIZE) :
    ∃ v', vtx.foldlM (addTx sha256 0) v = some v' ∧
      Indexed sha256 (es ++ vtx.map (entry sha256)) v' ∧ v'.blk = v.blk ∧
      (vtx.map (entry sha256) ⊆ es → v' = v) := by
  induction vtx generalizing es v with
  | nil => exact ⟨v, rfl, by rwa [List.map_nil, List.append_nil], rfl, fun _ => rfl⟩
  | cons tx vtx ih =>
    rw [List.forall_mem_cons] at hlen
    have hcoll : ∀ e ∈ es, e.1 = tx.getHash sha256 → e.2 = tx.vout := fun e he heq =>
      hf e (List.mem_append_left _ he) (entry sha256 tx) (by simp) heq
    obtain ⟨v₁, hadd, h₁, hblk₁, hold₁⟩ := addTx_indexed h hcoll hlen.1
    rw [List.map_cons, List.append_cons] at hf ⊢
    obtain ⟨v', hadds, h', hblk', hold'⟩ := ih h₁ hf hlen.2
    refine ⟨v', ?_, h', by rw [hblk', hblk₁], fun hsub => ?_⟩
    · rw [List.foldlM_cons, hadd]
      exact hadds
    · obtain ⟨htx, hrest⟩ := List.cons_subset.mp hsub
      rw [hold' fun e he => List.mem_append_left _ (hrest he), hold₁ htx]

/-- The key and the value `blk` has for a block. -/
def headerPair (sha256 : Bytes → UInt256) (b : CBlock) : Bytes × Bytes :=
  ((b.header.getHash sha256).serialize, b.header.serialize)

/-- The entries of the blocks' transactions. -/
def entriesOf (sha256 : Bytes → UInt256) (blks : List CBlock) : List Entry :=
  (blks.flatMap CBlock.vtx).map (entry sha256)

theorem entriesOf_cons (b : CBlock) (blks : List CBlock) :
    entriesOf sha256 (b :: blks) = b.vtx.map (entry sha256) ++ entriesOf sha256 blks := by
  rw [entriesOf, List.flatMap_cons, List.map_append]
  rfl

theorem Indexed.withBlk (h : Indexed sha256 es v) (blk : Table) :
    Indexed sha256 es { v with blk } :=
  ⟨h.txo_dup, h.txo_cmp, h.addr_dup, h.addr_cmp, h.addr_iff, h.txo_eq, h.txo_nil⟩

/-- **Blocks are indexed**, whatever repeats among them, and blocks whose transactions have been
indexed only store their headers again. -/
theorem addBlocks_indexed {blks : List CBlock} (h : Indexed sha256 es v)
    (hblk : v.blk.dupsort = false) (hf : Functional (es ++ entriesOf sha256 blks))
    (hlen : ∀ b ∈ blks, ∀ tx ∈ b.vtx, tx.vout.length ≤ MAX_SIZE) :
    ∃ v', blks.foldlM (addBlock sha256 0) v = some v' ∧
      Indexed sha256 (es ++ entriesOf sha256 blks) v' ∧
      v'.blk = v.blk.setAll (blks.map (headerPair sha256)) ∧
      (entriesOf sha256 blks ⊆ es → v' = { v with blk := v'.blk }) := by
  induction blks generalizing es v with
  | nil => exact ⟨v, rfl, by rwa [entriesOf, List.flatMap_nil, List.map_nil, List.append_nil], rfl,
      fun _ => rfl⟩
  | cons b blks ih =>
    rw [List.forall_mem_cons] at hlen
    rw [entriesOf_cons, ← List.append_assoc] at hf
    set blk := v.blk.set (headerPair sha256 b).1 [(headerPair sha256 b).2] with hset
    obtain ⟨v₁, htxs, h₁, hblk₁, hold₁⟩ := addTxs_indexed (h.withBlk blk)
      (hf.sublist (List.subset_append_left _ _)) hlen.1
    have hadd : addBlock sha256 0 v b = some v₁ := by
      rw [addBlock, Foundations.Table.put_plain hblk]
      exact htxs
    obtain ⟨v', hrun, h', hblk', hold'⟩ := ih h₁ (by rw [hblk₁]; exact hblk) hf hlen.2
    refine ⟨v', ?_, ?_, ?_, fun hsub => ?_⟩
    · rw [List.foldlM_cons, hadd]
      exact hrun
    · rwa [entriesOf_cons, ← List.append_assoc]
    · rw [hblk', hblk₁, List.map_cons, Foundations.Table.setAll_cons]
    · rw [entriesOf_cons, List.append_subset] at hsub
      rw [hold' fun e he => List.mem_append_left _ (hsub.2 he), hold₁ hsub.1]

/-- The second pass only stores the headers again. -/
theorem addBlocks_second {blks : List CBlock} (hblk : v.blk.dupsort = false) :
    blks.foldlM (addBlock sha256 1) v =
      some { v with blk := v.blk.setAll (blks.map (headerPair sha256)) } := by
  induction blks generalizing v with
  | nil => rfl
  | cons b blks ih =>
    have htxs : ∀ (vtx : List CTransaction) (v : View),
        vtx.foldlM (addTx sha256 1) v = some v := by
      intro vtx v
      induction vtx with
      | nil => rfl
      | cons tx vtx ih =>
        rw [List.foldlM_cons, addTx, if_pos rfl]
        exact ih
    have hadd : addBlock sha256 1 v b =
        some { v with blk := v.blk.set (headerPair sha256 b).1 [(headerPair sha256 b).2] } := by
      rw [addBlock, Foundations.Table.put_plain hblk]
      exact htxs _ _
    rw [List.foldlM_cons, hadd]
    exact ih hblk

/-! ## Consistency -/

/-- `val` is the record, with index `n`, of an output of transaction `t` to script hash `sh`. -/
def RecordOf (sha256 : Bytes → UInt256) (txs : List CTransaction) (sh t : UInt256) (n : UInt32)
    (val : Bytes) : Prop :=
  ∃ tx ∈ txs, ∃ i o, tx.vout[i]? = some o ∧ tx.getHash sha256 = t ∧ UInt32.ofNat i = n ∧
    SHash sha256 o.scriptPubKey = sh ∧ val = txoVal sha256 t i o

/-- The three tables agree with one another and with the transactions `txs`. -/
structure Consistent (sha256 : Bytes → UInt256) (txs : List CTransaction) (v : View) : Prop where
  addr_iff_txo : ∀ sh t n, (COutPoint.mk t n).serialize ∈ v.addr.vals sh.serialize ↔
    ∃ val ∈ v.txo.vals t.serialize, RecordOf sha256 txs sh t n val
  txo_iff : ∀ t val, val ∈ v.txo.vals t.serialize ↔ ∃ sh n, RecordOf sha256 txs sh t n val
  txo_sorted : ∀ t : UInt256, (v.txo.vals t.serialize).Pairwise fun a b => v.txo.dcmp a b < 0
  blk_header : ∀ key val, val ∈ v.blk.vals key →
    val.length = 80 ∧ key = (Hash sha256 val).serialize ∧
      ∃ header : CBlockHeader, val = header.serialize

/-- The records of a transaction are in the order of the comparator. -/
theorem records_sorted (e : Entry) (hlen : e.2.length ≤ MAX_SIZE) :
    (records sha256 e).Pairwise fun a b => txoCmp a b < 0 := by
  simp only [MAX_SIZE] at hlen
  rw [List.pairwise_iff_getElem]
  intro i j hi hj hij
  simp only [records, List.length_mapIdx] at hi hj
  simp only [records, List.getElem_mapIdx]
  rw [txoCmp_txoVal (by omega) (by omega)]
  omega

theorem Indexed.consistent {txs : List CTransaction} {l : List CBlock}
    (h : Indexed sha256 (txs.map (entry sha256)) v)
    (hlen : ∀ tx ∈ txs, tx.vout.length ≤ MAX_SIZE)
    (hblk : v.blk = (Foundations.Table.empty false memcmp).setAll (l.map (headerPair sha256))) :
    Consistent sha256 txs v where
  addr_iff_txo := by
    intro sh t n
    rw [h.addr_iff]
    constructor
    · rintro ⟨e, he, i, o, ho, hkey, hval⟩
      obtain ⟨tx, htx, rfl⟩ := List.mem_map.mp he
      have hop := COutPoint_serialize_inj hval
      simp only [COutPoint.mk.injEq] at hop
      obtain ⟨rfl, rfl⟩ := hop
      refine ⟨txoVal sha256 (tx.getHash sha256) i o, ?_, tx, htx, i, o, ho, rfl, rfl,
        (UInt256_serialize_inj hkey).symm, rfl⟩
      have hvals : v.txo.vals (tx.getHash sha256).serialize = records sha256 (entry sha256 tx) :=
        h.txo_eq _ he
      show _ ∈ v.txo.vals (tx.getHash sha256).serialize
      rw [hvals]
      exact mem_records.mpr ⟨i, o, ho, rfl⟩
    · rintro ⟨val, -, tx, htx, i, o, ho, rfl, rfl, rfl, -⟩
      exact ⟨entry sha256 tx, List.mem_map_of_mem htx, i, o, ho, rfl, rfl⟩
  txo_iff := by
    intro t val
    constructor
    · intro hval
      by_cases hkey : ∀ e ∈ txs.map (entry sha256), e.1.serialize ≠ t.serialize
      · rw [h.txo_nil _ hkey] at hval
        exact absurd hval List.not_mem_nil
      · push Not at hkey
        obtain ⟨e, he, heq⟩ := hkey
        obtain ⟨tx, htx, rfl⟩ := List.mem_map.mp he
        obtain rfl := UInt256_serialize_inj heq
        rw [h.txo_eq _ he, mem_records] at hval
        obtain ⟨i, o, ho, rfl⟩ := hval
        exact ⟨_, _, tx, htx, i, o, ho, rfl, rfl, rfl, rfl⟩
    · rintro ⟨sh, n, tx, htx, i, o, ho, rfl, -, -, rfl⟩
      have hvals : v.txo.vals (tx.getHash sha256).serialize = records sha256 (entry sha256 tx) :=
        h.txo_eq _ (List.mem_map_of_mem htx)
      rw [hvals]
      exact mem_records.mpr ⟨i, o, ho, rfl⟩
  txo_sorted := by
    intro t
    rw [h.txo_cmp]
    by_cases hkey : ∀ e ∈ txs.map (entry sha256), e.1.serialize ≠ t.serialize
    · rw [h.txo_nil _ hkey]
      exact List.Pairwise.nil
    · push Not at hkey
      obtain ⟨e, he, heq⟩ := hkey
      obtain ⟨tx, htx, rfl⟩ := List.mem_map.mp he
      rw [← heq, h.txo_eq _ he]
      exact records_sorted _ (hlen tx htx)
  blk_header := by
    intro key val hval
    rw [hblk, Foundations.Table.setAll_vals] at hval
    split at hval
    · exact absurd hval List.not_mem_nil
    · rename_i p hp
      obtain ⟨hmem, hkey⟩ := List.mem_filter.mp (List.mem_of_getLast? hp)
      obtain ⟨b, -, rfl⟩ := List.mem_map.mp hmem
      rw [List.mem_singleton] at hval
      subst hval
      exact ⟨CBlockHeader.length_serialize _, (of_decide_eq_true hkey).symm, b.header, rfl⟩

/-! ## The preload -/

/-- Empty tables of the kinds a block's transaction asks for. -/
def emptyView : View := ⟨.empty true txoCmp, .empty true memcmp, .empty false memcmp⟩

/-- No transaction is open, and the tables a block's transaction opens are empty, `addr` and `txo`
with sorted duplicates. -/
def Fresh (s : Store) : Prop := s.txn = none ∧ s.tables.opened = emptyView

/-- A worker loads the blocks, one after another or from any files that hold them, and does not
give up. -/
def Loads (sha256 : Bytes → UInt256) (retries mode : ℕ) (blks : List CBlock) (s s' : Store) :
    Prop :=
  indexBlocks sha256 retries mode blks s = .ok s' ∧
    ∀ files, allBlocks files = blks → ∃ n, ∀ rounds, n ≤ rounds →
      worker sha256 retries rounds mode (files.map BlockFile.content) s = some (.ok s')

theorem loads_of_indexBlocks {retries mode : ℕ} {blks : List CBlock} {s s' : Store}
    (h : indexBlocks sha256 retries mode blks s = .ok s') :
    Loads sha256 retries mode blks s s' := by
  refine ⟨h, ?_⟩
  rintro files rfl
  rw [← h]
  exact worker_eq retries mode files s

theorem indexed_nil : Indexed sha256 [] emptyView where
  txo_dup := rfl
  txo_cmp := rfl
  addr_dup := rfl
  addr_cmp := rfl
  addr_iff := by simp [emptyView, Foundations.Table.empty]
  txo_eq := by simp
  txo_nil := fun _ _ => rfl

theorem functional_of_hashInj {txs : List CTransaction} (h : HashInj sha256 txs)
    (hv : ∀ tx ∈ txs, tx.Valid) : Functional (txs.map (entry sha256)) := by
  intro e he e' he' heq
  obtain ⟨tx, htx, rfl⟩ := List.mem_map.mp he
  obtain ⟨tx', htx', rfl⟩ := List.mem_map.mp he'
  exact h.vout_eq hv htx htx' heq

/-- A run over blocks that changes none of the tables it opens leaves the store's tables alone,
if they are what a run over these blocks has committed. -/
theorem loads_unchanged {mode retries : ℕ} {blks : List CBlock} {s : Store} {v : View}
    (hs : s.txn = none) (hopened : s.tables.opened = v)
    (htables : blks ≠ [] → s.tables = v.tables)
    (h : blks.foldlM (addBlock sha256 mode) v = some v) :
    ∃ s', Loads sha256 (retries + 1) mode blks s s' ∧ s'.tables = s.tables := by
  obtain ⟨s', hrun, -, -, htables'⟩ := indexBlocks_of_addBlocks retries hs (hopened.symm ▸ h)
  refine ⟨s', loads_of_indexBlocks hrun, ?_⟩
  split_ifs at htables' with hnil
  · exact htables'
  · rw [htables', hopened, htables hnil]

/-- The first load of blocks into fresh tables. -/
theorem loads_fresh {blks : List CBlock} (hvalid : ∀ b ∈ blks, b.Valid)
    (hinj : HashInj sha256 (blks.flatMap CBlock.vtx)) {s₀ : Store} (h₀ : Fresh s₀) (retries : ℕ) :
    ∃ s v, Loads sha256 (retries + 1) 0 blks s₀ s ∧ s.txn = none ∧ s.tables.opened = v ∧
      (blks ≠ [] → s.tables = v.tables) ∧ Indexed sha256 (entriesOf sha256 blks) v ∧
      v.blk = (Foundations.Table.empty false memcmp).setAll (blks.map (headerPair sha256)) := by
  have hf : Functional (entriesOf sha256 blks) := functional_of_hashInj hinj fun tx htx => by
    obtain ⟨b, hb, htx⟩ := List.mem_flatMap.mp htx
    exact (hvalid b hb).tx tx htx
  obtain ⟨v, hadd, hv, hblk, -⟩ := addBlocks_indexed indexed_nil rfl hf fun b hb tx htx =>
    ((hvalid b hb).tx tx htx).vout_length
  obtain ⟨s, hrun, hs, hopened, htables⟩ :=
    indexBlocks_of_addBlocks retries h₀.1 (h₀.2.symm ▸ hadd)
  refine ⟨s, v, loads_of_indexBlocks hrun, hs, hopened, fun hne => ?_, hv, hblk⟩
  rw [htables, if_neg hne]

/-- **The preload keeps the tables consistent.** Whatever blocks are loaded into fresh tables,
the worker does not give up, after every block the committed tables agree with one another and
with what has been loaded, and loading the same blocks again, or making the second pass over
them, leaves all three tables as they are. -/
theorem preload_consistent {blks : List CBlock} (hvalid : ∀ b ∈ blks, b.Valid)
    (hinj : HashInj sha256 (blks.flatMap CBlock.vtx)) {s₀ : Store} (h₀ : Fresh s₀) (retries : ℕ) :
    (∀ loaded, loaded <+: blks → ∃ s, Loads sha256 (retries + 1) 0 loaded s₀ s ∧
      Consistent sha256 (loaded.flatMap CBlock.vtx) s.tables.opened) ∧
    ∃ s, Loads sha256 (retries + 1) 0 blks s₀ s ∧
      (∃ s', Loads sha256 (retries + 1) 0 blks s s' ∧ s'.tables = s.tables) ∧
      ∃ s', Loads sha256 (retries + 1) 1 blks s s' ∧ s'.tables = s.tables := by
  constructor
  · intro loaded hloaded
    have hsub : loaded.flatMap CBlock.vtx ⊆ blks.flatMap CBlock.vtx := by
      obtain ⟨rest, rfl⟩ := hloaded
      rw [List.flatMap_append]
      exact List.subset_append_left _ _
    obtain ⟨s, v, hload, -, rfl, -, hv, hblk⟩ := loads_fresh
      (fun b hb => hvalid b (hloaded.subset hb))
      (fun tx htx tx' htx' => hinj tx (hsub htx) tx' (hsub htx')) h₀ retries
    refine ⟨s, hload, hv.consistent (fun tx htx => ?_) hblk⟩
    obtain ⟨b, hb, htx⟩ := List.mem_flatMap.mp htx
    exact ((hvalid b (hloaded.subset hb)).tx tx htx).vout_length
  · obtain ⟨s, v, hload, hs, hopened, htables, hv, hblk⟩ := loads_fresh hvalid hinj h₀ retries
    have hdup : v.blk.dupsort = false := by rw [hblk, Foundations.Table.setAll_dupsort]; rfl
    have hset : v.blk.setAll (blks.map (headerPair sha256)) = v.blk := by
      rw [hblk, Foundations.Table.setAll_setAll]
    have hf : Functional (entriesOf sha256 blks ++ entriesOf sha256 blks) :=
      (functional_of_hashInj hinj fun tx htx => by
        obtain ⟨b, hb, htx⟩ := List.mem_flatMap.mp htx
        exact (hvalid b hb).tx tx htx).sublist (List.append_subset.mpr ⟨fun _ => id, fun _ => id⟩)
    refine ⟨s, hload, loads_unchanged hs hopened htables ?_, loads_unchanged hs hopened htables ?_⟩
    · obtain ⟨v', hadd, -, hblk', hold⟩ := addBlocks_indexed hv hdup hf fun b hb tx htx =>
        ((hvalid b hb).tx tx htx).vout_length
      rw [hadd, hold fun _ => id, hblk', hset]
    · rw [addBlocks_second hdup, hset]

/-- A block that is loaded twice, with two outputs to one script. -/
theorem preload_consistent_payTo :
    (∀ loaded, loaded <+: [payTo [[0x51], [0x51]], payTo [[0x51], [0x51]]] → ∃ s,
      Loads Sha256.digest 1 0 loaded .fresh s ∧
      Consistent Sha256.digest (loaded.flatMap CBlock.vtx) s.tables.opened) ∧
    ∃ s, Loads Sha256.digest 1 0 [payTo [[0x51], [0x51]], payTo [[0x51], [0x51]]] .fresh s ∧
      (∃ s', Loads Sha256.digest 1 0 [payTo [[0x51], [0x51]], payTo [[0x51], [0x51]]] s s' ∧
        s'.tables = s.tables) ∧
      ∃ s', Loads Sha256.digest 1 1 [payTo [[0x51], [0x51]], payTo [[0x51], [0x51]]] s s' ∧
        s'.tables = s.tables :=
  preload_consistent
    (by
      simp only [List.mem_cons, List.not_mem_nil, or_false, or_self, forall_eq]
      exact payTo_valid (by decide) (by decide))
    (by
      intro tx htx tx' htx' _
      simp only [payTo, List.flatMap_cons, List.flatMap_nil, List.append_nil, List.mem_append,
        List.mem_singleton, or_self] at htx htx'
      rw [htx, htx'])
    ⟨rfl, rfl⟩ 0

end ElectrumZ.Blockchain
