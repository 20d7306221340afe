import ElectrumZ.Blockchain.Completeness
import ElectrumZ.Blockchain.Lookup

/-!
# Searching what has been loaded

`GetTXOs` over the tables of a preload. The writer spreads the outputs of a script over the
duplicates of its hash in `addr` and the records of their transactions in `txo`; the reader decodes
the first outpoint and drops it.

* `addBlocks_keys`: `addr` has values under the script hashes of loaded outputs only.
* `getTXOs_agrees_iff`: so reader and writer agree on a script hash if and only if no loaded output
  has it.
-/

namespace ElectrumZ.Blockchain

open Foundations Bitcoin

variable {sha256 : Bytes → UInt256}

/-! ## The keys of `addr` -/

theorem put_vals_of_ne {t t' : Table} {key key' val : Bytes} (h : t.put key val = some t')
    (hne : key' ≠ key) : t'.vals key' = t.vals key' := by
  rw [Foundations.Table.put] at h
  split_ifs at h <;> obtain rfl := Option.some.inj h <;>
    exact Foundations.Table.set_vals_of_ne _ _ hne

variable {key : Bytes} {v v' : View}

theorem addOutput_keys {txHash : UInt256} {n : ℕ} {o : CTxOut}
    (h : addOutput sha256 txHash n o v = some v') (hne : addrKey sha256 o ≠ key) :
    v'.addr.vals key = v.addr.vals key := by
  rw [addOutput] at h
  cases hput : v.addr.put (addrKey sha256 o) (addrVal txHash n) with
  | none =>
    rw [hput] at h
    rw [← Option.some.inj h]
  | some addr =>
    rw [hput] at h
    obtain ⟨txo, -, rfl⟩ := Option.map_eq_some_iff.mp h
    exact put_vals_of_ne hput hne.symm

theorem addOutputs_keys {txHash : UInt256} {n : ℕ} {vout : List CTxOut}
    (h : addOutputs sha256 txHash n vout v = some v') (hne : ∀ o ∈ vout, addrKey sha256 o ≠ key) :
    v'.addr.vals key = v.addr.vals key := by
  induction vout generalizing n v with
  | nil => rw [← Option.some.inj h]
  | cons o vout ih =>
    obtain ⟨ho, hvout⟩ := List.forall_mem_cons.mp hne
    obtain ⟨v₁, h₁, h₂⟩ := Option.bind_eq_some_iff.mp h
    rw [ih h₂ hvout, addOutput_keys h₁ ho]

theorem addTxs_keys {mode : ℕ} {vtx : List CTransaction}
    (h : vtx.foldlM (addTx sha256 mode) v = some v')
    (hne : ∀ tx ∈ vtx, ∀ o ∈ tx.vout, addrKey sha256 o ≠ key) :
    v'.addr.vals key = v.addr.vals key := by
  induction vtx generalizing v with
  | nil => rw [← Option.some.inj h]
  | cons tx vtx ih =>
    obtain ⟨htx, hvtx⟩ := List.forall_mem_cons.mp hne
    obtain ⟨v₁, h₁, h₂⟩ := Option.bind_eq_some_iff.mp (List.foldlM_cons.symm.trans h)
    rw [ih h₂ hvtx]
    rw [addTx] at h₁
    split_ifs at h₁
    · rw [← Option.some.inj h₁]
    · exact addOutputs_keys h₁ htx

/-- **`addr` has values under the script hashes of loaded outputs only.** -/
theorem addBlocks_keys {mode : ℕ} {blks : List CBlock}
    (h : blks.foldlM (addBlock sha256 mode) v = some v')
    (hne : ∀ b ∈ blks, ∀ tx ∈ b.vtx, ∀ o ∈ tx.vout, addrKey sha256 o ≠ key) :
    v'.addr.vals key = v.addr.vals key := by
  induction blks generalizing v with
  | nil => rw [← Option.some.inj h]
  | cons b blks ih =>
    obtain ⟨hb, hblks⟩ := List.forall_mem_cons.mp hne
    obtain ⟨v₁, h₁, h₂⟩ := Option.bind_eq_some_iff.mp (List.foldlM_cons.symm.trans h)
    obtain ⟨blk, -, htxs⟩ := Option.bind_eq_some_iff.mp h₁
    have hkept := addTxs_keys htxs hb
    rw [ih h₂ hblks]
    exact hkept

theorem mem_outputsFrom (txid : UInt256) (n : ℕ) {vout : List CTxOut} {o : CTxOut}
    (h : o ∈ vout) : ∃ m, ⟨txid, m, o⟩ ∈ outputsFrom txid n vout := by
  induction vout generalizing n with
  | nil => exact absurd h List.not_mem_nil
  | cons o' vout ih =>
    rw [outputsFrom]
    obtain rfl | h := List.mem_cons.mp h
    · exact ⟨n, List.mem_cons_self⟩
    · obtain ⟨m, hm⟩ := ih (n + 1) h
      exact ⟨m, List.mem_cons_of_mem _ hm⟩

/-! ## Preloaded databases -/

/-- A database that has been preloaded with the outputs of `blks`, by passes of a worker over
blocks: the first pass of a preload loads their outputs, the second goes over their inputs. -/
inductive Preloaded (sha256 : Bytes → UInt256) : List CBlock → Store → Prop
  | fresh {s : Store} (h : Fresh s) : Preloaded sha256 [] s
  | outputs {loaded blks : List CBlock} {retries : ℕ} {s s' : Store}
    (h : Preloaded sha256 loaded s)
    (hpass : indexBlocks sha256 (retries + 1) 0 blks s = .ok s') :
    Preloaded sha256 (loaded ++ blks) s'
  | inputs {loaded blks : List CBlock} {retries : ℕ} {s s' : Store}
    (h : Preloaded sha256 loaded s)
    (hpass : indexBlocks sha256 (retries + 1) 1 blks s = .ok s') : Preloaded sha256 loaded s'

/-- The second pass leaves `addr` alone. -/
theorem addBlocks_addr {blks : List CBlock} (h : blks.foldlM (addBlock sha256 1) v = some v') :
    v'.addr = v.addr := by
  have htxs {vtx : List CTransaction} {v v' : View}
      (h : vtx.foldlM (addTx sha256 1) v = some v') : v' = v := by
    refine foldlM_invariant (I := fun v₁ => v₁ = v) (fun v₁ tx v₂ hv₁ htx => ?_) h rfl
    rw [addTx, if_pos rfl] at htx
    rw [← Option.some.inj htx, hv₁]
  refine foldlM_invariant (I := fun v₁ => v₁.addr = v.addr) (fun v₁ b v₂ hv₁ hb => ?_) h rfl
  obtain ⟨blk, -, hrest⟩ := Option.bind_eq_some_iff.mp hb
  rw [htxs hrest]
  exact hv₁

/-- **A preloaded database has no value under a script hash that no loaded output has.** -/
theorem Preloaded.addr_vals {blks : List CBlock} {s : Store} (h : Preloaded sha256 blks s) :
    s.txn = none ∧ ∀ key,
      (∀ b ∈ blks, ∀ tx ∈ b.vtx, ∀ o ∈ tx.vout, addrKey sha256 o ≠ key) →
        s.tables.opened.addr.vals key = [] := by
  induction h with
  | fresh h =>
    refine ⟨h.1, fun key _ => ?_⟩
    rw [h.2]
    rfl
  | outputs _ hpass ih =>
    obtain ⟨v, hadd, hs', hopened⟩ := addBlocks_of_indexBlocks _ ih.1 hpass
    refine ⟨hs', fun key hne => ?_⟩
    obtain ⟨hloaded, hblks⟩ := List.forall_mem_append.mp hne
    rw [hopened, addBlocks_keys hadd hblks]
    exact ih.2 key hloaded
  | inputs _ hpass ih =>
    obtain ⟨v, hadd, hs', hopened⟩ := addBlocks_of_indexBlocks _ ih.1 hpass
    refine ⟨hs', fun key hne => ?_⟩
    rw [hopened, addBlocks_addr hadd]
    exact ih.2 key hne

/-! ## Reader and writer -/

variable {blks : List CBlock} {scriptHash : UInt256} {ntx : List TXO} {s : Store}

/-- The outputs to a script hash, as the index was given them, each once. -/
structure AllFound (sha256 : Bytes → UInt256) (blks : List CBlock) (scriptHash : UInt256)
    (found : List TXO) : Prop where
  mem_iff : ∀ t, t ∈ found ↔ ∃ x ∈ outputsOf sha256 blks, x.scriptHash sha256 = scriptHash ∧
    t = .ofOutput scriptHash x.txid (UInt32.ofNat x.n) x.out.nValue
  once : found.Pairwise fun t t' => (t.txHash, t.n) ≠ (t'.txHash, t'.n)

/-- `GetTXOs` finds nothing if and only if no loaded output has the script hash, and otherwise
appends all of them. -/
structure Agrees (sha256 : Bytes → UInt256) (blks : List CBlock) (scriptHash : UInt256)
    (ntx : List TXO) (s : Store) : Prop where
  notFound : ((getTXOs scriptHash ntx).run lmdb s).1 = .ok (TXO_NOTFOUND, ntx) ↔
    ∀ x ∈ outputsOf sha256 blks, x.scriptHash sha256 ≠ scriptHash
  found : (∃ x ∈ outputsOf sha256 blks, x.scriptHash sha256 = scriptHash) →
    ∃ found, AllFound sha256 blks scriptHash found ∧
      ((getTXOs scriptHash ntx).run lmdb s).1 = .ok (TXO_OK, ntx ++ found)

/-- A lookup appends nothing. -/
theorem run_getTXOs_appends {err : ℤ} {ntx' : List TXO}
    (h : ((getTXOs scriptHash ntx).run lmdb s).1 = .ok (err, ntx')) : ntx' = ntx := by
  by_cases hs : s.Searchable scriptHash.serialize
  · obtain ⟨err', hrun⟩ := run_getTXOs scriptHash ntx hs
    rw [hrun] at h
    exact (Prod.mk.inj (Except.ok.inj h)).2.symm
  · obtain ⟨stop, s', hrun, -⟩ := run_getTXOs_fails scriptHash ntx hs
    rw [hrun] at h
    exact nomatch h

/-- Nothing is stored under a script hash no loaded output has. -/
theorem Preloaded.stored_eq_none (h : Preloaded sha256 blks s)
    (hne : ∀ x ∈ outputsOf sha256 blks, x.scriptHash sha256 ≠ scriptHash) :
    s.stored .addr scriptHash.serialize = none := by
  have hvals : s.tables.opened.addr.vals scriptHash.serialize = [] := by
    refine h.addr_vals.2 _ fun b hb tx htx o ho heq => ?_
    obtain ⟨n, hn⟩ := mem_outputsFrom (tx.getHash sha256) 0 ho
    refine hne ⟨tx.getHash sha256, n, o⟩ ?_ (UInt256_serialize_inj heq)
    exact List.mem_flatMap.mpr ⟨tx, List.mem_flatMap.mpr ⟨b, hb, htx⟩, hn⟩
  rw [Store.stored, Tables.get]
  cases haddr : s.tables.addr with
  | none => rfl
  | some addr =>
    rw [Tables.opened, haddr] at hvals
    rw [Option.bind_some, show addr.vals scriptHash.serialize = [] from hvals]
    rfl

/-- An output that has been loaded is not found. -/
theorem not_agrees {x : Output} (hx : x ∈ outputsOf sha256 blks)
    (heq : x.scriptHash sha256 = scriptHash) : ¬ Agrees sha256 blks scriptHash ntx s := by
  rintro ⟨-, hfound⟩
  obtain ⟨found, hall, hrun⟩ := hfound ⟨x, hx, heq⟩
  have hnil : found = [] := List.append_right_eq_self.mp (run_getTXOs_appends hrun)
  subst hnil
  exact absurd ((hall.mem_iff _).mpr ⟨x, hx, heq, rfl⟩) List.not_mem_nil

/-- **Reader and writer of the index agree** on the script hashes that no loaded output has. -/
theorem getTXOs_agrees_iff (h : Preloaded sha256 blks s) (scriptHash : UInt256) (ntx : List TXO) :
    Agrees sha256 blks scriptHash ntx s ↔
      ∀ x ∈ outputsOf sha256 blks, x.scriptHash sha256 ≠ scriptHash := by
  refine ⟨fun hagrees x hx heq => not_agrees hx heq hagrees, fun hne => ?_⟩
  have hrun := run_getTXOs_none scriptHash ntx h.addr_vals.1 (h.stored_eq_none hne)
  refine ⟨iff_of_true (by rw [hrun]) hne, ?_⟩
  rintro ⟨x, hx, heq⟩
  exact absurd heq (hne x hx)

/-- Both passes over one block, with two outputs to the same script. -/
theorem preloaded_payTo : ∃ s, Preloaded Sha256.digest [payTo [[0x51], [0x51]]] s := by
  have hvalid : ∀ b ∈ [payTo [[0x51], [0x51]]], b.Valid := by
    simp only [List.mem_singleton, forall_eq]
    exact payTo_valid (by decide) (by decide)
  have hinj : HashInj Sha256.digest ([payTo [[0x51], [0x51]]].flatMap CBlock.vtx) := by
    intro tx htx tx' htx' _
    simp only [payTo, List.flatMap_cons, List.flatMap_nil, List.append_nil,
      List.mem_singleton] at htx htx'
    rw [htx, htx']
  have hfresh : Fresh .fresh := ⟨rfl, rfl⟩
  obtain ⟨s₁, v, hload, hs₁, rfl, -, -, hblk⟩ := loads_fresh hvalid hinj hfresh 0
  have hdup : s₁.tables.opened.blk.dupsort = false := by
    rw [hblk, Foundations.Table.setAll_dupsort]
    rfl
  have hadd : [payTo [[0x51], [0x51]]].foldlM (addBlock Sha256.digest 1) _ = _ :=
    addBlocks_second hdup
  obtain ⟨s₂, hrun, -⟩ := indexBlocks_of_addBlocks 0 hs₁ hadd
  exact ⟨s₂, .inputs (.outputs (.fresh hfresh) hload.1) hrun⟩

/-- Nothing is found under another script hash. -/
theorem getTXOs_agrees_payTo : ∃ s, Preloaded Sha256.digest [payTo [[0x51], [0x51]]] s ∧
    Agrees Sha256.digest [payTo [[0x51], [0x51]]] .zero [] s := by
  obtain ⟨s, h⟩ := preloaded_payTo
  exact ⟨s, h, (getTXOs_agrees_iff h .zero []).mpr (by decide +kernel)⟩

/-- The two outputs are not found. -/
theorem not_getTXOs_agrees : ¬ ∀ blks s scriptHash ntx, Preloaded Sha256.digest blks s →
    Agrees Sha256.digest blks scriptHash ntx s := by
  intro h
  obtain ⟨s, hs⟩ := preloaded_payTo
  have hx : (⟨_, 0, ⟨50, [0x51]⟩⟩ : Output) ∈ outputsOf Sha256.digest [payTo [[0x51], [0x51]]] :=
    List.mem_cons_self
  have hagrees := h _ _ (SHash Sha256.digest [0x51]) [] hs
  exact not_agrees hx rfl hagrees

end ElectrumZ.Blockchain
