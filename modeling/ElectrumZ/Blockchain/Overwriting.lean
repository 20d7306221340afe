import ElectrumZ.Blockchain.Completeness
import ElectrumZ.Blockchain.Recovery

/-!
# The tables that `main` preloads into

The statistics queries of `main` create the tables without sorted duplicates, so that every put
replaces what was there. Several workers then leave the same headers and the same transactions as
one, but of the outputs of a script hash they leave the one that was indexed last.

* `addBlocks_overwriting`: blocks of both passes, in any order, on plain tables.
* `txo_of_blocks`: of a transaction the last output is left, in whatever order.
* `overwriting`: **what any order of the workers leaves** where `main` with one worker leaves its
  tables.
-/

namespace ElectrumZ.Blockchain

open Foundations Bitcoin

variable {sha256 : Bytes → UInt256} {v : View} {blks blks' : List CBlock}

/-! ## Blocks on plain tables -/

theorem outputsOf_append (blks blks' : List CBlock) :
    outputsOf sha256 (blks ++ blks') = outputsOf sha256 blks ++ outputsOf sha256 blks' := by
  simp [outputsOf]

/-- **Blocks of both passes**: the outputs of the first, and the headers of both. -/
theorem addBlocks_overwriting (h : Plain v) (l : List (ℕ × CBlock)) :
    l.foldlM (fun v b => addBlock sha256 b.1 v b.2) v =
      some { v.putOutputs sha256 (outputsOf sha256 (outputBlocks l)) with
        blk := v.blk.setAll ((l.map Prod.snd).map (headerPair sha256)) } := by
  induction l generalizing v with
  | nil => rfl
  | cons p l ih =>
    obtain ⟨mode, b⟩ := p
    have hstep : addBlock sha256 mode v b =
        some { v.putOutputs sha256 (outputsOf sha256 (outputBlocks [(mode, b)])) with
          blk := v.blk.setAll [headerPair sha256 b] } := by
      have hone (m : ℕ) (v' : View) (h : [b].foldlM (addBlock sha256 m) v = some v') :
          addBlock sha256 m v b = some v' := by
        rw [List.foldlM_cons] at h
        obtain ⟨v₁, hv₁, h⟩ := Option.bind_eq_some_iff.mp h
        rw [hv₁, ← Option.some.inj h]
      by_cases hmode : mode = 1
      · subst hmode
        exact hone 1 _ (addBlocks_second h.blk)
      · have houts : outputBlocks [(mode, b)] = [b] := by simp [outputBlocks, hmode]
        rw [addBlock_first hmode, houts]
        exact hone 0 _ (addBlocks_plain h [b])
    have hplain : Plain { v.putOutputs sha256 (outputsOf sha256 (outputBlocks [(mode, b)])) with
        blk := v.blk.setAll [headerPair sha256 b] } := by
      refine ⟨(h.putOutputs _).txo, (h.putOutputs _).addr, ?_⟩
      simpa using h.blk
    have houts : outputsOf sha256 (outputBlocks ((mode, b) :: l)) =
        outputsOf sha256 (outputBlocks [(mode, b)]) ++ outputsOf sha256 (outputBlocks l) := by
      rw [← outputsOf_append]
      congr 1
      unfold outputBlocks
      by_cases hmode : mode = 1 <;> simp [hmode]
    rw [List.foldlM_cons, hstep]
    refine (ih hplain).trans ?_
    rw [houts, putOutputs_append]
    rfl

/-- What is left of a transaction in `txo`: the record of its last output. -/
def lastRecord (sha256 : Bytes → UInt256) (e : Entry) : List (Bytes × Bytes) :=
  ((outputsFrom e.1 0 e.2).map (Output.txoPair sha256)).getLast?.toList

theorem txid_of_mem_outputsFrom {txid : UInt256} {n : ℕ} {vout : List CTxOut} {x : Output}
    (hx : x ∈ outputsFrom txid n vout) : x.txid = txid := by
  induction vout generalizing n with
  | nil => cases hx
  | cons o vout ih =>
    obtain rfl | hx := List.mem_cons.mp hx
    · rfl
    · exact ih hx

theorem key_of_mem_lastRecord {e : Entry} {p : Bytes × Bytes} (hp : p ∈ lastRecord sha256 e) :
    p.1 = e.1.serialize := by
  obtain ⟨x, hx, rfl⟩ := List.mem_map.mp (List.mem_of_getLast? (Option.mem_toList.mp hp))
  rw [Output.txoPair, txid_of_mem_outputsFrom hx]

/-- Of every transaction the last record is left. -/
theorem setAll_outputsOf (blks : List CBlock) (t : Table) :
    t.setAll ((outputsOf sha256 blks).map (Output.txoPair sha256)) =
      t.setAll ((entriesOf sha256 blks).flatMap (lastRecord sha256)) := by
  have hgroups : (outputsOf sha256 blks).map (Output.txoPair sha256) =
      (entriesOf sha256 blks).flatMap fun e =>
        (outputsFrom e.1 0 e.2).map (Output.txoPair sha256) := by
    simp [outputsOf, entriesOf, List.map_flatMap, List.flatMap_map, List.flatMap_assoc, entry]
  rw [hgroups]
  refine Foundations.Table.setAll_flatMap (fun e t => ?_) _ t
  refine Foundations.Table.setAll_of_key (k := e.1.serialize) (fun p hp => ?_) t
  obtain ⟨x, hx, rfl⟩ := List.mem_map.mp hp
  rw [Output.txoPair, txid_of_mem_outputsFrom hx]

/-- **The transactions are left alike** by the same blocks in whatever order. -/
theorem txo_of_blocks (hc : Functional (entriesOf sha256 blks))
    (hsame : ∀ b, b ∈ blks ↔ b ∈ blks') (t : Table) :
    t.setAll ((outputsOf sha256 blks).map (Output.txoPair sha256)) =
      t.setAll ((outputsOf sha256 blks').map (Output.txoPair sha256)) := by
  rw [setAll_outputsOf, setAll_outputsOf]
  refine Foundations.Table.setAll_congr (fun p => ?_) ?_ t
  · simp only [List.mem_flatMap, mem_entriesOf, hsame]
  · intro p hp q hq hkey
    obtain ⟨e, he, hp⟩ := List.mem_flatMap.mp hp
    obtain ⟨e', he', hq⟩ := List.mem_flatMap.mp hq
    have htxid : e.1 = e'.1 := by
      rw [key_of_mem_lastRecord hp, key_of_mem_lastRecord hq] at hkey
      exact UInt256_serialize_inj hkey
    obtain rfl : e = e' := Prod.ext htxid (hc e he e' he' htxid)
    have hp := Option.mem_toList.mp hp
    have hq := Option.mem_toList.mp hq
    rw [Option.some.inj (hp.symm.trans hq)]

/-- The headers are left alike. -/
theorem blk_of_blocks (hc : Collisionless sha256 blks) (hsame : ∀ b, b ∈ blks ↔ b ∈ blks')
    (t : Table) :
    t.setAll (blks.map (headerPair sha256)) = t.setAll (blks'.map (headerPair sha256)) := by
  refine Foundations.Table.setAll_congr (fun p => by simp only [List.mem_map, hsame]) ?_ t
  intro p hp q hq hkey
  obtain ⟨b, hb, rfl⟩ := List.mem_map.mp hp
  obtain ⟨b', hb', rfl⟩ := List.mem_map.mp hq
  rw [headerPair, headerPair, hc.headers b hb b' hb' (UInt256_serialize_inj hkey)]

theorem mem_outputsOf {x : Output} : x ∈ outputsOf sha256 blks ↔
    ∃ b ∈ blks, ∃ tx ∈ b.vtx, x ∈ outputsFrom (tx.getHash sha256) 0 tx.vout := by
  simp only [outputsOf, List.mem_flatMap]
  grind

/-- Of the outputs of a script hash one is left. -/
theorem addr_of_outputs (sha256 : Bytes → UInt256) (l : List Output) {t : Table}
    (ht : ∀ key, t.vals key = []) (key : Bytes) :
    (∃ x ∈ l, addrKey sha256 x.out = key ∧
        (t.setAll (l.map (Output.addrPair sha256))).vals key = [addrVal x.txid x.n]) ∨
      (∀ x ∈ l, addrKey sha256 x.out ≠ key) ∧
        (t.setAll (l.map (Output.addrPair sha256))).vals key = [] := by
  rw [Foundations.Table.setAll_vals]
  cases hlast : ((l.map (Output.addrPair sha256)).filter fun p => p.1 = key).getLast? with
  | none =>
    refine .inr ⟨fun x hx hkey => ?_, ht key⟩
    rw [List.getLast?_eq_none_iff, List.filter_eq_nil_iff] at hlast
    exact hlast _ (List.mem_map_of_mem hx) (decide_eq_true hkey)
  | some p =>
    obtain ⟨hp, hkey⟩ := List.mem_filter.mp (List.mem_of_getLast? hlast)
    obtain ⟨x, hx, rfl⟩ := List.mem_map.mp hp
    exact .inl ⟨x, hx, of_decide_eq_true hkey, rfl⟩

namespace Pool

variable {dir : List DirEntry} {s : Pool} {s₀ : Store} {n : ℕ} {as : List PoolAction}

/-- The tables `v` are the tables `v'` but for which output of a script hash is found: under every
script hash that is paid there is one of the outputs that pay it, and nothing else. -/
structure Overwritten (sha256 : Bytes → UInt256) (blks : List CBlock) (v v' : View) : Prop where
  txo : v.txo = v'.txo
  blk : v.blk = v'.blk
  found : ∀ x ∈ outputsOf sha256 blks, ∃ y ∈ outputsOf sha256 blks,
    y.scriptHash sha256 = x.scriptHash sha256 ∧
      v.addr.vals (addrKey sha256 x.out) = [addrVal y.txid y.n]
  absent : ∀ key, (∀ x ∈ outputsOf sha256 blks, addrKey sha256 x.out ≠ key) → v.addr.vals key = []

/-- **What any order of the workers leaves** of any directory in a new database: the transactions
and headers that `main` with one worker leaves, and of the outputs of every script hash one. -/
theorem overwriting (retries : ℕ) (hc : Collisionless sha256 (blocksIn (blockFiles dir)))
    (hstart : startup.run lmdb .fresh = (.ok true, s₀))
    (h : Completes sha256 (blockFiles dir) n s₀.tables s₀.mapsize as s) :
    ∃ m s', (∀ rounds, m ≤ rounds → main sha256 (retries + 1) rounds dir .fresh = some s') ∧
      Overwritten sha256 (blocksIn (blockFiles dir)) s.store.tables.opened s'.tables.opened := by
  obtain ⟨m, s', hm, hloaded⟩ := main_loads sha256 dir retries
  refine ⟨m, s', hm, ?_⟩
  rw [hloaded]
  have hopened : s₀.tables.opened = plainView := by
    obtain ⟨s₁, hrun, -, htables⟩ := run_startup
    obtain rfl := (Prod.mk.inj (hstart.symm.trans hrun)).2
    rw [htables]
    rfl
  obtain ⟨v, hfold, hv⟩ := h.atomic.stored
  rw [hopened, addBlocks_overwriting plain_plainView] at hfold
  rw [hv, ← Option.some.inj hfold]
  have houts (b : CBlock) := (h.mem_committed b).1
  have hhdrs (b : CBlock) := (h.mem_committed b).2
  have hmem (x : Output) : x ∈ outputsOf sha256 (outputBlocks s.committed) ↔
      x ∈ outputsOf sha256 (blocksIn (blockFiles dir)) := by
    simp only [mem_outputsOf, houts]
  have haddr : ∀ key, plainView.addr.vals key = [] := fun _ => rfl
  constructor
  case txo =>
    exact txo_of_blocks (hc.subset fun b => (houts b).mp).txs houts _
  case blk =>
    exact blk_of_blocks (hc.subset fun b => (hhdrs b).mp) hhdrs _
  case found =>
    intro x hx
    obtain ⟨y, hy, hkey, hval⟩ | ⟨hnone, -⟩ := addr_of_outputs sha256
      (outputsOf sha256 (outputBlocks s.committed)) haddr (addrKey sha256 x.out)
    · exact ⟨y, (hmem y).mp hy, UInt256_serialize_inj hkey, hval⟩
    · exact absurd rfl (hnone x ((hmem x).mpr hx))
  case absent =>
    intro key hkey
    obtain ⟨y, hy, hy', -⟩ | ⟨-, hval⟩ := addr_of_outputs sha256
      (outputsOf sha256 (outputBlocks s.committed)) haddr key
    · exact absurd hy' (hkey y ((hmem y).mp hy))
    · exact hval

/-- A digest that tells apart byte strings with different sums. -/
def sumDigest (bs : Bytes) : UInt256 := ⟨bs.foldl (· + ·) 0 :: List.replicate 31 0, rfl⟩

/-- A file with a block that pays the same script once. -/
def oneOutput : BlockFile :=
  ⟨[], [.full (payTo [[0x51]])], 0,
    .full (payTo_valid (by decide) (by decide)) (by decide +kernel) (by decide +kernel) .nil⟩

/-- Two workers with a file each go through both phases, the second worker first. -/
def secondFirst : List PoolAction :=
  [.take 0, .take 1, .pass 0, .pass 1] ++ List.replicate 13 (.call 1 false) ++
    List.replicate 15 (.call 0 false) ++ [.pass 0, .pass 1, .take 0, .take 1, .join] ++
    [.take 0, .take 1, .pass 0, .pass 1] ++ List.replicate 11 (.call 1 false) ++
    List.replicate 11 (.call 0 false) ++ [.pass 0, .pass 1, .take 0, .take 1, .join]

theorem completes_secondFirst : ∃ s, Completes sumDigest [twoOutputs.content, oneOutput.content] 1
    plainTables MAPSIZE_BASE_UNIT secondFirst s :=
  Completes.of_run (by decide +kernel) (by decide +kernel) (by decide +kernel)

/-- Of the three outputs that pay the script another one is found than after `main`. -/
theorem overwriting_secondFirst : ∃ (s : Pool) (m : ℕ) (s' : Store), s.returned = true ∧
    (∀ rounds, m ≤ rounds →
      main sumDigest 1 rounds [twoOutputs.entry, oneOutput.entry] .fresh = some s') ∧
    Overwritten sumDigest (allBlocks [twoOutputs, oneOutput]) s.store.tables.opened
      s'.tables.opened := by
  obtain ⟨s, h⟩ := completes_secondFirst
  have hfiles : blockFiles [twoOutputs.entry, oneOutput.entry] =
      [twoOutputs.content, oneOutput.content] := blockFiles_entries [twoOutputs, oneOutput]
  have hblocks : blocksIn (blockFiles [twoOutputs.entry, oneOutput.entry]) =
      allBlocks [twoOutputs, oneOutput] := by
    rw [hfiles]
    exact blocksIn_content [twoOutputs, oneOutput]
  have hc : Collisionless sumDigest (allBlocks [twoOutputs, oneOutput]) :=
    ⟨by unfold Functional; decide +kernel, by decide +kernel⟩
  rw [← hfiles] at h
  rw [← hblocks] at hc ⊢
  obtain ⟨m, s', hm, hs'⟩ := overwriting 0 hc rfl h
  exact ⟨s, m, s', h.returned, hm, hs'⟩

end Pool

end ElectrumZ.Blockchain
