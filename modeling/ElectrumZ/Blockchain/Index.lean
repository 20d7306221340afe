import ElectrumZ.Blockchain.Consistency
import ElectrumZ.Blockchain.Passes

/-!
# The index of a set of blocks

What the preload is for: with sorted duplicates, the tables are a function of which blocks have been
indexed. Neither their order nor how often they were indexed matters.

* `IndexOf sha256 outs hdrs v`: the tables hold the outputs of the blocks `outs` and the headers of
  `hdrs`, and nothing else.
* `IndexOf.addBlocks`: adding blocks, in either pass, makes the index of more blocks.
* `IndexOf.unique`: **the index of a set of blocks is unique**.
-/

namespace ElectrumZ.Blockchain

open Foundations Bitcoin

variable {sha256 : Bytes → UInt256}

/-! ## The order of `addr` -/

theorem memcmp_trans {a b c : Bytes} (hab : memcmp a b < 0) (hbc : memcmp b c < 0) :
    memcmp a c < 0 := by
  induction a generalizing b c with
  | nil =>
    cases c with
    | nil => cases b <;> simp [memcmp] at hab hbc
    | cons z cs => simp [memcmp]
  | cons x as ih =>
    cases b with
    | nil => simp [memcmp] at hab
    | cons y bs =>
      cases c with
      | nil => simp [memcmp] at hbc
      | cons z cs =>
        simp only [memcmp] at hab hbc ⊢
        by_cases hxy : x = y
        · subst hxy
          rw [if_pos rfl] at hab
          by_cases hxz : x = z
          · rw [if_pos hxz] at hbc ⊢
            exact ih hab hbc
          · rw [if_neg hxz] at hbc ⊢
            exact hbc
        · rw [if_neg hxy] at hab
          by_cases hyz : y = z
          · subst hyz
            rw [if_neg hxy]
            exact hab
          · rw [if_neg hyz] at hbc
            have hxz : x ≠ z := by
              rintro rfl
              omega
            rw [if_neg hxz]
            omega

theorem memcmp_total {a b : Bytes} (h : memcmp a b ≠ 0) : memcmp a b < 0 ∨ memcmp b a < 0 := by
  induction a generalizing b with
  | nil =>
    cases b with
    | nil => exact absurd rfl h
    | cons y bs => simp [memcmp]
  | cons x as ih =>
    cases b with
    | nil => simp [memcmp]
    | cons y bs =>
      simp only [memcmp, eq_comm (a := y)] at h ⊢
      split_ifs at h ⊢
      · exact ih h
      · omega

/-- The default comparison orders byte strings. -/
theorem memcmp_orders : Foundations.Table.Orders memcmp where
  irrefl a := by
    rw [memcmp_eq_zero.mpr rfl]
    exact lt_irrefl 0
  trans := memcmp_trans
  total := memcmp_total

/-- `addr` has sorted duplicates, in order. -/
structure AddrSorted (v : View) : Prop where
  dup : v.addr.dupsort = true
  cmp : v.addr.dcmp = memcmp
  sorted : v.addr.Sorted

variable {v v' : View} {txid : UInt256} {b : CBlock} {mode : ℕ}

theorem addOutput_addrSorted {n : ℕ} {o : CTxOut} (h : AddrSorted v)
    (hadd : addOutput sha256 txid n o v = some v') : AddrSorted v' := by
  unfold addOutput at hadd
  split at hadd
  · obtain rfl := Option.some.inj hadd
    exact h
  · rename_i addr hput
    obtain ⟨txo, -, rfl⟩ := Option.map_eq_some_iff.mp hadd
    have hset : addr.dupsort = v.addr.dupsort ∧ addr.dcmp = v.addr.dcmp := by
      unfold Foundations.Table.put at hput
      split_ifs at hput <;> obtain rfl := Option.some.inj hput <;> simp
    refine ⟨hset.1.trans h.dup, hset.2.trans h.cmp, ?_⟩
    exact Foundations.Table.put_sorted h.dup (h.cmp ▸ memcmp_orders) h.sorted hput

theorem addOutputs_addrSorted {n : ℕ} {vout : List CTxOut} (h : AddrSorted v)
    (hadd : addOutputs sha256 txid n vout v = some v') : AddrSorted v' := by
  induction vout generalizing n v with
  | nil =>
    obtain rfl := Option.some.inj hadd
    exact h
  | cons o vout ih =>
    obtain ⟨v₁, h₁, h₂⟩ := Option.bind_eq_some_iff.mp hadd
    exact ih (addOutput_addrSorted h h₁) h₂

theorem addBlock_addrSorted (h : AddrSorted v) (hadd : addBlock sha256 mode v b = some v') :
    AddrSorted v' := by
  obtain ⟨blk, -, htxs⟩ := Option.bind_eq_some_iff.mp hadd
  refine foldlM_invariant (I := AddrSorted) (fun v₁ tx v₂ h₁ htx => ?_) htxs
    ⟨h.dup, h.cmp, h.sorted⟩
  unfold addTx at htx
  split_ifs at htx
  · obtain rfl := Option.some.inj htx
    exact h₁
  · exact addOutputs_addrSorted h₁ htx

/-! ## The index -/

/-- The outputs of the blocks `outs` and the headers of the blocks `hdrs` have been stored, in
tables with sorted duplicates. -/
structure IndexOf (sha256 : Bytes → UInt256) (outs hdrs : List CBlock) (v : View) : Prop where
  indexed : Indexed sha256 (entriesOf sha256 outs) v
  sorted : v.addr.Sorted
  headers : v.blk = (Foundations.Table.empty false memcmp).setAll (hdrs.map (headerPair sha256))

/-- No two transactions with the same hash differ in their outputs, and no two headers have the same
hash. -/
structure Collisionless (sha256 : Bytes → UInt256) (blks : List CBlock) : Prop where
  txs : Functional (entriesOf sha256 blks)
  headers : ∀ b ∈ blks, ∀ b' ∈ blks,
    b.header.getHash sha256 = b'.header.getHash sha256 → b.header = b'.header

variable {outs hdrs outs' hdrs' : List CBlock}

theorem mem_entriesOf {blks : List CBlock} {e : Entry} :
    e ∈ entriesOf sha256 blks ↔ ∃ b ∈ blks, e ∈ b.vtx.map (entry sha256) := by
  simp [entriesOf]
  grind

theorem Collisionless.subset {blks blks' : List CBlock} (h : Collisionless sha256 blks')
    (hsub : blks ⊆ blks') : Collisionless sha256 blks where
  txs := h.txs.sublist fun e he => by
    obtain ⟨b, hb, he⟩ := mem_entriesOf.mp he
    exact mem_entriesOf.mpr ⟨b, hsub hb, he⟩
  headers b hb b' hb' := h.headers b (hsub hb) b' (hsub hb')

theorem indexOf_nil : IndexOf sha256 [] [] emptyView where
  indexed := indexed_nil
  sorted := by simp [Foundations.Table.Sorted, emptyView, Foundations.Table.empty]
  headers := rfl

/-- **The index of a set of blocks is unique.** -/
theorem IndexOf.unique (h : IndexOf sha256 outs hdrs v) (h' : IndexOf sha256 outs' hdrs' v')
    (houts : ∀ b, b ∈ outs ↔ b ∈ outs') (hhdrs : ∀ b, b ∈ hdrs ↔ b ∈ hdrs')
    (hc : Collisionless sha256 hdrs) : v = v' := by
  have hes : ∀ e, e ∈ entriesOf sha256 outs ↔ e ∈ entriesOf sha256 outs' := by
    simp only [mem_entriesOf, houts, implies_true]
  have hv := h.indexed
  have hv' := h'.indexed.congr fun e => (hes e).symm
  have htxo : v.txo = v'.txo := by
    refine Foundations.Table.ext (hv.txo_dup.trans hv'.txo_dup.symm)
      (hv.txo_cmp.trans hv'.txo_cmp.symm) ?_
    funext key
    by_cases hkey : ∀ e ∈ entriesOf sha256 outs, e.1.serialize ≠ key
    · rw [hv.txo_nil key hkey, hv'.txo_nil key hkey]
    · push Not at hkey
      obtain ⟨e, he, rfl⟩ := hkey
      rw [hv.txo_eq e he, hv'.txo_eq e he]
  have haddr : v.addr = v'.addr := by
    refine Foundations.Table.ext (hv.addr_dup.trans hv'.addr_dup.symm)
      (hv.addr_cmp.trans hv'.addr_cmp.symm) ?_
    funext key
    have hsorted := h.sorted key
    have hsorted' := h'.sorted key
    rw [hv.addr_cmp] at hsorted
    rw [hv'.addr_cmp] at hsorted'
    refine Foundations.Table.eq_of_sorted memcmp_orders hsorted hsorted' fun val => ?_
    rw [hv.addr_iff, hv'.addr_iff]
  have hblk : v.blk = v'.blk := by
    rw [h.headers, h'.headers]
    refine Foundations.Table.setAll_congr (fun p => ?_) ?_ _
    · simp only [List.mem_map, hhdrs]
    · intro p hp q hq hkey
      obtain ⟨b, hb, rfl⟩ := List.mem_map.mp hp
      obtain ⟨b', hb', rfl⟩ := List.mem_map.mp hq
      have hheader := hc.headers b hb b' hb' (UInt256_serialize_inj hkey)
      rw [headerPair, headerPair, hheader]
  obtain ⟨txo, addr, blk⟩ := v
  obtain ⟨txo', addr', blk'⟩ := v'
  obtain rfl : txo = txo' := htxo
  obtain rfl : addr = addr' := haddr
  obtain rfl : blk = blk' := hblk
  rfl

/-! ## Adding blocks -/

/-- Whatever is not the second pass is the first. -/
theorem addBlock_first (h : mode ≠ 1) (v : View) (b : CBlock) :
    addBlock sha256 mode v b = addBlock sha256 0 v b := by
  unfold addBlock
  congr 1
  funext blk
  congr 1
  funext v tx
  rw [addTx, addTx, if_neg h, if_neg (by decide)]

/-- Adding a block of either pass. -/
theorem IndexOf.addBlock (h : IndexOf sha256 outs hdrs v)
    (hc : Functional (entriesOf sha256 (outs ++ [b])))
    (hlen : ∀ tx ∈ b.vtx, tx.vout.length ≤ MAX_SIZE) (mode : ℕ) :
    ∃ v', addBlock sha256 mode v b = some v' ∧
      IndexOf sha256 (outs ++ if mode = 1 then [] else [b]) (hdrs ++ [b]) v' := by
  have hdup : v.blk.dupsort = false := by
    rw [h.headers, Foundations.Table.setAll_dupsort]
    rfl
  have hheaders (v' : View) (hblk : v'.blk = v.blk.setAll [headerPair sha256 b]) :
      v'.blk = (Foundations.Table.empty false memcmp).setAll
        ((hdrs ++ [b]).map (headerPair sha256)) := by
    rw [hblk, h.headers, List.map_append, Foundations.Table.setAll_append]
    rfl
  split_ifs with hmode
  · subst hmode
    have hadd : [b].foldlM (Blockchain.addBlock sha256 1) v = some { v with
        blk := v.blk.setAll ([b].map (headerPair sha256)) } := addBlocks_second hdup
    rw [List.foldlM_cons] at hadd
    obtain ⟨v', hv', hadd⟩ := Option.bind_eq_some_iff.mp hadd
    obtain rfl := Option.some.inj hadd
    refine ⟨_, hv', ?_, h.sorted, hheaders _ rfl⟩
    rw [List.append_nil]
    exact h.indexed.withBlk _
  · have hentries : entriesOf sha256 (outs ++ [b]) =
        entriesOf sha256 outs ++ entriesOf sha256 [b] := by
      simp [entriesOf]
    have hb : ∀ x ∈ [b], ∀ tx ∈ x.vtx, tx.vout.length ≤ MAX_SIZE := by simpa using hlen
    obtain ⟨v', hadd, hv', hblk, -⟩ := addBlocks_indexed h.indexed hdup (hentries ▸ hc) hb
    rw [List.foldlM_cons] at hadd
    obtain ⟨v₁, hv₁, hadd⟩ := Option.bind_eq_some_iff.mp hadd
    obtain rfl := Option.some.inj hadd
    refine ⟨v₁, (addBlock_first hmode v b).trans hv₁, hentries ▸ hv', ?_, hheaders _ hblk⟩
    exact (addBlock_addrSorted ⟨h.indexed.addr_dup, h.indexed.addr_cmp, h.sorted⟩ hv₁).sorted

/-- The blocks of a list whose outputs are added: those of the first pass. -/
def outputBlocks (l : List (ℕ × CBlock)) : List CBlock := (l.filter fun b => b.1 ≠ 1).map Prod.snd

/-- **Adding blocks, of either pass and in any order, makes the index of more blocks.** -/
theorem IndexOf.addBlocks {l : List (ℕ × CBlock)} (h : IndexOf sha256 outs hdrs v)
    (hc : Functional (entriesOf sha256 (outs ++ l.map Prod.snd)))
    (hlen : ∀ b ∈ l, ∀ tx ∈ b.2.vtx, tx.vout.length ≤ MAX_SIZE) :
    ∃ v', l.foldlM (fun v b => Blockchain.addBlock sha256 b.1 v b.2) v = some v' ∧
      IndexOf sha256 (outs ++ outputBlocks l) (hdrs ++ l.map Prod.snd) v' := by
  induction l generalizing outs hdrs v with
  | nil => exact ⟨v, rfl, by simpa [outputBlocks] using h⟩
  | cons p l ih =>
    obtain ⟨mode, b⟩ := p
    rw [List.forall_mem_cons] at hlen
    have hsub {blks : List CBlock} (hblks : ∀ x ∈ blks, x ∈ outs ∨ x = b ∨ x ∈ l.map Prod.snd) :
        Functional (entriesOf sha256 blks) := by
      refine hc.sublist fun e he => ?_
      obtain ⟨x, hx, he⟩ := mem_entriesOf.mp he
      refine mem_entriesOf.mpr ⟨x, ?_, he⟩
      simpa using hblks x hx
    obtain ⟨v₁, hadd, h₁⟩ := h.addBlock (hsub fun x hx => by grind) hlen.1 mode
    obtain ⟨v', hadds, h'⟩ := ih h₁ (hsub fun x hx => by split_ifs at hx <;> grind) hlen.2
    refine ⟨v', ?_, ?_⟩
    · rw [List.foldlM_cons, hadd]
      exact hadds
    · have houts : outputBlocks ((mode, b) :: l) =
          (if mode = 1 then [] else [b]) ++ outputBlocks l := by
        unfold outputBlocks
        split_ifs with hmode <;> simp [hmode]
      rw [houts]
      simpa using h'

/-! ## Blocks of files -/

/-- A block that the loop comes by has transactions of at most `MAX_SIZE` outputs. -/
theorem vout_length_of_found {rest : Bytes} {p : ℕ × CBlock} (hp : p ∈ found rest) :
    ∀ tx ∈ p.2.vtx, tx.vout.length ≤ MAX_SIZE := by
  induction rest using found.induct with
  | case1 => simp [found_nil] at hp
  | case2 rest hne hpass => simp [found_of_leave hpass] at hp
  | case3 rest hne hpass ih =>
    rw [found_of_again hne hpass] at hp
    exact ih hp
  | case4 rest hne blk hpass ih =>
    rw [found_of_block hne hpass, List.mem_cons] at hp
    obtain rfl | hp := hp
    · -- the block has been decoded
      unfold scanPass at hpass
      split_ifs at hpass with h8
      unfold passRecord at hpass
      split_ifs at hpass
      rcases hrun : decode (CBlock.unserialize PROTOCOL_VERSION) (rest.drop 8) with
        ⟨e | blk', rest'⟩
      · rw [hrun] at hpass
        simp [decoded] at hpass
      · rw [hrun] at hpass
        obtain rfl : blk' = blk := by simpa [decoded] using hpass
        exact (CBlock.ensures_unserialize _).run hrun
    · exact ih hp

end ElectrumZ.Blockchain
