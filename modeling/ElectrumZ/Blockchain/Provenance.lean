import ElectrumZ.Bitcoin.Formats
import ElectrumZ.Blockchain.Completeness
import ElectrumZ.Blockchain.Recovery

/-!
# Where the tables come from

What a preload adds to the tables stands in the files.

* `Laid`: records stand one after another in a file, none reaching into the next.
* `laid_found`: so do the records that the scan of **any** file comes by.
* `provenance`: in every state of every run, a header that the preload has added is 80 bytes of a
  file behind a magic and a length, under their hash, and an output that it has added is one of a
  transaction of a block that stands there.
-/

namespace ElectrumZ.Blockchain

open Foundations Bitcoin

variable {sha256 : Bytes → UInt256} {content rest : Bytes} {b : CBlock}

/-! ## Records in a file -/

/-- A record: a magic, a length that is not zero, and bytes that are accepted for the block. -/
def FileRecord (b : CBlock) (bs : Bytes) : Prop :=
  ∃ len block, len ≠ 0 ∧ len < 256 ^ 4 ∧ bs = netMagic ++ (leBytes 4 len ++ block) ∧ b.Form block

/-- The records stand one after another, each with the number of bytes of the file from it on. What
is between them is skipped. -/
inductive Laid : List (ℕ × CBlock) → Bytes → Prop
  | nil (rest : Bytes) : Laid [] rest
  | cons {b : CBlock} {record rest : Bytes} {l : List (ℕ × CBlock)} (before : Bytes)
      (hrecord : FileRecord b record) (h : Laid l rest) :
      Laid (((record ++ rest).length, b) :: l) (before ++ (record ++ rest))

/-- Records further on. -/
theorem Laid.prepend {l : List (ℕ × CBlock)} (h : Laid l rest) (before : Bytes) :
    Laid l (before ++ rest) := by
  cases h with
  | nil => exact .nil _
  | cons before' hrecord h =>
    rw [← List.append_assoc]
    exact .cons (before ++ before') hrecord h

theorem Laid.of_suffix {l : List (ℕ × CBlock)} (h : Laid l rest) (hs : rest <:+ content) :
    Laid l content := by
  obtain ⟨before, rfl⟩ := hs
  exact h.prepend before

/-- A pass that comes by a block has used up its record. -/
theorem record_of_scanPass (h : (scanPass rest).1 = .block b) :
    ∃ record, rest = record ++ (scanPass rest).2 ∧ FileRecord b record := by
  unfold scanPass at h ⊢
  split_ifs at h ⊢ with h8
  unfold passRecord at h ⊢
  split_ifs at h ⊢ with hlen hmagic hshort hmissing
  rcases hdecode : decode (CBlock.unserialize PROTOCOL_VERSION) (rest.drop 8) with ⟨e | blk, rest'⟩
  · rw [hdecode] at h
    cases h
  · rw [hdecode] at h
    cases h
    obtain ⟨block, hblock, hform⟩ :=
      (CBlock.decode_iff maxPiece_le_readMax (by decide)).mp hdecode
    rw [not_not] at hmagic
    have hfour : ((rest.drop 4).take 4).length = 4 := by
      rw [List.length_take, List.length_drop]
      omega
    have hle := leBytes_ofLeBytes ((rest.drop 4).take 4)
    have hlt := ofLeBytes_lt ((rest.drop 4).take 4)
    rw [hfour] at hle hlt
    refine ⟨netMagic ++ (leBytes 4 (ofLeBytes ((rest.drop 4).take 4)) ++ block), ?_, _, block, hlen,
      hlt, rfl, hform⟩
    change rest = netMagic ++ (_ ++ block) ++ rest'
    calc rest = rest.take 4 ++ ((rest.drop 4).take 4 ++ (rest.drop 4).drop 4) := by
          rw [List.take_append_drop, List.take_append_drop]
      _ = _ := by
          rw [hmagic, hle, List.drop_drop, hblock]
          simp

/-- **The scan of any file** comes by records that stand one after another in it. -/
theorem laid_found (rest : Bytes) : Laid (found rest) rest := by
  induction hlen : rest.length using Nat.strong_induction_on generalizing rest with
  | _ n ih =>
    by_cases hne : rest = []
    · subst hne
      rw [found_nil]
      exact .nil []
    have hpass := length_scanPass rest
    have hpos := List.length_pos_of_ne_nil hne
    have hrest := ih _ (by omega) (scanPass rest).2 rfl
    cases hscan : (scanPass rest).1 with
    | leave =>
      rw [found_of_leave hscan]
      exact .nil rest
    | again =>
      rw [found_of_again hne hscan]
      exact hrest.of_suffix (scanPass_suffix rest)
    | block b =>
      rw [found_of_block hne hscan]
      obtain ⟨record, hrecord, hform⟩ := record_of_scanPass hscan
      have hlaid := Laid.cons [] hform hrest
      rwa [List.nil_append, ← hrecord] at hlaid

/-- The block stands in the file. -/
def StandsIn (content : Bytes) (b : CBlock) : Prop :=
  ∃ before record after, content = before ++ (record ++ after) ∧ FileRecord b record

theorem Laid.standsIn {l : List (ℕ × CBlock)} (h : Laid l content) :
    ∀ p ∈ l, StandsIn content p.2 := by
  induction h with
  | nil => simp
  | @cons b record rest l before hrecord h ih =>
    rw [List.forall_mem_cons]
    refine ⟨⟨before, record, rest, rfl, hrecord⟩, fun p hp => ?_⟩
    obtain ⟨before', record', after, rfl, hrecord'⟩ := ih p hp
    exact ⟨before ++ (record ++ before'), record', after, by simp, hrecord'⟩

theorem standsIn_of_blocksIn {files : List Bytes} (hb : b ∈ blocksIn files) :
    ∃ content ∈ files, StandsIn content b := by
  obtain ⟨content, hcontent, hb⟩ := List.mem_flatMap.mp hb
  obtain ⟨p, hp, rfl⟩ := List.mem_map.mp hb
  exact ⟨content, hcontent, (laid_found content).standsIn p hp⟩

/-! ## What the tables gain -/

/-- A header of a block that stands in the files, and its hash. -/
def HeaderOf (sha256 : Bytes → UInt256) (files : List Bytes) (key val : Bytes) : Prop :=
  ∃ content ∈ files, ∃ before record after b, content = before ++ (record ++ after) ∧
    FileRecord b record ∧ val = (record.drop 8).take 80 ∧ key = (Hash sha256 val).serialize

/-- An output of a transaction of a block that stands in the files. -/
def OutputOf (sha256 : Bytes → UInt256) (files : List Bytes) (x : Output) : Prop :=
  ∃ content ∈ files, ∃ b, StandsIn content b ∧ ∃ tx ∈ b.vtx, tx.vout[x.n]? = some x.out ∧
    x.txid = Hash sha256 (tx.serialize SERIALIZE_TRANSACTION_NO_WITNESS)

/-- The tables have gained headers that satisfy `H`, and outputs that satisfy `P`. -/
structure View.Gains (sha256 : Bytes → UInt256) (H : Bytes → Bytes → Prop) (P : Output → Prop)
    (v v' : View) : Prop where
  blk : v.blk.Gains H v'.blk
  addr : v.addr.Gains (fun key val => ∃ x, P x ∧ x.addrPair sha256 = (key, val)) v'.addr
  txo : v.txo.Gains (fun key val => ∃ x, P x ∧ x.txoPair sha256 = (key, val)) v'.txo

variable {H : Bytes → Bytes → Prop} {P : Output → Prop} {v v' v'' : View}

theorem View.gains_refl (v : View) : v.Gains sha256 H P v :=
  ⟨Foundations.Table.gains_refl _, Foundations.Table.gains_refl _, Foundations.Table.gains_refl _⟩

theorem View.Gains.trans (h : v.Gains sha256 H P v') (h' : v'.Gains sha256 H P v'') :
    v.Gains sha256 H P v'' :=
  ⟨h.blk.trans h'.blk, h.addr.trans h'.addr, h.txo.trans h'.txo⟩

/-- What each step gains, a sequence of steps gains. -/
theorem View.gains_foldlM {α : Type} {step : View → α → Option View} {l : List α}
    (hstep : ∀ a ∈ l, ∀ v v', step v a = some v' → v.Gains sha256 H P v')
    (hl : l.foldlM step v = some v') : v.Gains sha256 H P v' := by
  induction l generalizing v with
  | nil =>
    obtain rfl := Option.some.inj hl
    exact v.gains_refl
  | cons a l ih =>
    obtain ⟨v₁, h₁, h₂⟩ := Option.bind_eq_some_iff.mp (List.foldlM_cons.symm.trans hl)
    rw [List.forall_mem_cons] at hstep
    exact (hstep.1 v v₁ h₁).trans (ih hstep.2 h₂)

theorem gains_addOutput {txid : UInt256} {n : ℕ} {o : CTxOut} (hP : P ⟨txid, n, o⟩)
    (hadd : addOutput sha256 txid n o v = some v') : v.Gains sha256 H P v' := by
  unfold addOutput at hadd
  split at hadd
  · obtain rfl := Option.some.inj hadd
    exact v.gains_refl
  · rename_i addr hput
    obtain ⟨txo, happend, rfl⟩ := Option.map_eq_some_iff.mp hadd
    exact ⟨Foundations.Table.gains_refl _, Foundations.Table.gains_put hput ⟨_, hP, rfl⟩,
      Foundations.Table.gains_append happend ⟨_, hP, rfl⟩⟩

theorem gains_addOutputs {txid : UInt256} {n : ℕ} {vout : List CTxOut}
    (hP : ∀ i o, vout[i]? = some o → P ⟨txid, n + i, o⟩)
    (hadd : addOutputs sha256 txid n vout v = some v') : v.Gains sha256 H P v' := by
  induction vout generalizing n v with
  | nil =>
    obtain rfl := Option.some.inj hadd
    exact v.gains_refl
  | cons o vout ih =>
    obtain ⟨v₁, h₁, h₂⟩ := Option.bind_eq_some_iff.mp hadd
    refine (gains_addOutput (hP 0 o rfl) h₁).trans (ih (fun i o' ho' => ?_) h₂)
    rw [Nat.add_assoc, Nat.add_comm 1 i]
    exact hP (i + 1) o' (by simpa using ho')

/-- **A block that is added** brings in its header and its outputs. -/
theorem gains_addBlock {mode : ℕ} (hH : H (b.header.getHash sha256).serialize b.header.serialize)
    (hP : ∀ tx ∈ b.vtx, ∀ n o, tx.vout[n]? = some o → P ⟨tx.getHash sha256, n, o⟩)
    (hadd : addBlock sha256 mode v b = some v') : v.Gains sha256 H P v' := by
  obtain ⟨blk, hput, htxs⟩ := Option.bind_eq_some_iff.mp hadd
  have hblk : v.Gains sha256 H P { v with blk } :=
    ⟨Foundations.Table.gains_put hput hH, Foundations.Table.gains_refl _,
      Foundations.Table.gains_refl _⟩
  refine hblk.trans (View.gains_foldlM (fun tx htx v v' htx' => ?_) htxs)
  unfold addTx at htx'
  split_ifs at htx'
  · obtain rfl := Option.some.inj htx'
    exact v.gains_refl
  · refine gains_addOutputs (fun n o ho => ?_) htx'
    rw [Nat.zero_add]
    exact hP tx htx n o ho

theorem FileRecord.take_header {record : Bytes} (h : FileRecord b record) :
    (record.drop 8).take 80 = b.header.serialize := by
  obtain ⟨len, block, -, -, rfl, hform⟩ := h
  rw [← hform.take_header, ← List.append_assoc, List.drop_left' (by simp [netMagic])]

/-- **In every state of every run**, what the preload has added to the tables stands in the
files. -/
theorem Pool.provenance {files : List Bytes} {n : ℕ} {tables : Tables} {mapsize : ℕ}
    {as : List PoolAction} {s : Pool}
    (hrun : Runs (step sha256 files) (start n tables mapsize) as s) :
    tables.opened.Gains sha256 (HeaderOf sha256 files) (OutputOf sha256 files)
      s.store.tables.opened := by
  have hatomic := ((intact_always sha256 files n tables mapsize as).last hrun).atomic
  obtain ⟨v, hfold, hv⟩ := hatomic.stored
  rw [hv]
  refine View.gains_foldlM (fun ⟨mode, b⟩ hb v v' hadd => ?_) hfold
  obtain ⟨content, hcontent, hstands⟩ := standsIn_of_blocksIn (hatomic.mem_blocksIn hb)
  refine gains_addBlock ?_ (fun tx htx n o ho => ⟨content, hcontent, b, hstands, tx, htx, ho, rfl⟩)
    hadd
  obtain ⟨before, record, after, heq, hrecord⟩ := hstands
  exact ⟨content, hcontent, before, record, after, b, heq, hrecord, hrecord.take_header.symm, rfl⟩

/-- Two workers with a file each have gone through both phases. -/
theorem Pool.provenance_resizeThrough : ∃ s : Pool, s.returned = true ∧
    Tables.none.opened.Gains (fun _ => .zero)
      (HeaderOf (fun _ => .zero) [twoOutputs.content, twoOutputs.content])
      (OutputOf (fun _ => .zero) [twoOutputs.content, twoOutputs.content])
      s.store.tables.opened := by
  obtain ⟨s, h⟩ := completes_resizeThrough
  exact ⟨s, h.returned, provenance h.runs⟩

end ElectrumZ.Blockchain
