import ElectrumZ.Bitcoin.Hash
import ElectrumZ.Foundations.Formats

/-!
# What the decoders accept

The decoders of `serialize.h`, `transaction.h` and `block.h` accept what the serializers write, and
nothing else, but for one thing: a transaction that announces witnesses may have none.

* `CTransaction.Form`: the bytes that are accepted for a transaction, and `CBlock.Form` for a block.
* `CTransaction.accepts_unserialize`, `CBlock.accepts_unserialize`: the decoders accept these.
* `CBlock.decode_iff`: so **a block that is decoded is what stands in front of the input**.
* `CBlock.Form.unique`: the bytes tell the block, and where it ends.
-/

namespace ElectrumZ.Bitcoin

open Foundations

variable {limit : ℕ}

/-- The decoder accepts the format. -/
abbrev Recognizes {α : Type} (limit : ℕ) (d : Decoder α) (F : α → Bytes → Prop) : Prop :=
  Admits Failure.endOfFile Failure.bufferSize limit d F

/-! ## Integers and sizes -/

theorem accepts_readLE {w : ℕ} (hw : w ≤ limit) :
    Recognizes limit (readLE w) (Written (· < 256 ^ w) (leBytes w)) := by
  intro bs n
  constructor
  · intro h
    simp only [readLE, reads_bind_iff, reads_query_iff, reads_pure_iff] at h
    obtain ⟨bs', bs₁, bs₂, rfl, ⟨-, rfl, rfl⟩, rfl, rfl⟩ := h
    rw [List.append_nil]
    exact ⟨ofLeBytes_lt bs', (leBytes_ofLeBytes bs').symm⟩
  · rintro ⟨hn, rfl⟩
    exact reads_readLE hn hw

theorem accepts_serReaddata8 (hl : maxPiece ≤ limit) :
    Recognizes limit serReaddata8 (Written (fun _ => True) serWritedata8) := by
  have hw : 1 ≤ limit := by simp only [maxPiece] at hl; omega
  refine (accepts_readLE hw).bind_pure fun obj bs => ⟨?_, ?_⟩
  · rintro ⟨-, rfl⟩
    exact ⟨obj.toNat, ⟨obj.toNat_lt, rfl⟩, UInt8.ofNat_toNat⟩
  · rintro ⟨n, ⟨hn, rfl⟩, rfl⟩
    exact ⟨trivial, by rw [serWritedata8, UInt8.toNat_ofNat_of_lt' hn]⟩

theorem accepts_serReaddata32 (hl : maxPiece ≤ limit) :
    Recognizes limit serReaddata32 (Written (fun _ => True) serWritedata32) := by
  have hw : 4 ≤ limit := by simp only [maxPiece] at hl; omega
  refine (accepts_readLE hw).bind_pure fun obj bs => ⟨?_, ?_⟩
  · rintro ⟨-, rfl⟩
    exact ⟨obj.toNat, ⟨obj.toNat_lt, rfl⟩, UInt32.ofNat_toNat⟩
  · rintro ⟨n, ⟨hn, rfl⟩, rfl⟩
    exact ⟨trivial, by rw [serWritedata32, UInt32.toNat_ofNat_of_lt' hn]⟩

theorem accepts_serReaddata64 (hl : maxPiece ≤ limit) :
    Recognizes limit serReaddata64 (Written (fun _ => True) serWritedata64) := by
  have hw : 8 ≤ limit := by simp only [maxPiece] at hl; omega
  refine (accepts_readLE hw).bind_pure fun obj bs => ⟨?_, ?_⟩
  · rintro ⟨-, rfl⟩
    exact ⟨obj.toNat, ⟨obj.toNat_lt, rfl⟩, UInt64.ofNat_toNat⟩
  · rintro ⟨n, ⟨hn, rfl⟩, rfl⟩
    exact ⟨trivial, by rw [serWritedata64, UInt64.toNat_ofNat_of_lt' hn]⟩

/-- A number that must not be below `t`. -/
theorem reads_checked {w t m : ℕ} (hw : w ≤ limit) {k : ℕ → Decoder ℕ} {bs : Bytes}
    (h : Decodes limit (do
      let n ← readLE w
      if n < t then do
        let n ← .fail .nonCanonical
        k n
      else do
        let n ← pure n
        k n) bs m) :
    ∃ n bs', t ≤ n ∧ n < 256 ^ w ∧ bs = leBytes w n ++ bs' ∧ Decodes limit (k n) bs' m := by
  obtain ⟨n, bs₁, bs₂, rfl, hread, hcheck⟩ := reads_bind_iff.mp h
  obtain ⟨hn, rfl⟩ := (accepts_readLE hw _ _).mp hread
  split_ifs at hcheck with hlt
  · obtain ⟨_, _, _, _, hfail, _⟩ := reads_bind_iff.mp hcheck
    exact absurd hfail not_reads_fail
  · obtain ⟨_, _, bs', rfl, hpure, hk⟩ := reads_bind_iff.mp hcheck
    obtain ⟨rfl, rfl⟩ := reads_pure_iff.mp hpure
    exact ⟨n, bs', Nat.le_of_not_lt hlt, hn, rfl, hk⟩

/-- **A size has one form.** The longer ones are refused. -/
theorem accepts_readCompactSize (hl : maxPiece ≤ limit) :
    Recognizes limit readCompactSize (Written (· ≤ MAX_SIZE) writeCompactSize) := by
  have hw (w : ℕ) (hw : w ≤ 8) : w ≤ limit := by simp only [maxPiece] at hl; omega
  -- the last check
  have hlast (n m : ℕ) (bs : Bytes) (h : Decodes limit
      (if MAX_SIZE < n then .fail .sizeTooLarge else pure n) bs m) :
      n ≤ MAX_SIZE ∧ bs = [] ∧ n = m := by
    split_ifs at h with hmax
    · exact absurd h not_reads_fail
    · exact ⟨Nat.le_of_not_lt hmax, reads_pure_iff.mp h⟩
  intro bs n
  constructor
  swap
  · rintro ⟨hn, rfl⟩
    exact reads_readCompactSize hl hn
  intro h
  obtain ⟨chSize, bs₁, bs', rfl, hread, hrest⟩ := reads_bind_iff.mp h
  obtain ⟨hch, rfl⟩ := (accepts_readLE (hw 1 (by omega)) _ _).mp hread
  dsimp only at hrest
  split_ifs at hrest with h₁ h₂ h₃
  · obtain ⟨_, _, bs₂, rfl, hpure, hk⟩ := reads_bind_iff.mp hrest
    obtain ⟨rfl, rfl⟩ := reads_pure_iff.mp hpure
    obtain ⟨hmax, rfl, rfl⟩ := hlast _ _ _ hk
    refine ⟨hmax, ?_⟩
    rw [writeCompactSize, if_pos h₁, List.append_nil, List.append_nil]
  · obtain ⟨m, bs₂, hle, hlt, rfl, hk⟩ := reads_checked (hw 2 (by omega)) hrest
    obtain ⟨hmax, rfl, rfl⟩ := hlast _ _ _ hk
    refine ⟨hmax, ?_⟩
    rw [writeCompactSize, if_neg (by omega), if_pos (by omega), h₂, List.append_nil]
  · obtain ⟨m, bs₂, hle, hlt, rfl, hk⟩ := reads_checked (hw 4 (by omega)) hrest
    obtain ⟨hmax, rfl, rfl⟩ := hlast _ _ _ hk
    refine ⟨hmax, ?_⟩
    rw [writeCompactSize, if_neg (by omega), if_neg (by omega), if_pos (by omega), h₃,
      List.append_nil]
  · -- a size that needs eight bytes is above the maximum
    obtain ⟨m, bs₂, hle, -, rfl, hk⟩ := reads_checked (hw 8 le_rfl) hrest
    obtain ⟨hmax, -, -⟩ := hlast _ _ _ hk
    simp only [MAX_SIZE] at hmax
    omega

/-! ## Byte vectors and vectors -/

theorem accepts_readPieces (hl : maxPiece ≤ limit) (n : ℕ) :
    Recognizes limit (readPieces n) (Written (·.length = n) id) := by
  intro bs v
  constructor
  swap
  · rintro ⟨rfl, rfl⟩
    exact reads_readPieces hl bs
  induction n using Nat.strong_induction_on generalizing bs v with
  | _ n ih =>
    intro h
    rw [readPieces] at h
    by_cases hn : n = 0
    · rw [dif_pos hn] at h
      obtain ⟨rfl, rfl⟩ := reads_pure_iff.mp h
      exact ⟨hn.symm, rfl⟩
    · rw [dif_neg hn] at h
      set blk := min n maxPiece with hblk
      have hpos : blk ≠ 0 := by simp only [hblk, maxPiece]; omega
      obtain ⟨w, bs₁, bs₂, rfl, hw, hnext⟩ := reads_bind_iff.mp h
      obtain ⟨-, hlen, rfl⟩ := reads_query_iff.mp hw
      obtain ⟨_, bs₃, bs₄, rfl, hread, hpure⟩ := reads_bind_iff.mp hnext
      obtain ⟨rfl, rfl⟩ := reads_pure_iff.mp hpure
      obtain ⟨hrest, rfl⟩ := ih (n - blk) (by omega) _ _ hread
      refine ⟨show (w ++ bs₃).length = n from ?_, by rw [List.append_nil]; rfl⟩
      rw [List.length_append, hlen, hrest]
      omega

theorem accepts_unserializeBytes (hl : maxPiece ≤ limit) :
    Recognizes limit unserializeBytes (Written (·.length ≤ MAX_SIZE) serializeBytes) := by
  intro bs v
  constructor
  · intro h
    obtain ⟨n, bs₁, bs₂, rfl, hsize, hv⟩ := reads_bind_iff.mp h
    obtain ⟨hn, rfl⟩ := (accepts_readCompactSize hl _ _).mp hsize
    obtain ⟨rfl, rfl⟩ := (accepts_readPieces hl _ _ _).mp hv
    exact ⟨hn, rfl⟩
  · rintro ⟨hv, rfl⟩
    exact reads_unserializeBytes hl hv

/-- The format of a vector whose elements have the format `F`. -/
def VectorForm {α : Type} (F : α → Bytes → Prop) (v : List α) (bs : Bytes) : Prop :=
  v.length ≤ MAX_SIZE ∧ ∃ pieces : List Bytes, bs = writeCompactSize v.length ++ pieces.flatten ∧
    List.Forall₂ F v pieces

theorem accepts_unserializeVector (hl : maxPiece ≤ limit) {α : Type} {elem : Decoder α}
    {F : α → Bytes → Prop} (h : Recognizes limit elem F) :
    Recognizes limit (unserializeVector elem) (VectorForm F) := by
  intro bs v
  rw [unserializeVector, reads_bind_iff]
  simp only [accepts_readCompactSize hl _ _, h.readMany _ _ _, Written]
  constructor
  · rintro ⟨n, bs₁, bs₂, rfl, ⟨hn, rfl⟩, rfl, pieces, rfl, hpieces⟩
    exact ⟨hn, pieces, rfl, hpieces⟩
  · rintro ⟨hv, pieces, rfl, hpieces⟩
    exact ⟨_, _, _, rfl, ⟨hv, rfl⟩, rfl, pieces, rfl, hpieces⟩

/-- A vector whose elements have one form each. -/
theorem accepts_unserializeVector_written (hl : maxPiece ≤ limit) {α : Type} {elem : Decoder α}
    {Q : α → Prop} {enc : α → Bytes} (h : Recognizes limit elem (Written Q enc)) :
    Recognizes limit (unserializeVector elem)
      (Written (fun v => v.length ≤ MAX_SIZE ∧ ∀ a ∈ v, Q a) (serializeVector enc)) := by
  intro bs v
  rw [accepts_unserializeVector hl h bs v]
  simp only [VectorForm, forall₂_written_iff, Written]
  constructor
  · rintro ⟨hlen, pieces, rfl, hv, rfl⟩
    exact ⟨⟨hlen, hv⟩, by rw [serializeVector, List.flatMap_def]⟩
  · rintro ⟨⟨hlen, hv⟩, rfl⟩
    exact ⟨hlen, v.map enc, by rw [serializeVector, List.flatMap_def], hv, rfl⟩

/-! ## The records -/

theorem UInt256.accepts_unserialize (hl : maxPiece ≤ limit) :
    Recognizes limit unserialize (Written (fun _ => True) serialize) := by
  intro bs a
  constructor
  · intro h
    simp only [unserialize, reads_bind_iff, reads_query_iff, reads_pure_iff] at h
    obtain ⟨bs', _, _, rfl, ⟨-, hlen, rfl⟩, rfl, rfl⟩ := h
    refine ⟨trivial, ?_⟩
    rw [dif_pos hlen, List.append_nil, serialize]
  · rintro ⟨-, rfl⟩
    exact reads_unserialize hl a

theorem accepts_unserializeInt32 (hl : maxPiece ≤ limit) :
    Recognizes limit unserializeInt32 (Written (fun _ => True) serializeInt32) := by
  intro bs a
  constructor
  · intro h
    simp only [unserializeInt32, reads_bind_iff, reads_pure_iff, accepts_serReaddata32 hl _ _,
      Written] at h
    obtain ⟨obj, _, _, rfl, ⟨-, rfl⟩, rfl, rfl⟩ := h
    simp [Written, serializeInt32]
  · rintro ⟨-, rfl⟩
    exact reads_unserializeInt32 hl a

theorem accepts_unserializeInt64 (hl : maxPiece ≤ limit) :
    Recognizes limit unserializeInt64 (Written (fun _ => True) serializeInt64) := by
  intro bs a
  constructor
  · intro h
    simp only [unserializeInt64, reads_bind_iff, reads_pure_iff, accepts_serReaddata64 hl _ _,
      Written] at h
    obtain ⟨obj, _, _, rfl, ⟨-, rfl⟩, rfl, rfl⟩ := h
    simp [Written, serializeInt64]
  · rintro ⟨-, rfl⟩
    exact reads_unserializeInt64 hl a

theorem COutPoint.accepts_unserialize (hl : maxPiece ≤ limit) :
    Recognizes limit unserialize (Written (fun _ => True) serialize) := by
  intro bs o
  constructor
  · intro h
    simp only [unserialize, reads_bind_iff, reads_pure_iff, UInt256.accepts_unserialize hl _ _,
      accepts_serReaddata32 hl _ _, Written] at h
    obtain ⟨hash, _, _, rfl, ⟨-, rfl⟩, n, _, _, rfl, ⟨-, rfl⟩, rfl, rfl⟩ := h
    simp [Written, serialize]
  · rintro ⟨-, rfl⟩
    exact reads_unserialize hl o

/-- An input as it stands in a transaction, without its witness. -/
def CTxIn.Plain (i : CTxIn) : Prop := i.scriptSig.length ≤ MAX_SIZE ∧ i.scriptWitness = []

theorem CTxIn.accepts_unserialize (hl : maxPiece ≤ limit) :
    Recognizes limit unserialize (Written Plain serialize) := by
  intro bs i
  constructor
  · intro h
    simp only [unserialize, reads_bind_iff, reads_pure_iff, COutPoint.accepts_unserialize hl _ _,
      accepts_unserializeBytes hl _ _, accepts_serReaddata32 hl _ _, Written] at h
    obtain ⟨prevout, _, _, rfl, ⟨-, rfl⟩, scriptSig, _, _, rfl, ⟨hlen, rfl⟩, nSequence, _, _, rfl,
      ⟨-, rfl⟩, rfl, rfl⟩ := h
    exact ⟨⟨hlen, rfl⟩, by simp [serialize]⟩
  · rintro ⟨⟨hlen, hstack⟩, rfl⟩
    have hi : i.stripped = i := by rw [stripped, ← hstack]
    have h := reads_unserialize hl hlen
    rwa [hi] at h

theorem CTxIn.accepts_unserializeWitness (hl : maxPiece ≤ limit) :
    Recognizes limit unserializeWitness (Written
      (fun stack => stack.length ≤ MAX_SIZE ∧ ∀ w ∈ stack, w.length ≤ MAX_SIZE)
      (serializeVector serializeBytes)) :=
  accepts_unserializeVector_written hl (accepts_unserializeBytes hl)

theorem CTxOut.accepts_unserialize (hl : maxPiece ≤ limit) :
    Recognizes limit unserialize (Written (·.scriptPubKey.length ≤ MAX_SIZE) serialize) := by
  intro bs o
  constructor
  · intro h
    simp only [unserialize, reads_bind_iff, reads_pure_iff, accepts_unserializeInt64 hl _ _,
      accepts_unserializeBytes hl _ _, Written] at h
    obtain ⟨nValue, _, _, rfl, ⟨-, rfl⟩, scriptPubKey, _, _, rfl, ⟨hlen, rfl⟩, rfl, rfl⟩ := h
    exact ⟨hlen, by simp [serialize]⟩
  · rintro ⟨hlen, rfl⟩
    exact reads_unserialize hl hlen

theorem CBlockHeader.accepts_unserialize (hl : maxPiece ≤ limit) :
    Recognizes limit unserialize (Written (fun _ => True) serialize) := by
  intro bs header
  constructor
  · intro h
    simp only [unserialize, reads_bind_iff, reads_pure_iff, accepts_unserializeInt32 hl _ _,
      UInt256.accepts_unserialize hl _ _, accepts_serReaddata32 hl _ _, Written] at h
    obtain ⟨nVersion, _, _, rfl, ⟨-, rfl⟩, hashPrevBlock, _, _, rfl, ⟨-, rfl⟩, hashMerkleRoot, _, _,
      rfl, ⟨-, rfl⟩, nTime, _, _, rfl, ⟨-, rfl⟩, nBits, _, _, rfl, ⟨-, rfl⟩, nNonce, _, _, rfl,
      ⟨-, rfl⟩, rfl, rfl⟩ := h
    simp [Written, serialize]
  · rintro ⟨-, rfl⟩
    exact reads_unserialize hl header

/-! ## Transactions -/

/-- A witness that is within the limits. -/
def CTxIn.WitnessFits (i : CTxIn) : Prop :=
  i.scriptWitness.length ≤ MAX_SIZE ∧ ∀ w ∈ i.scriptWitness, w.length ≤ MAX_SIZE

/-- The witnesses fill in the inputs, one after another. -/
theorem accepts_readWitnesses (hl : maxPiece ≤ limit) (vin : List CTxIn) :
    Recognizes limit (readWitnesses vin) (Written
      (fun vin' => vin'.map CTxIn.stripped = vin.map CTxIn.stripped ∧ ∀ i ∈ vin', i.WitnessFits)
      (List.flatMap CTxIn.serializeWitness)) := by
  intro bs vin'
  induction vin generalizing bs vin' with
  | nil =>
    rw [readWitnesses, reads_pure_iff]
    constructor
    · rintro ⟨rfl, rfl⟩
      exact ⟨⟨rfl, by simp⟩, rfl⟩
    · rintro ⟨⟨hmap, -⟩, rfl⟩
      obtain rfl := List.map_eq_nil_iff.mp hmap
      exact ⟨rfl, rfl⟩
  | cons i vin ih =>
    simp only [readWitnesses, reads_bind_iff, reads_pure_iff, ih,
      CTxIn.accepts_unserializeWitness hl _ _, Written]
    constructor
    · rintro ⟨stack, _, _, rfl, ⟨hstack, rfl⟩, vin', _, _, rfl, ⟨⟨hmap, hfits⟩, rfl⟩, rfl, rfl⟩
      refine ⟨⟨by simp [hmap, CTxIn.stripped], ?_⟩, by simp [CTxIn.serializeWitness]⟩
      rw [List.forall_mem_cons]
      exact ⟨hstack, hfits⟩
    · rintro ⟨⟨hmap, hfits⟩, rfl⟩
      obtain ⟨i', vin', rfl⟩ : ∃ i' vin₁, vin' = i' :: vin₁ := by
        cases vin' with
        | nil => simp at hmap
        | cons i' vin₁ => exact ⟨i', vin₁, rfl⟩
      rw [List.map_cons, List.map_cons, List.cons.injEq] at hmap
      rw [List.forall_mem_cons] at hfits
      have hi : { i with scriptWitness := i'.scriptWitness } = i' := by
        have h := hmap.1
        simp only [CTxIn.stripped, CTxIn.mk.injEq] at h
        rw [← h.1, ← h.2.1, ← h.2.2.1]
      exact ⟨_, _, _, rfl, ⟨hfits.1, rfl⟩, vin', _, [],
        (List.append_nil _).symm, ⟨⟨hmap.2, hfits.2⟩, rfl⟩, rfl, by rw [hi]⟩

namespace CTransaction

theorem accepts_vin (hl : maxPiece ≤ limit) :
    Recognizes limit (unserializeVector CTxIn.unserialize) (Written
      (fun vin => vin.length ≤ MAX_SIZE ∧ ∀ i ∈ vin, i.Plain) (serializeVector CTxIn.serialize)) :=
  accepts_unserializeVector_written hl (CTxIn.accepts_unserialize hl)

theorem accepts_vout (hl : maxPiece ≤ limit) :
    Recognizes limit (unserializeVector CTxOut.unserialize) (Written
      (fun vout => vout.length ≤ MAX_SIZE ∧ ∀ o ∈ vout, o.scriptPubKey.length ≤ MAX_SIZE)
      (serializeVector CTxOut.serialize)) :=
  accepts_unserializeVector_written hl (CTxOut.accepts_unserialize hl)

/-- The inputs and outputs of a transaction are within the limits, and without witnesses. -/
structure PlainInOut (vin : List CTxIn) (vout : List CTxOut) : Prop where
  vin_length : vin.length ≤ MAX_SIZE
  vin : ∀ i ∈ vin, i.Plain
  vout_length : vout.length ≤ MAX_SIZE
  vout : ∀ o ∈ vout, o.scriptPubKey.length ≤ MAX_SIZE

/-- The bytes of the inputs and outputs, after the empty vector and the flags if there are any. -/
def inOutBytes (flags : UInt8) (vin : List CTxIn) (vout : List CTxOut) : Bytes :=
  (if flags = 0 then [] else serializeVector CTxIn.serialize [] ++ serWritedata8 flags) ++
    (serializeVector CTxIn.serialize vin ++ serializeVector CTxOut.serialize vout)

theorem accepts_unserializeInOut (hl : maxPiece ≤ limit) {version : ℕ}
    (hv : fAllowWitness version = true) :
    Recognizes limit (unserializeInOut version) (Written
      (fun r => PlainInOut r.2.1 r.2.2 ∧ (r.1 = 0 → r.2.1 = [] → r.2.2 = []))
      fun r => inOutBytes r.1 r.2.1 r.2.2) := by
  rintro bs ⟨flags, vin, vout⟩
  rw [unserializeInOut, reads_bind_iff]
  constructor
  · rintro ⟨vin₁, bs₁, bs₂, rfl, hread, hrest⟩
    obtain ⟨⟨hlen, hplain⟩, rfl⟩ := (accepts_vin hl _ _).mp hread
    split_ifs at hrest with hempty
    · -- a dummy or an empty vin
      obtain rfl := List.length_eq_zero_iff.mp hempty.1
      obtain ⟨flags', bs₃, bs₄, rfl, hread', hrest'⟩ := reads_bind_iff.mp hrest
      obtain ⟨-, rfl⟩ := (accepts_serReaddata8 hl _ _).mp hread'
      split_ifs at hrest' with hflags
      · simp only [reads_bind_iff, reads_pure_iff, accepts_vin hl _ _, accepts_vout hl _ _,
          Written] at hrest'
        obtain ⟨vin₂, _, _, rfl, ⟨hvin, rfl⟩, vout₂, _, _, rfl, ⟨hvout, rfl⟩, rfl, heq⟩ := hrest'
        obtain ⟨rfl, rfl, rfl⟩ : flags' = flags ∧ vin₂ = vin ∧ vout₂ = vout := by simpa using heq
        refine ⟨⟨⟨hvin.1, hvin.2, hvout.1, hvout.2⟩, fun h => absurd h hflags⟩, ?_⟩
        simp [inOutBytes, hflags]
      · obtain ⟨rfl, heq⟩ := reads_pure_iff.mp hrest'
        obtain ⟨rfl, rfl, rfl⟩ : flags' = flags ∧ [] = vin ∧ [] = vout := by simpa using heq
        rw [not_not] at hflags
        subst hflags
        exact ⟨⟨⟨hlen, hplain, by simp, by simp⟩, fun _ _ => rfl⟩, rfl⟩
    · simp only [reads_bind_iff, reads_pure_iff, accepts_vout hl _ _, Written] at hrest
      obtain ⟨vout₂, _, _, rfl, ⟨hvout, rfl⟩, rfl, heq⟩ := hrest
      obtain ⟨rfl, rfl, rfl⟩ : 0 = flags ∧ vin₁ = vin ∧ vout₂ = vout := by simpa using heq
      refine ⟨⟨⟨hlen, hplain, hvout.1, hvout.2⟩, fun _ hvin => ?_⟩, by simp [inOutBytes]⟩
      exact absurd ⟨List.length_eq_zero_iff.mpr hvin, hv⟩ hempty
  · rintro ⟨⟨hplain, hnone⟩, rfl⟩
    have hvin := (accepts_vin hl _ _).mpr ⟨⟨hplain.vin_length, hplain.vin⟩, rfl⟩
    have hvout := (accepts_vout hl _ _).mpr ⟨⟨hplain.vout_length, hplain.vout⟩, rfl⟩
    have hempty := (accepts_vin hl _ []).mpr ⟨⟨Nat.zero_le _, by simp⟩, rfl⟩
    have hflags := (accepts_serReaddata8 hl _ flags).mpr ⟨trivial, rfl⟩
    by_cases h0 : flags = 0
    · subst h0
      by_cases hne : vin = []
      · subst hne
        obtain rfl := hnone rfl rfl
        refine ⟨[], serializeVector CTxIn.serialize [], serWritedata8 0, rfl, hempty, ?_⟩
        rw [if_pos ⟨rfl, hv⟩]
        refine hflags.bind_pure ?_
        rw [if_neg (by simp)]
      · refine ⟨vin, serializeVector CTxIn.serialize vin, serializeVector CTxOut.serialize vout,
          rfl, hvin, ?_⟩
        rw [if_neg (by simp [hne])]
        exact hvout.bind_pure rfl
    · refine ⟨[], serializeVector CTxIn.serialize [], serWritedata8 flags ++
        (serializeVector CTxIn.serialize vin ++ serializeVector CTxOut.serialize vout), ?_, hempty,
        ?_⟩
      · simp only [inOutBytes, if_neg h0, List.append_assoc]
      · rw [if_pos ⟨rfl, hv⟩]
        refine hflags.bind ?_
        rw [if_pos h0]
        exact hvin.bind (hvout.bind_pure rfl)

/-- What follows the inputs and outputs. Of the flags only the first is known. -/
theorem accepts_unserializeRest (hl : maxPiece ≤ limit) {version : ℕ}
    (hv : fAllowWitness version = true) (nVersion : Int32) (flags : UInt8) (vin : List CTxIn)
    (vout : List CTxOut) :
    Recognizes limit (unserializeRest version nVersion flags vin vout) fun tx bs =>
      (tx.nVersion = nVersion ∧ tx.vout = vout) ∧
      ((flags = 0 ∧ tx.vin = vin ∧ bs = serWritedata32 tx.nLockTime) ∨
      (flags = 1 ∧ tx.vin.map CTxIn.stripped = vin.map CTxIn.stripped ∧
        (∀ i ∈ tx.vin, i.WitnessFits) ∧
        bs = tx.vin.flatMap CTxIn.serializeWitness ++ serWritedata32 tx.nLockTime)) := by
  rintro bs ⟨nVersion', vin', vout', nLockTime⟩
  rw [unserializeRest, unserializeWitnesses]
  by_cases hbit : flags &&& 1 ≠ 0
  · have h0 : flags ≠ 0 := by
      rintro rfl
      exact hbit rfl
    rw [if_pos ⟨hbit, hv⟩]
    simp only [reads_bind_iff, reads_pure_iff, accepts_readWitnesses hl _ _ _, Written]
    constructor
    · rintro ⟨_, _, _, rfl, ⟨vin₁, _, _, rfl, ⟨⟨hmap, hfits⟩, rfl⟩, rfl, rfl⟩, hrest⟩
      dsimp only at hrest
      split_ifs at hrest with hflags
      · exact absurd hrest not_reads_fail
      · rw [not_not, UInt8.xor_eq_zero_iff] at hflags
        simp only [reads_bind_iff, reads_pure_iff, accepts_serReaddata32 hl _ _, Written] at hrest
        obtain ⟨n, _, _, rfl, ⟨-, rfl⟩, rfl, heq⟩ := hrest
        obtain ⟨rfl, rfl, rfl, rfl⟩ : nVersion = nVersion' ∧ vin₁ = vin' ∧ vout = vout' ∧
            n = nLockTime := by simpa using heq
        exact ⟨⟨rfl, rfl⟩, .inr ⟨hflags, hmap, hfits, by simp⟩⟩
    · rintro ⟨⟨rfl, rfl⟩, ⟨hflags, -⟩ | ⟨rfl, hmap, hfits, rfl⟩⟩
      · exact absurd hflags h0
      · refine ⟨_, _, _, rfl,
          ⟨vin', _, [], (List.append_nil _).symm, ⟨⟨hmap, hfits⟩, rfl⟩, rfl, rfl⟩, ?_⟩
        dsimp only
        rw [if_neg (by decide)]
        exact ((accepts_serReaddata32 hl _ _).mpr ⟨trivial, rfl⟩).bind_pure rfl
  · have h1 : flags ≠ 1 := by
      rintro rfl
      exact hbit (by decide)
    rw [if_neg (by simp only [hbit, false_and, not_false_eq_true])]
    simp only [reads_bind_iff, reads_pure_iff]
    constructor
    · rintro ⟨_, _, bs', rfl, ⟨rfl, rfl⟩, hrest⟩
      dsimp only at hrest
      split_ifs at hrest with hflags
      · exact absurd hrest not_reads_fail
      · simp only [reads_bind_iff, reads_pure_iff, accepts_serReaddata32 hl _ _, Written] at hrest
        obtain ⟨n, _, _, rfl, ⟨-, rfl⟩, rfl, heq⟩ := hrest
        obtain ⟨rfl, rfl, rfl, rfl⟩ : nVersion = nVersion' ∧ vin = vin' ∧ vout = vout' ∧
            n = nLockTime := by simpa using heq
        exact ⟨⟨rfl, rfl⟩, .inl ⟨not_not.mp hflags, rfl, by simp⟩⟩
    · rintro ⟨⟨rfl, rfl⟩, ⟨rfl, rfl, rfl⟩ | ⟨hflags, -⟩⟩
      · refine ⟨_, [], _, rfl, ⟨rfl, rfl⟩, ?_⟩
        dsimp only
        rw [if_neg (by decide)]
        exact ((accepts_serReaddata32 hl _ _).mpr ⟨trivial, rfl⟩).bind_pure rfl
      · exact absurd hflags h1

/-- The extended format, whether or not there are any witnesses. -/
def extended (tx : CTransaction) : Bytes :=
  serializeInt32 tx.nVersion ++ (inOutBytes 1 tx.vin tx.vout ++
    (tx.vin.flatMap CTxIn.serializeWitness ++ serWritedata32 tx.nLockTime))

/-- **The bytes that are accepted for a transaction**: what is hashed, if that is all there is to
it, or the extended format. Without inputs, outputs need the extended format. -/
inductive Form (tx : CTransaction) : Bytes → Prop
  | basic (valid : tx.Valid) (witness : tx.hasWitness = false)
      (empty : tx.vin = [] → tx.vout = []) :
      Form tx (tx.serialize SERIALIZE_TRANSACTION_NO_WITNESS)
  | extended (valid : tx.Valid) : Form tx tx.extended

theorem serialize_noWitness (tx : CTransaction) : tx.serialize SERIALIZE_TRANSACTION_NO_WITNESS =
    serializeInt32 tx.nVersion ++ (inOutBytes 0 tx.vin tx.vout ++ serWritedata32 tx.nLockTime) := by
  have hv : fAllowWitness SERIALIZE_TRANSACTION_NO_WITNESS = false := by decide
  simp [serialize, inOutBytes, hv]

theorem inOutBytes_stripped (flags : UInt8) (vin : List CTxIn) (vout : List CTxOut) :
    inOutBytes flags (vin.map CTxIn.stripped) vout = inOutBytes flags vin vout := by
  simp [inOutBytes, serializeVector, List.flatMap_map]

/-- What is read of a transaction, piece by piece, is within the limits exactly if it is. -/
theorem valid_iff (tx : CTransaction) : tx.Valid ↔
    PlainInOut (tx.vin.map CTxIn.stripped) tx.vout ∧ ∀ i ∈ tx.vin, i.WitnessFits := by
  constructor
  · intro h
    refine ⟨⟨by simpa using h.vin_length, ?_, h.vout_length, h.scriptPubKey⟩, fun i hi => ?_⟩
    · intro i hi
      obtain ⟨j, hj, rfl⟩ := List.mem_map.mp hi
      exact ⟨h.scriptSig j hj, rfl⟩
    · exact ⟨h.stack_length i hi, h.stack_item i hi⟩
  · rintro ⟨h, hfits⟩
    refine ⟨by simpa using h.vin_length, h.vout_length, fun i hi => ?_, h.vout,
      fun i hi => (hfits i hi).1, fun i hi => (hfits i hi).2⟩
    exact (h.vin i.stripped (List.mem_map_of_mem hi)).1

theorem stripped_of_plain {vin : List CTxIn} (h : ∀ i ∈ vin, i.Plain) :
    vin.map CTxIn.stripped = vin := by
  conv_rhs => rw [← List.map_id vin]
  refine List.map_congr_left fun i hi => ?_
  rw [CTxIn.stripped, ← (h i hi).2, id]

/-- **The decoder accepts these bytes, and no others.** -/
theorem accepts_unserialize (hl : maxPiece ≤ limit) {version : ℕ}
    (hv : fAllowWitness version = true) : Recognizes limit (unserialize version) Form := by
  intro bs tx
  simp only [unserialize, reads_bind_iff, accepts_unserializeInt32 hl _ _,
    accepts_unserializeInOut hl hv _ _, accepts_unserializeRest hl hv _ _ _ _ _ _, Written]
  constructor
  · rintro ⟨nVersion, _, _, rfl, ⟨-, rfl⟩, ⟨flags, vin, vout⟩, _, _, rfl, ⟨⟨hplain, hnone⟩, rfl⟩,
      ⟨rfl, rfl⟩, hrest⟩
    obtain ⟨rfl, rfl, rfl⟩ | ⟨rfl, hmap, hfits, rfl⟩ := hrest
    · have hstack (i : CTxIn) (hi : i ∈ tx.vin) : i.scriptWitness = [] := (hplain.vin i hi).2
      rw [← serialize_noWitness]
      refine .basic ((valid_iff tx).mpr ⟨?_, fun i hi => ?_⟩) ?_ (hnone rfl)
      · rwa [stripped_of_plain hplain.vin]
      · simp [CTxIn.WitnessFits, hstack i hi]
      · rw [hasWitness, List.any_eq_false]
        exact fun i hi => by simp [hstack i hi]
    · rw [stripped_of_plain hplain.vin] at hmap
      subst hmap
      rw [inOutBytes_stripped]
      exact .extended ((valid_iff tx).mpr ⟨hplain, hfits⟩)
  · rintro (⟨hvalid, hwitness, hempty⟩ | hvalid)
    · obtain ⟨hplain, -⟩ := (valid_iff tx).mp hvalid
      rw [stripped_of_not_hasWitness hwitness] at hplain
      exact ⟨_, _, _, serialize_noWitness tx, ⟨trivial, rfl⟩, (0, tx.vin, tx.vout), _, _, rfl,
        ⟨⟨hplain, fun _ => hempty⟩, rfl⟩, ⟨rfl, rfl⟩, .inl ⟨rfl, rfl, rfl⟩⟩
    · obtain ⟨hplain, hfits⟩ := (valid_iff tx).mp hvalid
      refine ⟨_, _, _, rfl, ⟨trivial, rfl⟩, (1, tx.vin.map CTxIn.stripped, tx.vout), _, _, ?_,
        ⟨⟨hplain, fun h => absurd h (by simp)⟩, rfl⟩, ⟨rfl, rfl⟩, .inr ⟨rfl, ?_, hfits, rfl⟩⟩
      · rw [inOutBytes_stripped]
      · simp [Function.comp_def, CTxIn.stripped]

end CTransaction

/-! ## Blocks -/

namespace CBlock

/-- **The bytes that are accepted for a block**: the header, and a form of every transaction. -/
def Form (b : CBlock) (bs : Bytes) : Prop :=
  ∃ txs, bs = b.header.serialize ++ txs ∧ VectorForm CTransaction.Form b.vtx txs

/-- **The decoder accepts these bytes, and no others.** -/
theorem accepts_unserialize (hl : maxPiece ≤ limit) {version : ℕ}
    (hv : fAllowWitness version = true) : Recognizes limit (unserialize version) Form := by
  rintro bs ⟨header, vtx⟩
  simp only [unserialize, reads_bind_iff, reads_pure_iff, CBlockHeader.accepts_unserialize hl _ _,
    accepts_unserializeVector hl (CTransaction.accepts_unserialize hl hv) _ _, Written, Form]
  constructor
  · rintro ⟨header', _, _, rfl, ⟨-, rfl⟩, vtx', _, _, rfl, hvtx, rfl, heq⟩
    obtain ⟨rfl, rfl⟩ : header' = header ∧ vtx' = vtx := by simpa using heq
    exact ⟨_, by rw [List.append_nil], hvtx⟩
  · rintro ⟨txs, rfl, hvtx⟩
    exact ⟨header, _, _, rfl, ⟨trivial, rfl⟩, vtx, txs, [], (List.append_nil _).symm, hvtx, rfl,
      rfl⟩

/-- **A block that is decoded stands in front of the input**, in one of its forms. -/
theorem decode_iff (hl : maxPiece ≤ limit) {version : ℕ} (hv : fAllowWitness version = true)
    {bs rest : Bytes} {b : CBlock} :
    (unserialize version).run (readBytes .endOfFile .bufferSize limit) bs = (.ok b, rest) ↔
      ∃ bs', bs = bs' ++ rest ∧ b.Form bs' :=
  (accepts_unserialize hl hv).run_iff

/-- The extended format of a block of one transaction, which has no witnesses. -/
theorem decode_iff_superfluous : ∃ b : CBlock,
    (unserialize PROTOCOL_VERSION).run (readBytes .endOfFile .bufferSize maxPiece)
      (List.replicate 80 0 ++ [1] ++ [2, 0, 0, 0, 0, 1, 0, 0] ++ [0, 0, 0, 0] ++ [7]) =
        (.ok b, [7]) ∧ b.vtx.any CTransaction.hasWitness = false := by
  let tx : CTransaction := ⟨2, [], [], 0⟩
  have hform : Form ⟨⟨0, .zero, .zero, 0, 0, 0⟩, [tx]⟩
      (List.replicate 80 0 ++ [1] ++ [2, 0, 0, 0, 0, 1, 0, 0] ++ [0, 0, 0, 0]) :=
    ⟨[1] ++ tx.extended, by decide +kernel, by decide, [tx.extended], rfl,
      .cons (.extended ⟨by decide, by decide, by simp [tx], by simp [tx], by simp [tx],
        by simp [tx]⟩) .nil⟩
  exact ⟨_, (decode_iff le_rfl (by decide)).mpr ⟨_, rfl, hform⟩, rfl⟩

variable {b b' : CBlock} {bs rest : Bytes}

/-- **The bytes tell the block, and where it ends.** -/
theorem Form.unique (h : b.Form bs) (h' : b'.Form (bs ++ rest)) : rest = [] ∧ b = b' := by
  have haccepts : Recognizes maxPiece (unserialize PROTOCOL_VERSION) Form :=
    accepts_unserialize le_rfl (by decide)
  exact ((haccepts _ _).mpr h).prefix_free ((haccepts _ _).mpr h')

/-- The header is what stands in the first 80 bytes. -/
theorem Form.take_header (h : b.Form bs) : bs.take 80 = b.header.serialize := by
  obtain ⟨txs, rfl, -⟩ := h
  exact List.take_left' (CBlockHeader.length_serialize _)

end CBlock

end ElectrumZ.Bitcoin
