import ElectrumZ.Bitcoin.Serialize

/-!
# Transactions and blocks

The records of `transaction.h` and `block.h` with their serializations, and the decoders that
undo them.

* `CTransaction` is written with its witnesses or without them, as the stream's version says
  (`fAllowWitness`); `HasWitness` picks the extended format.
* `reads_unserializeTransaction`: under a version that allows witnesses, a transaction with at
  least one input is read back as it was written, in either format. Without inputs it is not: the
  empty `vin` is what marks the extended format.
* `reads_unserializeBlock`: the same for a block.

`CTransaction.Valid` and `CBlock.Valid` say that all counts and scripts are within `MAX_SIZE`.
-/

namespace ElectrumZ.Bitcoin

open Foundations

/-- A 256-bit blob: 32 bytes. -/
structure UInt256 where
  data : Bytes
  size_eq : data.length = 32
  deriving DecidableEq, Repr

namespace UInt256

theorem ext {a b : UInt256} (h : a.data = b.data) : a = b := by
  cases a
  cases b
  simpa using h

/-- 32 zero bytes. -/
def zero : UInt256 := ⟨List.replicate 32 0, rfl⟩

instance : Inhabited UInt256 := ⟨zero⟩

/-- `IsNull`. -/
def isNull (a : UInt256) : Bool := a.data.all (· == 0)

/-- The bytes as they are. -/
def serialize (a : UInt256) : Bytes := a.data

@[simp] theorem length_serialize (a : UInt256) : a.serialize.length = 32 := a.size_eq

/-- `s.read` fills the 32 bytes of the blob. -/
def unserialize : Decoder UInt256 := do
  let bs ← Dialog.query 32
  return if h : bs.length = 32 then ⟨bs, h⟩ else zero

theorem reads_unserialize {limit : ℕ} (hl : maxPiece ≤ limit) (a : UInt256) :
    Decodes limit unserialize a.serialize a := by
  refine (reads_query a.size_eq (by simp only [maxPiece] at hl; omega)).bind_pure ?_
  rw [dif_pos a.size_eq]

end UInt256

/-! ## The records -/

/-- An output, named by its transaction and its place there. -/
structure COutPoint where
  hash : UInt256
  n : UInt32
  deriving DecidableEq, Repr

/-- `NULL_INDEX` of the source. -/
def COutPoint.NULL_INDEX : UInt32 := 0xffffffff

/-- `IsNull`. It names no output. -/
def COutPoint.isNull (o : COutPoint) : Bool := o.hash.isNull && o.n == COutPoint.NULL_INDEX

/-- What `COutPoint()` builds. -/
def COutPoint.null : COutPoint := ⟨.zero, COutPoint.NULL_INDEX⟩

/-- An input, which spends the output `prevout`. -/
structure CTxIn where
  prevout : COutPoint
  scriptSig : Bytes
  nSequence : UInt32
  /-- `scriptWitness.stack` of the source, serialized with the transaction only. -/
  scriptWitness : List Bytes
  deriving DecidableEq, Repr

/-- An output: an amount, and the script that it pays to. -/
structure CTxOut where
  nValue : Int64
  scriptPubKey : Bytes
  deriving DecidableEq, Repr

/-- A transaction. -/
structure CTransaction where
  nVersion : Int32
  vin : List CTxIn
  vout : List CTxOut
  nLockTime : UInt32
  deriving DecidableEq, Repr

/-- The 80 bytes in front of a block's transactions. -/
structure CBlockHeader where
  nVersion : Int32
  hashPrevBlock : UInt256
  hashMerkleRoot : UInt256
  nTime : UInt32
  nBits : UInt32
  nNonce : UInt32
  deriving DecidableEq, Repr

/-- A block: its header, and its transactions. -/
structure CBlock where
  header : CBlockHeader
  vtx : List CTransaction
  deriving DecidableEq, Repr

/-- `HasWitness`: some input has one. -/
def CTransaction.hasWitness (tx : CTransaction) : Bool :=
  tx.vin.any fun i => !i.scriptWitness.isEmpty

variable {limit : ℕ}

/-! ## Inputs and outputs -/

/-- `READWRITE` of an `int32_t`. -/
def serializeInt32 (a : Int32) : Bytes := serWritedata32 a.toUInt32

/-- `READWRITE` of an `int32_t` that is read. -/
def unserializeInt32 : Decoder Int32 := do
  let obj ← serReaddata32
  return obj.toInt32

/-- `READWRITE` of an `int64_t`, such as a `CAmount`. -/
def serializeInt64 (a : Int64) : Bytes := serWritedata64 a.toUInt64

/-- `READWRITE` of an `int64_t` that is read. -/
def unserializeInt64 : Decoder Int64 := do
  let obj ← serReaddata64
  return obj.toInt64

theorem reads_unserializeInt32 (hl : maxPiece ≤ limit) (a : Int32) :
    Decodes limit unserializeInt32 (serializeInt32 a) a :=
  (reads_serReaddata32 hl _).bind_pure (by rw [Int32.toInt32_toUInt32])

theorem reads_unserializeInt64 (hl : maxPiece ≤ limit) (a : Int64) :
    Decodes limit unserializeInt64 (serializeInt64 a) a :=
  (reads_serReaddata64 hl _).bind_pure (by rw [Int64.toInt64_toUInt64])

namespace COutPoint

/-- The hash, and the place. -/
def serialize (o : COutPoint) : Bytes := o.hash.serialize ++ serWritedata32 o.n

/-- The same, read. -/
def unserialize : Decoder COutPoint := do
  let hash ← UInt256.unserialize
  let n ← serReaddata32
  return ⟨hash, n⟩

@[simp] theorem length_serialize (o : COutPoint) : o.serialize.length = 36 := by
  simp [serialize]

theorem reads_unserialize (hl : maxPiece ≤ limit) (o : COutPoint) :
    Decodes limit unserialize o.serialize o :=
  (UInt256.reads_unserialize hl o.hash).bind ((reads_serReaddata32 hl o.n).bind_pure rfl)

end COutPoint

namespace CTxIn

/-- The output that is spent, the script, and the sequence number. -/
def serialize (i : CTxIn) : Bytes :=
  i.prevout.serialize ++ (serializeBytes i.scriptSig ++ serWritedata32 i.nSequence)

/-- The witness is not part of an input's own serialization. -/
def unserialize : Decoder CTxIn := do
  let prevout ← COutPoint.unserialize
  let scriptSig ← unserializeBytes
  let nSequence ← serReaddata32
  return ⟨prevout, scriptSig, nSequence, []⟩

/-- The input as its own serialization carries it. -/
def stripped (i : CTxIn) : CTxIn := { i with scriptWitness := [] }

@[simp] theorem serialize_stripped (i : CTxIn) : i.stripped.serialize = i.serialize := rfl

theorem reads_unserialize (hl : maxPiece ≤ limit) {i : CTxIn} (h : i.scriptSig.length ≤ MAX_SIZE) :
    Decodes limit unserialize i.serialize i.stripped :=
  (COutPoint.reads_unserialize hl i.prevout).bind
    ((reads_unserializeBytes hl h).bind ((reads_serReaddata32 hl i.nSequence).bind_pure rfl))

/-- `scriptWitness.stack` on the wire. -/
def serializeWitness (i : CTxIn) : Bytes := serializeVector serializeBytes i.scriptWitness

/-- The same, read. -/
def unserializeWitness : Decoder (List Bytes) := unserializeVector unserializeBytes

end CTxIn

namespace CTxOut

/-- The amount, and the script. -/
def serialize (o : CTxOut) : Bytes := serializeInt64 o.nValue ++ serializeBytes o.scriptPubKey

/-- The same, read. -/
def unserialize : Decoder CTxOut := do
  let nValue ← unserializeInt64
  let scriptPubKey ← unserializeBytes
  return ⟨nValue, scriptPubKey⟩

theorem reads_unserialize (hl : maxPiece ≤ limit) {o : CTxOut}
    (h : o.scriptPubKey.length ≤ MAX_SIZE) : Decodes limit unserialize o.serialize o :=
  (reads_unserializeInt64 hl o.nValue).bind ((reads_unserializeBytes hl h).bind_pure rfl)

end CTxOut

/-! ## Transactions -/

/-- The protocol version the block files are read with. -/
def PROTOCOL_VERSION : ℕ := 70015

/-- The bit of a version that leaves the witnesses out. -/
def SERIALIZE_TRANSACTION_NO_WITNESS : ℕ := 0x40000000

/-- Whether streams of this version carry witnesses. -/
def fAllowWitness (version : ℕ) : Bool := version &&& SERIALIZE_TRANSACTION_NO_WITNESS == 0

/-- Fill in the witnesses of the inputs, in order. -/
def readWitnesses : List CTxIn → Decoder (List CTxIn)
  | [] => pure []
  | i :: vin => do
    let stack ← CTxIn.unserializeWitness
    let vin ← readWitnesses vin
    return { i with scriptWitness := stack } :: vin

namespace CTransaction

/-- `SerializeTransaction`. The extended format, with an empty list of inputs and the flags in
front, is for transactions with witnesses. -/
def serialize (version : ℕ) (tx : CTransaction) : Bytes :=
  let extended := fAllowWitness version && tx.hasWitness
  serializeInt32 tx.nVersion ++
    ((if extended then serializeVector CTxIn.serialize [] ++ serWritedata8 1 else []) ++
      (serializeVector CTxIn.serialize tx.vin ++
        (serializeVector CTxOut.serialize tx.vout ++
          ((if extended then tx.vin.flatMap CTxIn.serializeWitness else []) ++
            serWritedata32 tx.nLockTime))))

/-- The inputs and outputs with the flags byte, which is 0 in the basic format. -/
def unserializeInOut (version : ℕ) : Decoder (UInt8 × List CTxIn × List CTxOut) := do
  let vin ← unserializeVector CTxIn.unserialize
  if vin.length = 0 ∧ fAllowWitness version then do
    -- a dummy or an empty vin
    let flags ← serReaddata8
    if flags ≠ 0 then do
      let vin ← unserializeVector CTxIn.unserialize
      let vout ← unserializeVector CTxOut.unserialize
      return (flags, vin, vout)
    else return (flags, vin, [])
  else do
    let vout ← unserializeVector CTxOut.unserialize
    return (0, vin, vout)

/-- The witnesses, when the flags announce them; their bit is cleared. -/
def unserializeWitnesses (version : ℕ) (flags : UInt8) (vin : List CTxIn) :
    Decoder (UInt8 × List CTxIn) :=
  if flags &&& 1 ≠ 0 ∧ fAllowWitness version then do
    let vin ← readWitnesses vin
    return (flags ^^^ 1, vin)
  else pure (flags, vin)

/-- The witnesses and the lock time. A flag left over is unknown optional data. -/
def unserializeRest (version : ℕ) (nVersion : Int32) (flags : UInt8) (vin : List CTxIn)
    (vout : List CTxOut) : Decoder CTransaction := do
  let (flags, vin) ← unserializeWitnesses version flags vin
  if flags ≠ 0 then .fail .unknownOptionalData
  else do
    let nLockTime ← serReaddata32
    return ⟨nVersion, vin, vout, nLockTime⟩

/-- `UnserializeTransaction`. -/
def unserialize (version : ℕ) : Decoder CTransaction := do
  let nVersion ← unserializeInt32
  let (flags, vin, vout) ← unserializeInOut version
  unserializeRest version nVersion flags vin vout

/-- A transaction that is read has at most `MAX_SIZE` outputs. -/
theorem ensures_unserialize (version : ℕ) :
    (unserialize version).Ensures fun tx => tx.vout.length ≤ MAX_SIZE := by
  have hvout : (unserializeVector CTxOut.unserialize).Ensures fun vout =>
      vout.length ≤ MAX_SIZE :=
    (ensures_unserializeVector (Dialog.ensures_true _)).mono fun _ h => h.1
  have hinOut : (unserializeInOut version).Ensures fun r => r.2.2.length ≤ MAX_SIZE := by
    unfold unserializeInOut
    refine Dialog.ensures_bind fun vin => ?_
    split_ifs
    · refine Dialog.ensures_bind fun flags => ?_
      split_ifs
      · exact Dialog.ensures_bind fun vin => hvout.bind fun vout h => h
      · exact Nat.zero_le _
    · exact hvout.bind fun vout h => h
  refine Dialog.ensures_bind fun nVersion => hinOut.bind fun r hr => ?_
  refine Dialog.ensures_bind fun q => ?_
  dsimp only
  split_ifs
  · trivial
  · exact Dialog.ensures_bind fun nLockTime => hr

/-- All counts and scripts are within `MAX_SIZE`. -/
structure Valid (tx : CTransaction) : Prop where
  vin_length : tx.vin.length ≤ MAX_SIZE
  vout_length : tx.vout.length ≤ MAX_SIZE
  scriptSig : ∀ i ∈ tx.vin, i.scriptSig.length ≤ MAX_SIZE
  scriptPubKey : ∀ o ∈ tx.vout, o.scriptPubKey.length ≤ MAX_SIZE
  stack_length : ∀ i ∈ tx.vin, i.scriptWitness.length ≤ MAX_SIZE
  stack_item : ∀ i ∈ tx.vin, ∀ w ∈ i.scriptWitness, w.length ≤ MAX_SIZE

variable {tx : CTransaction}

theorem reads_vin (hl : maxPiece ≤ limit) (h : tx.Valid) :
    Decodes limit (unserializeVector CTxIn.unserialize) (serializeVector CTxIn.serialize tx.vin)
      (tx.vin.map CTxIn.stripped) := by
  have hread : Decodes limit (unserializeVector CTxIn.unserialize)
      (serializeVector CTxIn.serialize (tx.vin.map CTxIn.stripped))
      (tx.vin.map CTxIn.stripped) :=
    reads_unserializeVector hl (by simpa using h.vin_length) (by
      intro j hj
      obtain ⟨i, hi, rfl⟩ := List.mem_map.mp hj
      exact CTxIn.reads_unserialize hl (h.scriptSig i hi))
  rwa [show serializeVector CTxIn.serialize (tx.vin.map CTxIn.stripped) =
    serializeVector CTxIn.serialize tx.vin by
      simp [serializeVector, List.flatMap_map]] at hread

theorem reads_vout (hl : maxPiece ≤ limit) (h : tx.Valid) :
    Decodes limit (unserializeVector CTxOut.unserialize)
      (serializeVector CTxOut.serialize tx.vout) tx.vout :=
  reads_unserializeVector hl h.vout_length fun o ho =>
    CTxOut.reads_unserialize hl (h.scriptPubKey o ho)

theorem reads_readWitnesses (hl : maxPiece ≤ limit) (vin : List CTxIn)
    (hlen : ∀ i ∈ vin, i.scriptWitness.length ≤ MAX_SIZE)
    (hitem : ∀ i ∈ vin, ∀ w ∈ i.scriptWitness, w.length ≤ MAX_SIZE) :
    Decodes limit (readWitnesses (vin.map CTxIn.stripped)) (vin.flatMap CTxIn.serializeWitness)
      vin := by
  induction vin with
  | nil => exact reads_pure []
  | cons i vin ih =>
    rw [List.forall_mem_cons] at hlen hitem
    have hstack : Decodes limit CTxIn.unserializeWitness i.serializeWitness i.scriptWitness :=
      reads_unserializeVector hl hlen.1 fun w hw => reads_unserializeBytes hl (hitem.1 w hw)
    rw [List.flatMap_cons]
    exact hstack.bind ((ih hlen.2 hitem.2).bind_pure rfl)

theorem stripped_of_not_hasWitness (h : tx.hasWitness = false) :
    tx.vin.map CTxIn.stripped = tx.vin := by
  rw [hasWitness, List.any_eq_false] at h
  conv_rhs => rw [← List.map_id tx.vin]
  refine List.map_congr_left fun i hi => ?_
  have hi := h i hi
  simp only [Bool.not_eq_true', List.isEmpty_eq_false_iff, ne_eq, not_not] at hi
  rw [CTxIn.stripped, ← hi, id]

/-- **A transaction with inputs is read back as it was written**, with its witnesses, under any
version that allows them. -/
theorem reads_unserialize (hl : maxPiece ≤ limit) {version : ℕ} (hv : fAllowWitness version = true)
    (h : tx.Valid) (hne : tx.vin ≠ []) :
    Decodes limit (unserialize version) (tx.serialize version) tx := by
  have hmap : (tx.vin.map CTxIn.stripped).length ≠ 0 := by
    rwa [List.length_map, Ne, List.length_eq_zero_iff]
  unfold serialize unserialize
  simp only [hv, Bool.true_and]
  refine (reads_unserializeInt32 hl tx.nVersion).bind ?_
  by_cases hw : tx.hasWitness = true
  · -- the extended format: an empty vin, the flags, then both vectors and the witnesses
    simp only [hw, if_true]
    have hempty : Decodes limit (unserializeVector CTxIn.unserialize)
        (serializeVector CTxIn.serialize []) [] :=
      reads_unserializeVector hl (by simp [MAX_SIZE]) (by simp)
    have hinout : Decodes limit (unserializeInOut version)
        ((serializeVector CTxIn.serialize [] ++ serWritedata8 1) ++
          (serializeVector CTxIn.serialize tx.vin ++ serializeVector CTxOut.serialize tx.vout))
        (1, tx.vin.map CTxIn.stripped, tx.vout) := by
      rw [List.append_assoc]
      refine hempty.bind ?_
      rw [if_pos ⟨rfl, hv⟩]
      refine (reads_serReaddata8 hl 1).bind ?_
      rw [if_pos (by decide)]
      exact (reads_vin hl h).bind ((reads_vout hl h).bind_pure rfl)
    have hwit : Decodes limit (unserializeWitnesses version 1 (tx.vin.map CTxIn.stripped))
        (tx.vin.flatMap CTxIn.serializeWitness) (0, tx.vin) := by
      rw [unserializeWitnesses, if_pos ⟨by decide, hv⟩]
      exact (reads_readWitnesses hl tx.vin h.stack_length h.stack_item).bind_pure rfl
    have hrest : Decodes limit
        (unserializeRest version tx.nVersion 1 (tx.vin.map CTxIn.stripped) tx.vout)
        (tx.vin.flatMap CTxIn.serializeWitness ++ serWritedata32 tx.nLockTime) tx := by
      refine hwit.bind ?_
      show Decodes limit (if (0 : UInt8) ≠ 0 then _ else _) _ _
      rw [if_neg (by decide)]
      exact (reads_serReaddata32 hl tx.nLockTime).bind_pure rfl
    have hall := hinout.bind (f := fun x => unserializeRest version tx.nVersion x.1 x.2.1 x.2.2)
      hrest
    simpa only [List.append_assoc] using hall
  · -- the basic format
    rw [Bool.not_eq_true] at hw
    simp only [hw, Bool.false_eq_true, if_false, List.nil_append]
    have hinout : Decodes limit (unserializeInOut version)
        (serializeVector CTxIn.serialize tx.vin ++ serializeVector CTxOut.serialize tx.vout)
        (0, tx.vin, tx.vout) := by
      have hvin := reads_vin hl h
      rw [stripped_of_not_hasWitness hw] at hvin hmap
      refine hvin.bind ?_
      rw [if_neg (by simp only [hmap, false_and, not_false_eq_true])]
      exact (reads_vout hl h).bind_pure rfl
    have hrest : Decodes limit (unserializeRest version tx.nVersion 0 tx.vin tx.vout)
        (serWritedata32 tx.nLockTime) tx := by
      rw [unserializeRest, unserializeWitnesses, if_neg (by simp)]
      have hnone : Decodes limit (pure ((0 : UInt8), tx.vin)) [] (0, tx.vin) := reads_pure _
      refine hnone.bind ?_
      show Decodes limit (if (0 : UInt8) ≠ 0 then _ else _) _ _
      rw [if_neg (by decide)]
      exact (reads_serReaddata32 hl tx.nLockTime).bind_pure rfl
    have hall := hinout.bind (f := fun x => unserializeRest version tx.nVersion x.1 x.2.1 x.2.2)
      hrest
    simpa only [List.append_assoc] using hall

end CTransaction

/-! ## Blocks -/

namespace CBlockHeader

/-- One field after another. -/
def serialize (h : CBlockHeader) : Bytes :=
  serializeInt32 h.nVersion ++ (h.hashPrevBlock.serialize ++ (h.hashMerkleRoot.serialize ++
    (serWritedata32 h.nTime ++ (serWritedata32 h.nBits ++ serWritedata32 h.nNonce))))

/-- The same, read. -/
def unserialize : Decoder CBlockHeader := do
  let nVersion ← unserializeInt32
  let hashPrevBlock ← UInt256.unserialize
  let hashMerkleRoot ← UInt256.unserialize
  let nTime ← serReaddata32
  let nBits ← serReaddata32
  let nNonce ← serReaddata32
  return ⟨nVersion, hashPrevBlock, hashMerkleRoot, nTime, nBits, nNonce⟩

@[simp] theorem length_serialize (h : CBlockHeader) : h.serialize.length = 80 := by
  simp [serialize, serializeInt32]

theorem reads_unserialize (hl : maxPiece ≤ limit) (h : CBlockHeader) :
    Decodes limit unserialize h.serialize h :=
  (reads_unserializeInt32 hl h.nVersion).bind <|
    (UInt256.reads_unserialize hl h.hashPrevBlock).bind <|
    (UInt256.reads_unserialize hl h.hashMerkleRoot).bind <|
    (reads_serReaddata32 hl h.nTime).bind <|
    (reads_serReaddata32 hl h.nBits).bind <|
    (reads_serReaddata32 hl h.nNonce).bind_pure rfl

end CBlockHeader

namespace CBlock

/-- The header, and the transactions. -/
def serialize (version : ℕ) (b : CBlock) : Bytes :=
  b.header.serialize ++ serializeVector (CTransaction.serialize version) b.vtx

/-- The same, read. -/
def unserialize (version : ℕ) : Decoder CBlock := do
  let header ← CBlockHeader.unserialize
  let vtx ← unserializeVector (CTransaction.unserialize version)
  return ⟨header, vtx⟩

/-- Every transaction has an input, and all counts and scripts are within `MAX_SIZE`. -/
structure Valid (b : CBlock) : Prop where
  vtx_length : b.vtx.length ≤ MAX_SIZE
  tx : ∀ tx ∈ b.vtx, tx.Valid
  vin_ne : ∀ tx ∈ b.vtx, tx.vin ≠ []

/-- **A valid block is read back as it was written.** -/
theorem reads_unserialize (hl : maxPiece ≤ limit) {version : ℕ} (hv : fAllowWitness version = true)
    {b : CBlock} (h : b.Valid) : Decodes limit (unserialize version) (b.serialize version) b :=
  (CBlockHeader.reads_unserialize hl b.header).bind <|
    (reads_unserializeVector hl h.vtx_length fun tx htx =>
      CTransaction.reads_unserialize hl hv (h.tx tx htx) (h.vin_ne tx htx)).bind_pure rfl

/-- So has every transaction of a block that is read. -/
theorem ensures_unserialize (version : ℕ) :
    (unserialize version).Ensures fun b => ∀ tx ∈ b.vtx, tx.vout.length ≤ MAX_SIZE :=
  Dialog.ensures_bind fun _ =>
    (ensures_unserializeVector (CTransaction.ensures_unserialize version)).bind fun _ h => h.2

theorem length_serialize_ge (version : ℕ) (b : CBlock) : 80 ≤ (b.serialize version).length := by
  rw [serialize, List.length_append, CBlockHeader.length_serialize]
  omega

end CBlock

end ElectrumZ.Bitcoin
