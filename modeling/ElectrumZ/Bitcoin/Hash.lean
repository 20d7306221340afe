import ElectrumZ.Bitcoin.Transaction

/-!
# Hashes of blocks and transactions

`SHash` and `Hash` of `hash.h`, the single and the double SHA-256, over a digest function that is
a parameter. A transaction is hashed without its witnesses, a block by its header.

* `CTransaction.reads_unserialize_noWitness`: the serialization that is hashed determines the
  transaction up to its witnesses, hence its outputs (`vout_eq_of_serialize_eq`).
* `HashInj` says that the transactions of a list are told apart by their hashes; then equal
  hashes mean equal outputs (`HashInj.vout_eq`).
-/

namespace ElectrumZ.Bitcoin

open Foundations

variable (sha256 : Bytes → UInt256)

/-- The single SHA-256. -/
def SHash (data : Bytes) : UInt256 := sha256 data

/-- The double SHA-256. -/
def Hash (data : Bytes) : UInt256 := sha256 (sha256 data).serialize

/-- `SerializeHash(*this, SER_GETHASH, SERIALIZE_TRANSACTION_NO_WITNESS)`. -/
def CTransaction.getHash (tx : CTransaction) : UInt256 :=
  Hash sha256 (tx.serialize SERIALIZE_TRANSACTION_NO_WITNESS)

/-- `GetHash`: the hash of the 80 bytes. -/
def CBlockHeader.getHash (h : CBlockHeader) : UInt256 := Hash sha256 h.serialize

variable {limit : ℕ}

namespace CTransaction

/-- The transaction without its witnesses. -/
def stripped (tx : CTransaction) : CTransaction := { tx with vin := tx.vin.map CTxIn.stripped }

/-- The serialization that is hashed is read back up to the witnesses. -/
theorem reads_unserialize_noWitness (hl : maxPiece ≤ limit) {tx : CTransaction} (h : tx.Valid) :
    Decodes limit (unserialize SERIALIZE_TRANSACTION_NO_WITNESS)
      (tx.serialize SERIALIZE_TRANSACTION_NO_WITNESS) tx.stripped := by
  have hv : fAllowWitness SERIALIZE_TRANSACTION_NO_WITNESS = false := by decide
  have hinout : Decodes limit (unserializeInOut SERIALIZE_TRANSACTION_NO_WITNESS)
      (serializeVector CTxIn.serialize tx.vin ++ serializeVector CTxOut.serialize tx.vout)
      (0, tx.vin.map CTxIn.stripped, tx.vout) := by
    refine (reads_vin hl h).bind ?_
    rw [if_neg (by simp [hv])]
    exact (reads_vout hl h).bind_pure rfl
  have hrest : Decodes limit
      (unserializeRest SERIALIZE_TRANSACTION_NO_WITNESS tx.nVersion 0 (tx.vin.map CTxIn.stripped)
        tx.vout) (serWritedata32 tx.nLockTime) tx.stripped := by
    rw [unserializeRest, unserializeWitnesses, if_neg (by simp)]
    have hnone : Decodes limit (pure ((0 : UInt8), tx.vin.map CTxIn.stripped)) []
        (0, tx.vin.map CTxIn.stripped) := reads_pure _
    refine hnone.bind ?_
    show Decodes limit (if (0 : UInt8) ≠ 0 then _ else _) _ _
    rw [if_neg (by decide)]
    exact (reads_serReaddata32 hl tx.nLockTime).bind_pure rfl
  have hser : tx.serialize SERIALIZE_TRANSACTION_NO_WITNESS = serializeInt32 tx.nVersion ++
      ((serializeVector CTxIn.serialize tx.vin ++ serializeVector CTxOut.serialize tx.vout) ++
        serWritedata32 tx.nLockTime) := by
    simp only [serialize, hv, Bool.false_and, Bool.false_eq_true, if_false, List.nil_append,
      List.append_assoc]
  rw [hser]
  exact (reads_unserializeInt32 hl tx.nVersion).bind (hinout.bind hrest)

/-- Transactions that are hashed as the same bytes have the same outputs. -/
theorem vout_eq_of_serialize_eq {tx tx' : CTransaction} (h : tx.Valid) (h' : tx'.Valid)
    (heq : tx.serialize SERIALIZE_TRANSACTION_NO_WITNESS =
      tx'.serialize SERIALIZE_TRANSACTION_NO_WITNESS) : tx.vout = tx'.vout := by
  have hread := reads_unserialize_noWitness (le_refl maxPiece) h
  have hread' := reads_unserialize_noWitness (le_refl maxPiece) h'
  rw [heq] at hread
  have := hread.unique hread'
  simp only [stripped, CTransaction.mk.injEq] at this
  exact this.2.2.1

end CTransaction

/-- No two transactions of the list collide: equal hashes come from equal bytes. -/
def HashInj (txs : List CTransaction) : Prop :=
  ∀ tx ∈ txs, ∀ tx' ∈ txs, tx.getHash sha256 = tx'.getHash sha256 →
    tx.serialize SERIALIZE_TRANSACTION_NO_WITNESS = tx'.serialize SERIALIZE_TRANSACTION_NO_WITNESS

variable {sha256}

theorem HashInj.vout_eq {txs : List CTransaction} (h : HashInj sha256 txs)
    (hv : ∀ tx ∈ txs, tx.Valid) {tx tx' : CTransaction} (htx : tx ∈ txs) (htx' : tx' ∈ txs)
    (heq : tx.getHash sha256 = tx'.getHash sha256) : tx.vout = tx'.vout :=
  CTransaction.vout_eq_of_serialize_eq (hv tx htx) (hv tx' htx') (h tx htx tx' htx' heq)

end ElectrumZ.Bitcoin
