import ElectrumZ.Foundations.Dialog
import Mathlib.Tactic.NormNum

/-!
# The wire formats of `serialize.h`

Writing is a function to bytes; reading is a `Reader`, which asks its stream for the next bytes
and may fail with one of the `std::ios_base::failure`s of the source.

* `serWritedata8` … `serReaddata64`: the fixed-width little-endian integers.
* `writeCompactSize` and `readCompactSize`: the counts. `readCompactSize` refuses a count that a
  shorter form could have carried and one above `MAX_SIZE`.
* `serializeBytes`, `serializeVector` and their readers: byte vectors, read in pieces of at most
  5000000 bytes, and vectors of anything else.

For each pair the module proves that the reader takes off exactly the bytes written and returns
the value written (`reads_serReaddata32`, `reads_readCompactSize`, `reads_unserializeBytes`,
`reads_unserializeVector`), from any stream that serves requests of 5000000 bytes.
-/

namespace ElectrumZ.Bitcoin

open Foundations

/-- The `std::ios_base::failure`s a stream or a decoder raises. -/
inductive Failure
  | endOfFile
  | freadFailed
  | readLimit
  | bufferSize
  | endOfData
  | nonCanonical
  | sizeTooLarge
  | unknownOptionalData
  deriving DecidableEq, Repr

/-- What `Unserialize` does with a stream: it asks for bytes, and gives a value or fails. -/
abbrev Decoder (α : Type) := Reader Failure α

/-- `d` takes exactly `bs` off a stream that serves requests up to `limit`, and yields `a`. -/
abbrev Decodes {α : Type} (limit : ℕ) (d : Decoder α) (bs : Bytes) (a : α) : Prop :=
  Reads Failure.endOfFile Failure.bufferSize limit d bs a

/-- No count that is read may be larger. -/
def MAX_SIZE : ℕ := 0x02000000

/-- The largest piece `Unserialize_impl` reads a byte vector in. -/
def maxPiece : ℕ := 5000000

variable {limit : ℕ}

/-! ## Integers -/

/-- `ser_writedata8`. -/
def serWritedata8 (obj : UInt8) : Bytes := leBytes 1 obj.toNat

/-- `ser_writedata32`. -/
def serWritedata32 (obj : UInt32) : Bytes := leBytes 4 obj.toNat

/-- `ser_writedata64`. -/
def serWritedata64 (obj : UInt64) : Bytes := leBytes 8 obj.toNat

/-- The number in the next `w` bytes. -/
def readLE (w : ℕ) : Decoder ℕ := do
  let bs ← Dialog.query w
  return ofLeBytes bs

/-- `ser_readdata8`. -/
def serReaddata8 : Decoder UInt8 := do
  let n ← readLE 1
  return UInt8.ofNat n

/-- `ser_readdata16`. -/
def serReaddata16 : Decoder ℕ := readLE 2

/-- `ser_readdata32`. -/
def serReaddata32 : Decoder UInt32 := do
  let n ← readLE 4
  return UInt32.ofNat n

/-- `ser_readdata64`. -/
def serReaddata64 : Decoder UInt64 := do
  let n ← readLE 8
  return UInt64.ofNat n

@[simp] theorem length_serWritedata32 (obj : UInt32) : (serWritedata32 obj).length = 4 :=
  length_leBytes 4 _

@[simp] theorem length_serWritedata64 (obj : UInt64) : (serWritedata64 obj).length = 8 :=
  length_leBytes 8 _

theorem reads_readLE {w n : ℕ} (hn : n < 256 ^ w) (hw : w ≤ limit) :
    Decodes limit (readLE w) (leBytes w n) n :=
  (reads_query (length_leBytes w n) hw).bind_pure (by rw [ofLeBytes_leBytes hn])

theorem reads_serReaddata8 (hl : maxPiece ≤ limit) (obj : UInt8) :
    Decodes limit serReaddata8 (serWritedata8 obj) obj :=
  (reads_readLE obj.toNat_lt (by simp only [maxPiece] at hl; omega)).bind_pure
    (by rw [UInt8.ofNat_toNat])

theorem reads_serReaddata32 (hl : maxPiece ≤ limit) (obj : UInt32) :
    Decodes limit serReaddata32 (serWritedata32 obj) obj :=
  (reads_readLE obj.toNat_lt (by simp only [maxPiece] at hl; omega)).bind_pure
    (by rw [UInt32.ofNat_toNat])

theorem reads_serReaddata64 (hl : maxPiece ≤ limit) (obj : UInt64) :
    Decodes limit serReaddata64 (serWritedata64 obj) obj :=
  (reads_readLE obj.toNat_lt (by simp only [maxPiece] at hl; omega)).bind_pure
    (by rw [UInt64.ofNat_toNat])

/-! ## Compact sizes -/

/-- `WriteCompactSize`: the shortest form that fits. -/
def writeCompactSize (nSize : ℕ) : Bytes :=
  if nSize < 253 then leBytes 1 nSize
  else if nSize ≤ 0xFFFF then leBytes 1 253 ++ leBytes 2 nSize
  else if nSize ≤ 0xFFFFFFFF then leBytes 1 254 ++ leBytes 4 nSize
  else leBytes 1 255 ++ leBytes 8 nSize

/-- `ReadCompactSize`. A number in a longer form than it needs is refused, and so is one above
`MAX_SIZE`. -/
def readCompactSize : Decoder ℕ := do
  let chSize ← readLE 1
  let nSizeRet ←
    if chSize < 253 then pure chSize
    else if chSize = 253 then do
      let n ← serReaddata16
      if n < 253 then .fail .nonCanonical else pure n
    else if chSize = 254 then do
      let n ← readLE 4
      if n < 0x10000 then .fail .nonCanonical else pure n
    else do
      let n ← readLE 8
      if n < 0x100000000 then .fail .nonCanonical else pure n
  if MAX_SIZE < nSizeRet then .fail .sizeTooLarge else pure nSizeRet

/-- A count up to `MAX_SIZE` is read back from the form `writeCompactSize` chose for it. -/
theorem reads_readCompactSize (hl : maxPiece ≤ limit) {n : ℕ} (hn : n ≤ MAX_SIZE) :
    Decodes limit readCompactSize (writeCompactSize n) n := by
  have hle : ∀ w, w ≤ 8 → w ≤ limit := fun w hw => by simp only [maxPiece] at hl; omega
  have hmax : ¬ MAX_SIZE < n := by omega
  simp only [MAX_SIZE] at hn
  unfold writeCompactSize readCompactSize
  split_ifs with h₁ h₂ h₃
  · refine (reads_readLE (by omega) (hle 1 (by omega))).bind_pure ?_
    rw [if_pos h₁]
    show (if MAX_SIZE < n then _ else _) = _
    rw [if_neg hmax]
  · refine (reads_readLE (by norm_num) (hle 1 (by omega))).bind ?_
    rw [if_neg (by omega), if_pos rfl]
    refine (reads_readLE (by omega) (hle 2 (by omega))).bind_pure ?_
    rw [if_neg h₁]
    show (if MAX_SIZE < n then _ else _) = _
    rw [if_neg hmax]
  · refine (reads_readLE (by norm_num) (hle 1 (by omega))).bind ?_
    rw [if_neg (by omega), if_neg (by omega), if_pos rfl]
    refine (reads_readLE (by omega) (hle 4 (by omega))).bind_pure ?_
    rw [if_neg (by omega)]
    show (if MAX_SIZE < n then _ else _) = _
    rw [if_neg hmax]
  · omega

/-! ## Byte vectors -/

/-- `Serialize_impl` of a vector of bytes: the count, and the bytes. -/
def serializeBytes (v : Bytes) : Bytes := writeCompactSize v.length ++ v

/-- Read `n` bytes, at most `maxPiece` at a time. -/
def readPieces (n : ℕ) : Decoder Bytes :=
  if _h : n = 0 then pure []
  else do
    let blk := min n maxPiece
    let v ← Dialog.query blk
    let rest ← readPieces (n - blk)
    return v ++ rest
termination_by n
decreasing_by
  have : blk ≠ 0 := by simp only [blk, maxPiece]; omega
  omega

/-- `Unserialize_impl` of a vector of bytes. -/
def unserializeBytes : Decoder Bytes := do
  let nSize ← readCompactSize
  readPieces nSize

theorem reads_readPieces (hl : maxPiece ≤ limit) (v : Bytes) :
    Decodes limit (readPieces v.length) v v := by
  induction hn : v.length using Nat.strong_induction_on generalizing v with
  | _ n ih =>
    rw [readPieces]
    by_cases h : n = 0
    · obtain rfl : v = [] := List.length_eq_zero_iff.mp (hn.trans h)
      rw [dif_pos h]
      exact reads_pure []
    · rw [dif_neg h]
      set blk := min n maxPiece with hblk
      have hpos : blk ≠ 0 := by simp only [hblk, maxPiece]; omega
      have htake : (v.take blk).length = blk := by rw [List.length_take]; omega
      have hdrop : (v.drop blk).length = n - blk := by rw [List.length_drop, hn]
      have hrest := ih (n - blk) (by omega) (v.drop blk) hdrop
      have hpiece : Decodes limit (Dialog.query blk) (v.take blk) (v.take blk) :=
        reads_query htake (by omega)
      have := hpiece.bind (f := fun w => do
          let rest ← readPieces (n - blk)
          return w ++ rest) (hrest.bind_pure rfl)
      rwa [List.take_append_drop] at this

theorem reads_unserializeBytes (hl : maxPiece ≤ limit) {v : Bytes} (hv : v.length ≤ MAX_SIZE) :
    Decodes limit unserializeBytes (serializeBytes v) v :=
  (reads_readCompactSize hl hv).bind (reads_readPieces hl v)

/-- A count that is read is at most `MAX_SIZE`. -/
theorem ensures_readCompactSize : readCompactSize.Ensures fun n => n ≤ MAX_SIZE := by
  have hlimit (n : ℕ) : (if MAX_SIZE < n then .fail .sizeTooLarge else pure n : Decoder ℕ).Ensures
      fun n => n ≤ MAX_SIZE := by
    split_ifs with h
    · trivial
    · exact Nat.le_of_not_lt h
  unfold readCompactSize
  refine Dialog.ensures_bind fun chSize => ?_
  split_ifs
  · exact hlimit chSize
  all_goals
    refine Dialog.ensures_bind fun n => ?_
    split_ifs
    · trivial
    · exact hlimit n

/-! ## Vectors -/

/-- `Serialize_impl` of any other vector: the count, and one element after another. -/
def serializeVector {α : Type} (elem : α → Bytes) (v : List α) : Bytes :=
  writeCompactSize v.length ++ v.flatMap elem

/-- The `nMid` steps of the source only bound how much is allocated at a time: the elements are
read one after another. -/
def unserializeVector {α : Type} (elem : Decoder α) : Decoder (List α) := do
  let nSize ← readCompactSize
  readMany elem nSize

theorem ensures_unserializeVector {α : Type} {P : α → Prop} {elem : Decoder α}
    (h : elem.Ensures P) :
    (unserializeVector elem).Ensures fun v => v.length ≤ MAX_SIZE ∧ ∀ a ∈ v, P a := by
  refine ensures_readCompactSize.bind fun n hn => ?_
  refine (ensures_readMany h n).mono ?_
  rintro v ⟨rfl, hv⟩
  exact ⟨hn, hv⟩

theorem reads_unserializeVector (hl : maxPiece ≤ limit) {α : Type} {elem : Decoder α}
    {enc : α → Bytes} {v : List α} (hv : v.length ≤ MAX_SIZE)
    (h : ∀ a ∈ v, Decodes limit elem (enc a) a) :
    Decodes limit (unserializeVector elem) (serializeVector enc v) v :=
  (reads_readCompactSize hl hv).bind (reads_readMany v h)

end ElectrumZ.Bitcoin
