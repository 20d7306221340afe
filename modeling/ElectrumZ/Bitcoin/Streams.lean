import ElectrumZ.Bitcoin.Serialize
import Mathlib.Data.Nat.ModEq

/-!
# Streams

`CDataStream`, a byte vector read from the front, and `CBufferedFile` of `streams.h`: a ring
buffer over a `FILE`, which can be rewound by `nRewind` bytes. The model keeps the arithmetic of
the source (positions modulo the buffer size, the 32-bit `nAvail`, the capacity checks of `read`).
A `CBufferedFile` carries the three facts that keep its `read` from going round for ever: it
rewinds less than its buffer holds, the buffer size fits an `unsigned int`, and nothing is read
before it is filled.

`Holds limit r k b before rest` says that `b` has read `before`, stands before `rest`, and still
has the last `k` bytes it read.

* `read_of_le` and `read_of_lt`: one `read` takes its bytes off `rest`, or reports the end of the
  file when there are too few, and then `eof` holds.
* `peek`: bytes just read can be rewound over and read again.
* `run_decodes`: a decoder reads from the file what it reads from the byte string.
-/

namespace ElectrumZ.Bitcoin

open Foundations

/-! ## Byte streams -/

/-- `CDataStream::read`: a request for more bytes than there are takes none. -/
def CDataStream.read : Dialog.Handler ℕ (fun _ => Bytes) Failure Bytes := fun nSize vch =>
  if nSize ≤ vch.length then (.ok (vch.take nSize), vch.drop nSize)
  else (.error .endOfData, vch)

/-! ## Files -/

/-- A file open for reading. From position `badAt` on, the device delivers nothing. -/
structure File where
  content : Bytes
  badAt : Option ℕ
  pos : ℕ
  feof : Bool

namespace File

/-- A sound file, open at its start. -/
def fopen (content : Bytes) : File := ⟨content, none, 0, false⟩

/-- A short count sets the end-of-file flag, unless the device is to blame for it. -/
def fread (f : File) (n : ℕ) : Bytes × File :=
  let n := match f.badAt with
    | none => n
    | some p => min n (p - f.pos)
  let bytes := (f.content.drop f.pos).take n
  (bytes, { f with pos := f.pos + bytes.length, feof := f.feof || decide (bytes.length < n) })

/-- What `fread` does on a sound file. -/
theorem fread_spec {f : File} (h : f.badAt = none) (n : ℕ) :
    ∃ bytes src, f.fread n = (bytes, src) ∧ bytes = (f.content.drop f.pos).take n ∧
      src.content = f.content ∧ src.badAt = none ∧ src.pos = f.pos + bytes.length ∧
      (src.feof = true ↔ f.feof = true ∨ bytes.length < n) :=
  ⟨(f.content.drop f.pos).take n, { f with
      pos := f.pos + ((f.content.drop f.pos).take n).length
      feof := f.feof || decide (((f.content.drop f.pos).take n).length < n) },
    by simp only [fread, h], rfl, rfl, h, rfl, by simp only [Bool.or_eq_true, decide_eq_true_eq]⟩

end File

/-! ## The ring buffer -/

/-- A file that is read through a buffer, and may be read again as far back as `nRewind`. -/
structure CBufferedFile where
  src : File
  /-- How many bytes have been read from the source. -/
  nSrcPos : ℕ
  /-- How many bytes have been read from the buffer. -/
  nReadPos : ℕ
  nReadLimit : ℕ
  nRewind : ℕ
  /-- `vchBuf.size()`. -/
  bufSize : ℕ
  vchBuf : ℕ → UInt8
  rewind_lt : nRewind < bufSize
  bufSize_lt : bufSize < 2 ^ 32
  read_le : nReadPos ≤ nSrcPos

/-- `buf` with `bytes` copied to position `pos`. -/
def overwrite (buf : ℕ → UInt8) (pos : ℕ) (bytes : Bytes) : ℕ → UInt8 := fun i =>
  if pos ≤ i ∧ i < pos + bytes.length then bytes.getD (i - pos) 0 else buf i

namespace CBufferedFile

/-- The constructor of the source. -/
def ofFile (fileIn : File) (nBufSize nRewindIn : ℕ) (h : nRewindIn < nBufSize)
    (h' : nBufSize < 2 ^ 32) : CBufferedFile :=
  ⟨fileIn, 0, 0, 2 ^ 64 - 1, nRewindIn, nBufSize, fun _ => 0, h, h', le_refl 0⟩

/-- The buffer after `fread` has delivered `bytes`. -/
def filled (b : CBufferedFile) (bytes : Bytes) (src : File) : CBufferedFile :=
  { b with
    src
    vchBuf := overwrite b.vchBuf (b.nSrcPos % b.bufSize) bytes
    nSrcPos := b.nSrcPos + bytes.length
    read_le := b.read_le.trans (Nat.le_add_right _ _) }

/-- Read data from the source to fill the buffer. -/
def fill (b : CBufferedFile) : Except Failure Bool × CBufferedFile :=
  let pos := b.nSrcPos % b.bufSize
  let nAvail := (((b.bufSize : ℤ) - (b.nSrcPos - b.nReadPos) - b.nRewind) % 2 ^ 32).toNat
  let readNow := min (b.bufSize - pos) nAvail
  if readNow = 0 then (.ok false, b)
  else
    let (bytes, src) := b.src.fread readNow
    if bytes = [] then
      (.error (if src.feof then .endOfFile else .freadFailed), { b with src })
    else (.ok true, b.filled bytes src)

/-- Check whether we're at the end of the source file. -/
def eof (b : CBufferedFile) : Bool := b.nReadPos == b.nSrcPos && b.src.feof

/-- `if (nReadPos == nSrcPos) Fill();` -/
def refill (b : CBufferedFile) : Except Failure Bool × CBufferedFile :=
  if b.nReadPos = b.nSrcPos then b.fill else (.ok true, b)

/-- How much of a request of `nSize` bytes one round of `read` serves. -/
def nNow (b : CBufferedFile) (nSize : ℕ) : ℕ :=
  min (min nSize (b.bufSize - b.nReadPos % b.bufSize)) (b.nSrcPos - b.nReadPos)

/-- One round of `read`: copy what is at hand. -/
def copyNow (b : CBufferedFile) (nSize : ℕ) : Bytes × CBufferedFile :=
  ((List.range (b.nNow nSize)).map fun i => b.vchBuf (b.nReadPos % b.bufSize + i),
    { b with
      nReadPos := b.nReadPos + b.nNow nSize
      read_le := by
        have := b.read_le
        simp only [nNow]
        omega })

/-- The buffer is full of unread bytes only when nothing is to be filled. -/
theorem fill_ne_false {b : CBufferedFile} (h : b.nReadPos = b.nSrcPos) :
    min (b.bufSize - b.nSrcPos % b.bufSize)
      (((b.bufSize : ℤ) - (b.nSrcPos - b.nReadPos) - b.nRewind) % 2 ^ 32).toNat =
    min (b.bufSize - b.nSrcPos % b.bufSize) (b.bufSize - b.nRewind) ∧
    0 < min (b.bufSize - b.nSrcPos % b.bufSize) (b.bufSize - b.nRewind) := by
  have hr := b.rewind_lt
  have hs := b.bufSize_lt
  have hmod := Nat.mod_lt b.nSrcPos (show 0 < b.bufSize by omega)
  have hav : (((b.bufSize : ℤ) - (b.nSrcPos - b.nReadPos) - b.nRewind) % 2 ^ 32).toNat =
      b.bufSize - b.nRewind := by
    rw [h, sub_self, sub_zero, Int.emod_eq_of_lt (by omega) (by omega)]
    omega
  rw [hav]
  exact ⟨rfl, by omega⟩

/-- After a successful refill there is something to copy. -/
theorem lt_of_refill {b b' : CBufferedFile} {r : Bool} (h : b.refill = (.ok r, b')) :
    b'.nReadPos < b'.nSrcPos := by
  have hle := b.read_le
  by_cases heq : b.nReadPos = b.nSrcPos
  · obtain ⟨hmin, hpos⟩ := fill_ne_false heq
    rw [refill, if_pos heq, fill, hmin] at h
    simp only [Nat.ne_of_gt hpos, if_false] at h
    split at h
    · simp at h
    · rename_i hne
      simp only [Prod.mk.injEq] at h
      rw [← h.2]
      have := List.length_pos_iff.mpr hne
      simp only [filled]
      omega
  · rw [refill, if_neg heq, Prod.mk.injEq] at h
    rw [← h.2]
    omega

theorem nNow_pos {b : CBufferedFile} (h : b.nReadPos < b.nSrcPos) {nSize : ℕ} (hn : nSize ≠ 0) :
    0 < b.nNow nSize := by
  have hr := b.rewind_lt
  have hmod := Nat.mod_lt b.nReadPos (show 0 < b.bufSize by omega)
  simp only [nNow]
  omega

/-- The loop of `read`. -/
def readLoop (b : CBufferedFile) (nSize : ℕ) : Except Failure Bytes × CBufferedFile :=
  if _h : nSize = 0 then (.ok [], b)
  else
    match _hb : b.refill with
    | (.error e, b') => (.error e, b')
    | (.ok _, b') =>
      let (bytes, b'') := b'.copyNow nSize
      match b''.readLoop (nSize - b'.nNow nSize) with
      | (.ok rest, b''') => (.ok (bytes ++ rest), b''')
      | (.error e, b''') => (.error e, b''')
termination_by nSize
decreasing_by
  have := nNow_pos (lt_of_refill _hb) _h
  omega

theorem readLoop_zero (b : CBufferedFile) : b.readLoop 0 = (.ok [], b) := by
  rw [readLoop, dif_pos rfl]

/-- A refill that fails ends the loop. -/
theorem readLoop_of_error {b b' : CBufferedFile} {e : Failure} {nSize : ℕ} (h0 : nSize ≠ 0)
    (h : b.refill = (.error e, b')) : b.readLoop nSize = (.error e, b') := by
  rw [readLoop, dif_neg h0]
  split
  · next heq =>
    rw [h] at heq
    cases heq
    rfl
  · next heq =>
    rw [h] at heq
    cases heq

/-- Otherwise the bytes at hand are copied, and the loop goes on for the rest of them. -/
theorem readLoop_of_ok {b b' : CBufferedFile} {filled : Bool} {nSize : ℕ} (h0 : nSize ≠ 0)
    (h : b.refill = (.ok filled, b')) :
    b.readLoop nSize = match (b'.copyNow nSize).2.readLoop (nSize - b'.nNow nSize) with
      | (.ok rest, b'') => (.ok ((b'.copyNow nSize).1 ++ rest), b'')
      | (.error e, b'') => (.error e, b'') := by
  rw [readLoop, dif_neg h0]
  split
  · next heq =>
    rw [h] at heq
    cases heq
  · next heq =>
    rw [h] at heq
    cases heq
    rfl

/-- Read a number of bytes. -/
def read (nSize : ℕ) (b : CBufferedFile) : Except Failure Bytes × CBufferedFile :=
  if b.nReadLimit < (nSize + b.nReadPos) % 2 ^ 64 then (.error .readLimit, b)
  else if b.bufSize < nSize + b.nRewind then (.error .bufferSize, b)
  else b.readLoop nSize

/-- `GetPos`. -/
def getPos (b : CBufferedFile) : ℕ := b.nReadPos

/-- Rewind to a given reading position, at most as far as has been read. -/
def setPos (b : CBufferedFile) (nPos : ℕ) : Bool × CBufferedFile :=
  (decide (nPos ≤ b.nSrcPos),
    { b with nReadPos := min nPos b.nSrcPos, read_le := Nat.min_le_right _ _ })

/-! ### The file stays the same -/

theorem fill_content (b : CBufferedFile) : b.fill.2.src.content = b.src.content := by
  simp only [fill]
  split_ifs <;> rfl

theorem refill_content (b : CBufferedFile) : b.refill.2.src.content = b.src.content := by
  rw [refill]
  split_ifs
  · exact fill_content b
  · rfl

theorem readLoop_content (b : CBufferedFile) (nSize : ℕ) :
    (b.readLoop nSize).2.src.content = b.src.content := by
  induction nSize using Nat.strong_induction_on generalizing b with
  | _ nSize ih =>
    by_cases h0 : nSize = 0
    · rw [h0, readLoop_zero]
    have hfill := refill_content b
    rcases heq : b.refill with ⟨e | filled, b'⟩ <;> rw [heq] at hfill
    · rw [readLoop_of_error h0 heq]
      exact hfill
    · have hpos := nNow_pos (lt_of_refill heq) h0
      have hrest := ih (nSize - b'.nNow nSize) (by omega) (b'.copyNow nSize).2
      rw [readLoop_of_ok h0 heq]
      split <;> next heq' => rw [heq'] at hrest; exact hrest.trans hfill

/-- Reading does not change the file. -/
theorem read_content (nSize : ℕ) (b : CBufferedFile) :
    (b.read nSize).2.src.content = b.src.content := by
  rw [read]
  split_ifs
  · rfl
  · rfl
  · exact readLoop_content b nSize

/-! ## What the buffer holds -/

/-- `b` has read `before` and stands before `rest`. It serves requests of up to `limit` bytes,
rewinds by `r`, and still has the last `k` bytes it read. -/
structure Holds (limit r k : ℕ) (b : CBufferedFile) (before rest : Bytes) : Prop where
  rewind_eq : b.nRewind = r
  size_eq : b.bufSize = limit + r
  noLimit : b.nReadLimit = 2 ^ 64 - 1
  sound : b.src.badAt = none
  pos_eq : b.src.pos = b.nSrcPos
  src_le : b.nSrcPos ≤ b.src.content.length
  feof_imp : b.src.feof = true → b.nSrcPos = b.src.content.length
  content_eq : b.src.content = before ++ rest
  readPos_eq : b.nReadPos = before.length
  window : b.nSrcPos + k ≤ b.nReadPos + b.bufSize
  buf : ∀ p, p < b.nSrcPos → b.nSrcPos ≤ p + b.bufSize →
    b.src.content[p]? = some (b.vchBuf (p % b.bufSize))

variable {limit r k : ℕ} {b b' : CBufferedFile} {before rest : Bytes}

theorem Holds.mono {k' : ℕ} (h : Holds limit r k b before rest) (hk : k' ≤ k) :
    Holds limit r k' b before rest :=
  { h with window := by have := h.window; omega }

theorem Holds.rest_eq (h : Holds limit r k b before rest) :
    rest = b.src.content.drop b.nReadPos := by
  rw [h.content_eq, h.readPos_eq, List.drop_left]

theorem Holds.length_rest (h : Holds limit r k b before rest) :
    rest.length = b.src.content.length - b.nReadPos := by
  rw [h.rest_eq, List.length_drop]

/-- A fresh buffer stands before the whole file. -/
theorem ofFile_holds {content : Bytes} {nBufSize nRewindIn : ℕ} (h : nRewindIn < nBufSize)
    (h' : nBufSize < 2 ^ 32) (hl : nBufSize = limit + nRewindIn) :
    Holds limit nRewindIn nRewindIn (ofFile (.fopen content) nBufSize nRewindIn h h') []
      content where
  rewind_eq := rfl
  size_eq := hl
  noLimit := rfl
  sound := rfl
  pos_eq := rfl
  src_le := Nat.zero_le _
  feof_imp := fun h => by simp [ofFile, File.fopen] at h
  content_eq := rfl
  readPos_eq := rfl
  window := by simp only [ofFile]; omega
  buf := fun p hp => absurd hp (Nat.not_lt_zero p)

theorem Holds.eof_eq_false (h : Holds limit r k b before rest) (hne : rest ≠ []) :
    b.eof = false := by
  have hlen := h.length_rest
  have hpos := List.length_pos_iff.mpr hne
  by_contra heof
  rw [Bool.not_eq_false, eof, Bool.and_eq_true, beq_iff_eq] at heof
  have := h.feof_imp heof.2
  omega

/-! ### Filling -/

/-- Two positions less than a buffer apart have different places in it. -/
theorem mod_ne_of_lt {p q s : ℕ} (hpq : p < q) (hqs : q < p + s) : p % s ≠ q % s := by
  intro h
  have hdvd : s ∣ q - p := (Nat.modEq_iff_dvd' hpq.le).mp h
  have := Nat.eq_zero_of_dvd_of_lt hdvd (by omega)
  omega

theorem overwrite_of_mem {buf : ℕ → UInt8} {pos i : ℕ} {bytes : Bytes} (h : i < bytes.length) :
    overwrite buf pos bytes (pos + i) = bytes[i] := by
  rw [overwrite, if_pos (by omega), Nat.add_sub_cancel_left, List.getD_eq_getElem?_getD,
    List.getElem?_eq_getElem h, Option.getD_some]

theorem overwrite_of_notMem {buf : ℕ → UInt8} {pos i : ℕ} {bytes : Bytes}
    (h : ¬ (pos ≤ i ∧ i < pos + bytes.length)) : overwrite buf pos bytes i = buf i := by
  rw [overwrite, if_neg h]

/-- Filling from `nSrcPos` on keeps the older bytes that the buffer still has room for. -/
theorem buf_overwrite {content bytes : Bytes} {buf : ℕ → UInt8} {n s : ℕ}
    (hbytes : bytes <+: content.drop n) (hn : n % s + bytes.length ≤ s)
    (hbuf : ∀ p, p < n → n ≤ p + s → content[p]? = some (buf (p % s))) :
    ∀ p, p < n + bytes.length → n + bytes.length ≤ p + s →
      content[p]? = some (overwrite buf (n % s) bytes (p % s)) := by
  intro p hp hps
  by_cases hpn : n ≤ p
  · obtain ⟨i, rfl⟩ : ∃ i, p = n + i := ⟨p - n, by omega⟩
    have hi : i < bytes.length := by omega
    have hmod : (n + i) % s = n % s + i := by
      rw [Nat.add_mod, Nat.mod_eq_of_lt (show i < s by omega),
        Nat.mod_eq_of_lt (show n % s + i < s by omega)]
    have hget : bytes[i]? = content[n + i]? := by
      obtain ⟨t, ht⟩ := hbytes
      rw [← List.getElem?_drop, ← ht, List.getElem?_append_left hi]
    rw [hmod, overwrite_of_mem hi, ← hget, List.getElem?_eq_getElem hi]
  · rw [hbuf p (by omega) (by omega), overwrite_of_notMem]
    rintro ⟨h₁, h₂⟩
    -- the place of `p` would be that of a byte just filled
    obtain ⟨i, hi⟩ : ∃ i, p % s = n % s + i := ⟨p % s - n % s, by omega⟩
    have hmod : (n + i) % s = n % s + i := by
      rw [Nat.add_mod, Nat.mod_eq_of_lt (show i < s by omega),
        Nat.mod_eq_of_lt (show n % s + i < s by omega)]
    exact mod_ne_of_lt (q := n + i) (by omega) (by omega) (hi.trans hmod.symm)

/-- With bytes left, a refill leaves something to copy and the last `nRewind` bytes in place. -/
theorem Holds.refill (h : Holds limit r k b before rest) (hk : k ≤ r) (hne : rest ≠ []) :
    ∃ filled b', b.refill = (.ok filled, b') ∧ Holds limit r k b' before rest := by
  have hlen := h.length_rest
  have hpos := List.length_pos_iff.mpr hne
  by_cases heq : b.nReadPos = b.nSrcPos
  · obtain ⟨hmin, hmin0⟩ := fill_ne_false heq
    set readNow := min (b.bufSize - b.nSrcPos % b.bufSize) (b.bufSize - b.nRewind) with hreadNow
    have hr := b.rewind_lt
    have hreq := h.rewind_eq
    obtain ⟨bytes, src, hfread, hbytes, hcontent, hbad, hsrcpos, hfeof⟩ :=
      File.fread_spec h.sound readNow
    rw [h.pos_eq] at hbytes hsrcpos
    have hblen : bytes.length = min readNow (b.src.content.length - b.nSrcPos) := by
      rw [hbytes, List.length_take, List.length_drop]
    have hbne : bytes ≠ [] := List.length_pos_iff.mp (by omega)
    have hfill : b.refill = (.ok true, b.filled bytes src) := by
      simp only [CBufferedFile.refill, if_pos heq, fill, hmin, hfread, Nat.ne_of_gt hmin0,
        hbne, if_false]
    refine ⟨true, _, hfill, ?_⟩
    refine ⟨h.rewind_eq, h.size_eq, h.noLimit, hbad, hsrcpos, ?_, ?_, hcontent ▸ h.content_eq,
      h.readPos_eq, ?_, ?_⟩ <;>
      simp only [filled, hcontent]
    · omega
    · rw [hfeof]
      rintro (hfe | hlt)
      · have := h.feof_imp hfe
        omega
      · omega
    · omega
    · exact buf_overwrite (hbytes ▸ List.take_prefix _ _) (by omega) h.buf
  · exact ⟨true, b, by rw [CBufferedFile.refill, if_neg heq], h⟩

/-- With no bytes left, a refill reports the end of the file. -/
theorem Holds.refill_nil (h : Holds limit r k b before []) :
    ∃ b', b.refill = (.error .endOfFile, b') ∧ Holds limit r k b' before [] ∧ b'.eof = true := by
  have hlen := h.length_rest
  have hle := b.read_le
  have hsrc := h.src_le
  rw [List.length_nil] at hlen
  have heq : b.nReadPos = b.nSrcPos := by omega
  obtain ⟨hmin, hmin0⟩ := fill_ne_false heq
  set readNow := min (b.bufSize - b.nSrcPos % b.bufSize) (b.bufSize - b.nRewind) with hreadNow
  obtain ⟨bytes, src, hfread, hbytes, hcontent, hbad, hsrcpos, hfeof⟩ :=
    File.fread_spec h.sound readNow
  have hnil : bytes = [] := by
    rw [hbytes, h.pos_eq, List.drop_eq_nil_of_le (by omega), List.take_nil]
  subst hnil
  have hfe : src.feof = true := hfeof.mpr (.inr hmin0)
  have hfill : b.refill = (.error .endOfFile, { b with src }) := by
    simp only [CBufferedFile.refill, if_pos heq, fill, hmin, hfread, Nat.ne_of_gt hmin0,
      hfe, if_false, if_true]
  refine ⟨_, hfill, ?_, by simp [eof, heq, hfe]⟩
  refine ⟨h.rewind_eq, h.size_eq, h.noLimit, hbad, ?_, ?_, ?_, hcontent ▸ h.content_eq,
    h.readPos_eq, h.window, ?_⟩
  · simpa [h.pos_eq] using hsrcpos
  · simpa only [hcontent] using hsrc
  · intro _
    simp only [hcontent]
    omega
  · simpa only [hcontent] using h.buf

/-! ### Reading -/

/-- One round of `read` copies the next bytes and steps over them. -/
theorem Holds.copyNow (h : Holds limit r k b before rest) (nSize : ℕ) :
    (b.copyNow nSize).1 = rest.take (b.nNow nSize) ∧
      Holds limit r (k + b.nNow nSize) (b.copyNow nSize).2 (before ++ rest.take (b.nNow nSize))
        (rest.drop (b.nNow nSize)) := by
  have hr := b.rewind_lt
  have hmod := Nat.mod_lt b.nReadPos (show 0 < b.bufSize by omega)
  have hn : b.nReadPos % b.bufSize + b.nNow nSize ≤ b.bufSize := by simp only [nNow]; omega
  have hn' : b.nNow nSize ≤ b.nSrcPos - b.nReadPos := by simp only [nNow]; omega
  have hlen := h.length_rest
  have hle := b.read_le
  have hsrc := h.src_le
  constructor
  · refine List.ext_getElem? fun i => ?_
    by_cases hi : i < b.nNow nSize
    · have hplace : (b.nReadPos + i) % b.bufSize = b.nReadPos % b.bufSize + i := by
        rw [Nat.add_mod, Nat.mod_eq_of_lt (show i < b.bufSize by omega),
          Nat.mod_eq_of_lt (by omega)]
      have hwin := h.window
      have hbuf := h.buf (b.nReadPos + i) (by omega) (by omega)
      rw [List.getElem?_take, if_pos hi, h.rest_eq, List.getElem?_drop, hbuf, hplace,
        CBufferedFile.copyNow, List.getElem?_map, List.getElem?_range hi, Option.map_some]
    · rw [List.getElem?_take, if_neg hi, CBufferedFile.copyNow, List.getElem?_map,
        List.getElem?_eq_none (by rw [List.length_range]; omega), Option.map_none]
  · refine ⟨h.rewind_eq, h.size_eq, h.noLimit, h.sound, h.pos_eq, h.src_le, h.feof_imp, ?_, ?_, ?_,
      h.buf⟩
    · rw [List.append_assoc, List.take_append_drop, CBufferedFile.copyNow, h.content_eq]
    · rw [List.length_append, List.length_take, ← h.readPos_eq, CBufferedFile.copyNow]
      simp only
      omega
    · have := h.window
      simp only [CBufferedFile.copyNow]
      omega

/-- The loop of `read`, with enough bytes left. -/
theorem readLoop_of_le (h : Holds limit r k b before rest) (hk : k ≤ r) {nSize : ℕ}
    (hn : nSize ≤ rest.length) :
    ∃ b', b.readLoop nSize = (.ok (rest.take nSize), b') ∧
      Holds limit r (min (k + nSize) r) b' (before ++ rest.take nSize) (rest.drop nSize) := by
  induction nSize using Nat.strong_induction_on generalizing k b before rest with
  | _ nSize ih =>
    by_cases h0 : nSize = 0
    · subst h0
      exact ⟨b, readLoop_zero b, by simpa using h.mono (by omega)⟩
    · obtain ⟨filled, b', hfill, h'⟩ := h.refill hk (List.length_pos_iff.mp (by omega))
      have hpos := nNow_pos (lt_of_refill hfill) h0
      obtain ⟨hcopy, hnext⟩ := h'.copyNow nSize
      set n := b'.nNow nSize with hndef
      have hnle : n ≤ nSize := by rw [hndef, nNow]; omega
      obtain ⟨b'', hloop, hrest⟩ := ih (nSize - n) (by omega)
        (hnext.mono (Nat.min_le_left (k + n) r)) (Nat.min_le_right _ _)
        (by rw [List.length_drop]; omega)
      refine ⟨b'', ?_, ?_⟩
      · rw [readLoop_of_ok h0 hfill]
        simp only [hloop, hcopy, ← hndef]
        rw [← List.take_add, Nat.add_sub_cancel' hnle]
      · rw [List.append_assoc, ← List.take_add, List.drop_drop, Nat.add_sub_cancel' hnle] at hrest
        exact hrest.mono (by omega)

/-- The loop of `read`, with too few bytes left: they are used up. -/
theorem readLoop_of_lt (h : Holds limit r k b before rest) (hk : k ≤ r) {nSize : ℕ}
    (hn : rest.length < nSize) :
    ∃ b', b.readLoop nSize = (.error .endOfFile, b') ∧ Holds limit r k b' (before ++ rest) [] ∧
      b'.eof = true := by
  induction nSize using Nat.strong_induction_on generalizing b before rest with
  | _ nSize ih =>
    have h0 : nSize ≠ 0 := by omega
    by_cases hnil : rest = []
    · subst hnil
      obtain ⟨b', hfill, h', heof⟩ := h.refill_nil
      exact ⟨b', readLoop_of_error h0 hfill, by simpa using h', heof⟩
    · obtain ⟨filled, b', hfill, h'⟩ := h.refill hk hnil
      have hpos := nNow_pos (lt_of_refill hfill) (show nSize ≠ 0 by omega)
      have hnext := (h'.copyNow nSize).2
      set n := b'.nNow nSize with hndef
      have hnle : n ≤ nSize := by rw [hndef, nNow]; omega
      have hlen' := h'.length_rest
      have hsrc' := h'.src_le
      have hnrest : n ≤ rest.length := by rw [hndef, nNow]; omega
      obtain ⟨b'', hloop, hend⟩ := ih (nSize - n) (by omega) (hnext.mono (Nat.le_add_right k n))
        (by rw [List.length_drop]; omega)
      rw [List.append_assoc, List.take_append_drop] at hend
      refine ⟨b'', ?_, hend⟩
      rw [readLoop_of_ok h0 hfill]
      simp only [hloop, ← hndef]

theorem Holds.read_eq (h : Holds limit r k b before rest) (nSize : ℕ) :
    b.read nSize = if limit < nSize then (.error .bufferSize, b) else b.readLoop nSize := by
  have := h.noLimit
  have := h.size_eq
  have := h.rewind_eq
  rw [read, if_neg (by omega)]
  by_cases hl : limit < nSize
  · rw [if_pos (by omega), if_pos hl]
  · rw [if_neg (by omega), if_neg hl]

/-- **A read with enough bytes left takes them**, and what it stepped over can be rewound. -/
theorem read_of_le (h : Holds limit r k b before rest) (hk : k ≤ r) {nSize : ℕ} (hl : nSize ≤ limit)
    (hn : nSize ≤ rest.length) :
    ∃ b', b.read nSize = (.ok (rest.take nSize), b') ∧
      Holds limit r (min (k + nSize) r) b' (before ++ rest.take nSize) (rest.drop nSize) := by
  rw [h.read_eq, if_neg (by omega)]
  exact readLoop_of_le h hk hn

/-- A read with too few bytes left reports the end of the file. -/
theorem read_of_lt (h : Holds limit r k b before rest) (hk : k ≤ r) {nSize : ℕ} (hl : nSize ≤ limit)
    (hn : rest.length < nSize) :
    ∃ b', b.read nSize = (.error .endOfFile, b') ∧ Holds limit r k b' (before ++ rest) [] ∧
      b'.eof = true := by
  rw [h.read_eq, if_neg (by omega)]
  exact readLoop_of_lt h hk hn

/-- The bytes still in the buffer can be read again. -/
theorem setPos_sub {bs : Bytes} (h : Holds limit r k b (before ++ bs) rest) (hbs : bs.length ≤ k) :
    Holds limit r 0 (b.setPos (b.getPos - bs.length)).2 before (bs ++ rest) := by
  have hpos := h.readPos_eq
  have hread := b.read_le
  rw [List.length_append] at hpos
  have hmin : min (b.getPos - bs.length) b.nSrcPos = before.length := by
    simp only [getPos]
    omega
  refine ⟨h.rewind_eq, h.size_eq, h.noLimit, h.sound, h.pos_eq, h.src_le, h.feof_imp, ?_, hmin, ?_,
    h.buf⟩
  · rw [← List.append_assoc, ← h.content_eq, setPos]
  · have := h.window
    simp only [setPos, hmin]
    omega

/-- Peeking: read some bytes and rewind over them. -/
theorem peek {bs : Bytes} (h : Holds limit r 0 b before (bs ++ rest)) (hr : bs.length ≤ r)
    (hl : bs.length ≤ limit) :
    ∃ b', b.read bs.length = (.ok bs, b') ∧
      Holds limit r 0 (b'.setPos (b'.getPos - bs.length)).2 before (bs ++ rest) := by
  obtain ⟨b', hread, h'⟩ := read_of_le h (Nat.zero_le r) hl (by rw [List.length_append]; omega)
  rw [List.take_left] at hread h'
  rw [List.drop_left, Nat.zero_add, Nat.min_eq_left hr] at h'
  exact ⟨b', hread, setPos_sub h' (le_refl _)⟩

/-! ### Decoding from a file -/

/-- `b` stands before the bytes `rest` of its file. -/
def Before (limit r : ℕ) (b : CBufferedFile) (rest : Bytes) : Prop :=
  ∃ before, Holds limit r 0 b before rest

/-- **A decoder run on the file does what it does on the bytes of the file.** -/
theorem run_eq {α : Type} (d : Decoder α) (h : Before limit r b rest) :
    (d.run read b).1 = (d.run (readBytes .endOfFile .bufferSize limit) rest).1 ∧
      Before limit r (d.run read b).2 (d.run (readBytes .endOfFile .bufferSize limit) rest).2 := by
  refine Dialog.run_sim (Before limit r) ?_ d h
  rintro n b rest ⟨before, h⟩
  by_cases hl : limit < n
  · rw [h.read_eq, if_pos hl, readBytes, if_pos hl]
    exact ⟨rfl, before, h⟩
  · rw [readBytes, if_neg hl]
    by_cases hn : n ≤ rest.length
    · obtain ⟨b', hread, h'⟩ := read_of_le h (Nat.zero_le r) (Nat.le_of_not_lt hl) hn
      rw [if_pos hn, hread]
      exact ⟨rfl, _, h'.mono (Nat.zero_le _)⟩
    · obtain ⟨b', hread, h', -⟩ := read_of_lt h (Nat.zero_le r) (Nat.le_of_not_lt hl) (by omega)
      rw [if_neg hn, hread]
      exact ⟨rfl, _, h'⟩

/-- What a decoder takes off the front of the bytes, it takes off the front of the file. -/
theorem run_decodes {α : Type} {d : Decoder α} {bs : Bytes} {a : α} (hd : Decodes limit d bs a)
    (h : Before limit r b (bs ++ rest)) :
    ∃ b', d.run read b = (.ok a, b') ∧ Before limit r b' rest := by
  obtain ⟨h₁, h₂⟩ := run_eq d h
  rw [hd rest] at h₁ h₂
  exact ⟨_, Prod.ext h₁ rfl, h₂⟩

theorem Before.peek {bs : Bytes} (h : Before limit r b (bs ++ rest)) (hr : bs.length ≤ r)
    (hl : bs.length ≤ limit) :
    ∃ b', b.read bs.length = (.ok bs, b') ∧
      Before limit r (b'.setPos (b'.getPos - bs.length)).2 (bs ++ rest) := by
  obtain ⟨before, h⟩ := h
  obtain ⟨b', hread, h'⟩ := CBufferedFile.peek h hr hl
  exact ⟨b', hread, before, h'⟩

/-- A short read at the end of the file. -/
theorem Before.read_of_lt (h : Before limit r b rest) {nSize : ℕ} (hl : nSize ≤ limit)
    (hn : rest.length < nSize) :
    ∃ b', b.read nSize = (.error .endOfFile, b') ∧ b'.eof = true := by
  obtain ⟨before, h⟩ := h
  obtain ⟨b', hread, -, heof⟩ := CBufferedFile.read_of_lt h (Nat.zero_le r) hl hn
  exact ⟨b', hread, heof⟩

/-- What has been read and what is left make up the file. -/
theorem Before.readPos (h : Before limit r b rest) :
    b.nReadPos + rest.length = b.src.content.length := by
  obtain ⟨before, h⟩ := h
  rw [h.content_eq, h.readPos_eq, List.length_append]

theorem Before.eof_eq_false (h : Before limit r b rest) (hne : rest ≠ []) : b.eof = false := by
  obtain ⟨before, h⟩ := h
  exact h.eof_eq_false hne

end CBufferedFile

end ElectrumZ.Bitcoin
