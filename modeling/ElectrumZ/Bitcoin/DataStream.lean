import ElectrumZ.Bitcoin.Streams
import ElectrumZ.Bitcoin.Transaction
import ElectrumZ.Foundations.Discipline
import ElectrumZ.Foundations.Memory
import ElectrumZ.Foundations.Words

/-!
# The buffer behind a data stream

A `CDataStream` keeps all its bytes in one vector, with the position up to which they have been
read. What has been read stays until the buffer is compacted or read to its end; it can be taken
back, or overwritten by a range that is inserted in front. Single bytes never are put over it.

* `Buffer.Represents`: the vector is what can be taken back and what is still to come.
* `Buffer.answers_eq`: **every run of operations**, failing ones included, answers as it does on
  these two lists.
* `Buffer.fifo`: so **what is read is what was written**, in order, and nothing is lost.
* `Buffer.run_decoder`: a decoder reads from the buffer what it reads from the bytes to come.
-/

namespace ElectrumZ.Bitcoin

open Foundations Foundations.Memory

namespace CDataStream

/-- The members `vch` and `nReadPos`, which is an `unsigned int`. -/
structure Buffer where
  vch : Bytes
  nReadPos : ℕ
  deriving DecidableEq

/-- What an operation answers: nothing, the bytes that it takes, whether it could be done, that it
throws, or that it accesses memory behind the vector. -/
inductive Answer
  | done
  | bytes (bs : Bytes)
  | flag (b : Bool)
  | thrown
  | undefined
  deriving DecidableEq

/-- The operations. Iterators are told by the number of bytes they are behind `begin()`, and a range
that is inserted is not in the vector itself. -/
inductive Op
  | write (bs : Bytes)
  | read (nSize : ℕ)
  | ignore (nSize : ℤ)
  | rewind (n : ℕ)
  | compact
  | clear
  | resize (n : ℕ) (c : UInt8)
  | insert (p : ℕ) (x : UInt8)
  | insertCount (p n : ℕ) (x : UInt8)
  | insertRange (p : ℕ) (bs : Bytes)
  | eraseAt (p : ℕ)
  | erase (first last : ℕ)

/-- The conversion to `unsigned int`. -/
def unsignedInt (n : ℤ) : ℕ := toUnsigned 32 n

namespace Buffer

/-- `size()`. -/
def size (b : Buffer) : ℕ := b.vch.length - b.nReadPos

/-- The bytes from `begin()` to `end()`. -/
def pending (b : Buffer) : Bytes := b.vch.drop b.nReadPos

/-- `read`. -/
def read (nSize : ℕ) (b : Buffer) : Answer × Buffer :=
  if nSize = 0 then (.bytes [], b)
  else
    let nReadPosNext := unsignedInt (b.nReadPos + nSize)
    if b.vch.length < nReadPosNext then (.thrown, b)
    else
      match load b.vch b.nReadPos nSize with
      | none => (.undefined, b)
      | some pch =>
        if nReadPosNext = b.vch.length then (.bytes pch, ⟨[], 0⟩)
        else (.bytes pch, { b with nReadPos := nReadPosNext })

/-- `ignore`. -/
def ignore (nSize : ℤ) (b : Buffer) : Answer × Buffer :=
  if nSize < 0 then (.thrown, b)
  else
    let nReadPosNext := unsignedInt (b.nReadPos + nSize)
    if b.vch.length ≤ nReadPosNext then
      if b.vch.length < nReadPosNext then (.thrown, b) else (.done, ⟨[], 0⟩)
    else (.done, { b with nReadPos := nReadPosNext })

/-- `Rewind`. -/
def rewind (n : ℕ) (b : Buffer) : Answer × Buffer :=
  if b.nReadPos < n then (.flag false, b) else (.flag true, { b with nReadPos := b.nReadPos - n })

/-- `vch.insert`, `p` bytes behind `begin()`. -/
def vchInsert (p : ℕ) (bs : Bytes) (b : Buffer) : Buffer :=
  { b with vch := b.vch.take (b.nReadPos + p) ++ bs ++ b.vch.drop (b.nReadPos + p) }

/-- `vch.erase`. -/
def vchErase (first last : ℕ) (b : Buffer) : Buffer :=
  { b with vch := b.vch.take (b.nReadPos + first) ++ b.vch.drop (b.nReadPos + last) }

/-- `insert(it, x)`. -/
def insert (p : ℕ) (x : UInt8) (b : Buffer) : Buffer := b.vchInsert p [x]

/-- `insert(it, n, x)`. -/
def insertCount (p n : ℕ) (x : UInt8) (b : Buffer) : Buffer := b.vchInsert p (List.replicate n x)

/-- `insert(it, first, last)`, of both kinds of range. -/
def insertRange (p : ℕ) (bs : Bytes) (b : Buffer) : Answer × Buffer :=
  if bs = [] then (.done, b)
  else if p = 0 ∧ unsignedInt bs.length ≤ b.nReadPos then
    -- there is room in front, over what has been read
    let nReadPos := unsignedInt (b.nReadPos - bs.length)
    match store b.vch nReadPos bs with
    | none => (.undefined, b)
    | some vch => (.done, ⟨vch, nReadPos⟩)
  else (.done, b.vchInsert p bs)

/-- `erase(it)`. -/
def eraseAt (p : ℕ) (b : Buffer) : Buffer :=
  if p = 0 then
    let nReadPos := unsignedInt (b.nReadPos + 1)
    if b.vch.length ≤ nReadPos then ⟨[], 0⟩ else { b with nReadPos := nReadPos }
  else b.vchErase p (p + 1)

/-- `erase(first, last)`. -/
def erase (first last : ℕ) (b : Buffer) : Buffer :=
  if first = 0 then
    if last = b.size then ⟨[], 0⟩ else { b with nReadPos := unsignedInt (b.nReadPos + last) }
  else b.vchErase first last

/-- `resize`, where `n + nReadPos` is a `size_t`. -/
def resize (n : ℕ) (c : UInt8) (b : Buffer) : Buffer :=
  let size := toUnsigned 64 (n + b.nReadPos)
  { b with vch := b.vch.take size ++ List.replicate (size - b.vch.length) c }

/-- The operation on the buffer. -/
def step (op : Op) (b : Buffer) : Answer × Buffer :=
  match op with
  | .write bs => (.done, { b with vch := b.vch ++ bs })
  | .read nSize => b.read nSize
  | .ignore nSize => b.ignore nSize
  | .rewind n => b.rewind n
  | .compact => (.done, ⟨b.vch.drop b.nReadPos, 0⟩)
  | .clear => (.done, ⟨[], 0⟩)
  | .resize n c => (.done, b.resize n c)
  | .insert p x => (.done, b.insert p x)
  | .insertCount p n x => (.done, b.insertCount p n x)
  | .insertRange p bs => b.insertRange p bs
  | .eraseAt p => (.done, b.eraseAt p)
  | .erase first last => (.done, b.erase first last)

end Buffer

/-! ## Two lists -/

/-- What can be taken back, and what is still to come. -/
structure Lists where
  back : Bytes
  pending : Bytes

namespace Lists

/-- Go `n` bytes forward. At the end nothing can be taken back. -/
def forward (n : ℕ) (l : Lists) : Lists :=
  if n = l.pending.length then ⟨[], []⟩ else ⟨l.back ++ l.pending.take n, l.pending.drop n⟩

/-- Bytes put before the `p`-th of those to come. -/
def put (p : ℕ) (bs : Bytes) (l : Lists) : Lists :=
  { l with pending := l.pending.take p ++ bs ++ l.pending.drop p }

/-- The operation on the two lists. -/
def step (op : Op) (l : Lists) : Answer × Lists :=
  match op with
  | .write bs => (.done, { l with pending := l.pending ++ bs })
  | .read nSize =>
    if nSize = 0 then (.bytes [], l)
    else if l.pending.length < nSize then (.thrown, l)
    else (.bytes (l.pending.take nSize), l.forward nSize)
  | .ignore nSize =>
    if nSize < 0 ∨ l.pending.length < nSize.toNat then (.thrown, l)
    else (.done, l.forward nSize.toNat)
  | .rewind n =>
    if l.back.length < n then (.flag false, l)
    else
      let kept := l.back.length - n
      (.flag true, ⟨l.back.take kept, l.back.drop kept ++ l.pending⟩)
  | .compact => (.done, { l with back := [] })
  | .clear => (.done, ⟨[], []⟩)
  | .resize n c =>
    (.done, { l with pending := l.pending.take n ++ List.replicate (n - l.pending.length) c })
  | .insert p x => (.done, l.put p [x])
  | .insertCount p n x => (.done, l.put p (List.replicate n x))
  | .insertRange p bs =>
    if p = 0 ∧ bs.length ≤ l.back.length then
      (.done, ⟨l.back.take (l.back.length - bs.length), bs ++ l.pending⟩)
    else (.done, l.put p bs)
  | .eraseAt p =>
    if p = 0 then (.done, l.forward 1)
    else (.done, { l with pending := l.pending.take p ++ l.pending.drop (p + 1) })
  | .erase first last =>
    if first = 0 then (.done, l.forward last)
    else (.done, { l with pending := l.pending.take first ++ l.pending.drop last })

/-- What a stream may be asked for: positions within it, a read position and ranges that 32 bits
count, and no more bytes than a vector holds. -/
def Allowed (l : Lists) : Op → Prop
  | .write _ => True
  | .read nSize => l.back.length + nSize < 2 ^ 32
  | .ignore nSize => l.back.length + nSize.toNat < 2 ^ 32
  | .rewind _ => True
  | .compact => True
  | .clear => True
  | .resize n _ => l.back.length + n < 2 ^ 63
  | .insert p _ => p ≤ l.pending.length
  | .insertCount p n _ => p ≤ l.pending.length ∧ l.back.length + l.pending.length + n < 2 ^ 63
  | .insertRange p bs => p ≤ l.pending.length ∧ l.back.length < 2 ^ 32 ∧ bs.length < 2 ^ 32
  | .eraseAt p => p < l.pending.length ∧ l.back.length + 1 < 2 ^ 32
  | .erase first last => first ≤ last ∧ last ≤ l.pending.length ∧ l.back.length + last < 2 ^ 32

end Lists

namespace Buffer

variable {b b' : Buffer} {l l' : Lists} {op : Op} {ops : List Op} {n : ℕ}

/-- The vector is the two lists, and the read position is where the second begins. -/
structure Represents (b : Buffer) (l : Lists) : Prop where
  vch_eq : b.vch = l.back ++ l.pending
  nReadPos_eq : b.nReadPos = l.back.length

theorem Represents.length_eq (h : b.Represents l) :
    b.vch.length = b.nReadPos + l.pending.length := by
  rw [h.vch_eq, h.nReadPos_eq, List.length_append]

theorem Represents.size_eq (h : b.Represents l) : b.size = l.pending.length := by
  rw [size, h.length_eq, Nat.add_sub_cancel_left]

theorem Represents.pending_eq (h : b.Represents l) : b.pending = l.pending := by
  rw [pending, h.vch_eq, h.nReadPos_eq, List.drop_left]

/-- A position that fits is kept. -/
theorem unsignedInt_of_lt (hn : n < 2 ^ 32) : unsignedInt n = n := toUnsigned_of_lt hn

/-- The next position does not overflow. -/
theorem Represents.unsignedInt_eq (h : b.Represents l) (hn : l.back.length + n < 2 ^ 32) :
    unsignedInt (b.nReadPos + n) = b.nReadPos + n := by
  rw [h.nReadPos_eq, ← Nat.cast_add]
  exact unsignedInt_of_lt hn

theorem represents_nil : Represents ⟨[], 0⟩ ⟨[], []⟩ := ⟨rfl, rfl⟩

/-- The position moved on, or the buffer released at its end. -/
theorem Represents.forward (h : b.Represents l) (hn : n ≤ l.pending.length) :
    (if b.nReadPos + n = b.vch.length then (⟨[], 0⟩ : Buffer)
      else { b with nReadPos := b.nReadPos + n }).Represents (l.forward n) := by
  obtain ⟨vch, nReadPos⟩ := b
  obtain ⟨rfl, rfl⟩ := h
  simp only [List.length_append, Nat.add_left_cancel_iff, Lists.forward]
  split_ifs with hend
  · exact represents_nil
  · constructor
    · simp
    · simp [hn]

theorem Represents.load_eq (h : b.Represents l) (hn : n ≤ l.pending.length) :
    load b.vch b.nReadPos n = some (l.pending.take n) := by
  rw [load_eq_some (by rw [h.length_eq]; omega)]
  exact congrArg (fun bs => some (bs.take n)) h.pending_eq

theorem Represents.read (h : b.Represents l) (hop : l.Allowed (.read n)) :
    (b.read n).1 = (l.step (.read n)).1 ∧ (b.read n).2.Represents (l.step (.read n)).2 := by
  have hlen := h.length_eq
  unfold Buffer.read Lists.step
  by_cases h0 : n = 0
  · simp [h0, h]
  · rw [if_neg h0, h.unsignedInt_eq hop]
    dsimp only
    rw [if_neg h0]
    by_cases hlt : l.pending.length < n
    · rw [if_pos (by omega), if_pos hlt]
      exact ⟨rfl, h⟩
    · rw [if_neg (by omega), if_neg hlt, h.load_eq (not_lt.mp hlt)]
      have hforward := h.forward (not_lt.mp hlt)
      dsimp only
      split_ifs with hend
      · rw [if_pos hend] at hforward
        exact ⟨rfl, hforward⟩
      · rw [if_neg hend] at hforward
        exact ⟨rfl, hforward⟩

theorem Represents.ignore (h : b.Represents l) {n : ℤ} (hop : l.Allowed (.ignore n)) :
    (b.ignore n).1 = (l.step (.ignore n)).1 ∧ (b.ignore n).2.Represents (l.step (.ignore n)).2 := by
  have hlen := h.length_eq
  unfold Buffer.ignore Lists.step
  by_cases hneg : n < 0
  · simp [hneg, h]
  · have hnext := h.unsignedInt_eq hop
    rw [Int.toNat_of_nonneg (not_lt.mp hneg)] at hnext
    rw [if_neg hneg, hnext]
    dsimp only
    by_cases hlt : l.pending.length < n.toNat
    · rw [if_pos (by omega), if_pos (by omega), if_pos (Or.inr hlt)]
      exact ⟨rfl, h⟩
    · rw [if_neg (show ¬(n < 0 ∨ l.pending.length < n.toNat) by simp [hneg, hlt])]
      have hforward := h.forward (not_lt.mp hlt)
      by_cases hend : b.nReadPos + n.toNat = b.vch.length
      · rw [if_pos hend] at hforward
        rw [if_pos hend.ge, if_neg hend.not_gt]
        exact ⟨rfl, hforward⟩
      · rw [if_neg hend] at hforward
        rw [if_neg (by omega)]
        exact ⟨rfl, hforward⟩

theorem Represents.rewind (h : b.Represents l) (n : ℕ) :
    (b.rewind n).1 = (l.step (.rewind n)).1 ∧ (b.rewind n).2.Represents (l.step (.rewind n)).2 := by
  unfold Buffer.rewind Lists.step
  rw [h.nReadPos_eq]
  dsimp only
  split_ifs with hlt
  · exact ⟨rfl, h⟩
  · refine ⟨rfl, ?_, ?_⟩
    · rw [← List.append_assoc, List.take_append_drop]
      exact h.vch_eq
    · simp

theorem Represents.vchInsert (h : b.Represents l) (p : ℕ) (bs : Bytes) :
    (b.vchInsert p bs).Represents (l.put p bs) := by
  constructor
  · rw [Buffer.vchInsert, Lists.put, h.vch_eq, h.nReadPos_eq, List.take_length_add_append,
      List.drop_length_add_append]
    simp
  · exact h.nReadPos_eq

theorem Represents.vchErase (h : b.Represents l) (first last : ℕ) :
    (b.vchErase first last).Represents
      { l with pending := l.pending.take first ++ l.pending.drop last } := by
  constructor
  · rw [Buffer.vchErase, h.vch_eq, h.nReadPos_eq, List.take_length_add_append,
      List.drop_length_add_append]
    simp
  · exact h.nReadPos_eq

theorem Represents.insertRange (h : b.Represents l) {p : ℕ} {bs : Bytes}
    (hop : l.Allowed (.insertRange p bs)) :
    (b.insertRange p bs).1 = (l.step (.insertRange p bs)).1 ∧
      (b.insertRange p bs).2.Represents (l.step (.insertRange p bs)).2 := by
  obtain ⟨hp, hback, hlt⟩ := hop
  have hlen := h.length_eq
  have hpos := h.nReadPos_eq
  unfold Buffer.insertRange Lists.step
  by_cases hbs : bs = []
  · subst hbs
    rw [if_pos rfl]
    dsimp only
    split_ifs
    · exact ⟨rfl, by simpa using h⟩
    · refine ⟨rfl, ?_⟩
      rw [Lists.put, List.append_nil, List.take_append_drop]
      exact h
  · rw [if_neg hbs, unsignedInt_of_lt hlt, hpos]
    dsimp only
    by_cases hfront : p = 0 ∧ bs.length ≤ l.back.length
    · have hroom : l.back.length - bs.length + bs.length = l.back.length := by omega
      have hnext : unsignedInt ((l.back.length : ℤ) - bs.length) = l.back.length - bs.length := by
        rw [← Nat.cast_sub hfront.2]
        exact unsignedInt_of_lt (by omega)
      rw [if_pos hfront, if_pos hfront, hnext, store_eq_some (by omega)]
      refine ⟨rfl, ?_, by simp⟩
      rw [patch, hroom, h.vch_eq, List.drop_left, List.take_append_of_le_length (by omega),
        List.append_assoc]
    · rw [if_neg hfront, if_neg hfront]
      exact ⟨rfl, h.vchInsert p bs⟩

theorem Represents.eraseAt (h : b.Represents l) {p : ℕ} (hop : l.Allowed (.eraseAt p)) :
    (b.eraseAt p).Represents (l.step (.eraseAt p)).2 := by
  obtain ⟨hp, hlt⟩ := hop
  have hlen := h.length_eq
  unfold Buffer.eraseAt Lists.step
  dsimp only
  by_cases hfirst : p = 0
  · have hnext : unsignedInt ((b.nReadPos : ℤ) + 1) = b.nReadPos + 1 := h.unsignedInt_eq hlt
    have hforward := h.forward (show 1 ≤ l.pending.length by omega)
    rw [if_pos hfirst, if_pos hfirst, hnext]
    -- there is a byte to erase, so that the next position is at most the end
    by_cases hend : b.nReadPos + 1 = b.vch.length
    · rw [if_pos hend] at hforward
      rwa [if_pos hend.ge]
    · rw [if_neg hend] at hforward
      rwa [if_neg (by omega)]
  · rw [if_neg hfirst, if_neg hfirst]
    exact h.vchErase p (p + 1)

theorem Represents.erase (h : b.Represents l) {first last : ℕ}
    (hop : l.Allowed (.erase first last)) :
    (b.erase first last).Represents (l.step (.erase first last)).2 := by
  obtain ⟨-, hlast, hlt⟩ := hop
  have hsize := h.size_eq
  have hlen := h.length_eq
  unfold Buffer.erase Lists.step
  dsimp only
  rw [h.unsignedInt_eq hlt]
  split_ifs with hfirst hend
  · have hforward := h.forward hlast
    rwa [if_pos (by omega)] at hforward
  · have hforward := h.forward hlast
    rwa [if_neg (by omega)] at hforward
  · exact h.vchErase first last

theorem Represents.resize (h : b.Represents l) {n : ℕ} {c : UInt8}
    (hop : l.Allowed (.resize n c)) : (b.resize n c).Represents (l.step (.resize n c)).2 := by
  have hfits : l.back.length + n < 2 ^ 63 := hop
  have hsize : toUnsigned 64 ((n : ℤ) + b.nReadPos) = b.nReadPos + n := by
    rw [h.nReadPos_eq, add_comm, ← Nat.cast_add]
    exact toUnsigned_of_lt (by omega)
  unfold Buffer.resize Lists.step
  dsimp only
  rw [hsize]
  constructor
  · rw [h.vch_eq, h.nReadPos_eq, List.take_length_add_append, List.length_append,
      Nat.add_sub_add_left, List.append_assoc]
  · exact h.nReadPos_eq

theorem Represents.step (h : b.Represents l) (hop : l.Allowed op) :
    (b.step op).1 = (l.step op).1 ∧ (b.step op).2.Represents (l.step op).2 := by
  cases op with
  | write bs =>
    refine ⟨rfl, ?_, h.nReadPos_eq⟩
    change b.vch ++ bs = l.back ++ (l.pending ++ bs)
    rw [h.vch_eq, List.append_assoc]
  | read nSize => exact h.read hop
  | ignore nSize => exact h.ignore hop
  | rewind n => exact h.rewind n
  | compact =>
    refine ⟨rfl, ?_, rfl⟩
    change b.vch.drop b.nReadPos = [] ++ l.pending
    rw [List.nil_append]
    exact h.pending_eq
  | clear => exact ⟨rfl, represents_nil⟩
  | resize n c => exact ⟨rfl, h.resize hop⟩
  | insert p x => exact ⟨rfl, h.vchInsert p [x]⟩
  | insertCount p n x => exact ⟨rfl, h.vchInsert p (List.replicate n x)⟩
  | insertRange p bs => exact h.insertRange hop
  | eraseAt p =>
    refine ⟨?_, h.eraseAt hop⟩
    unfold Lists.step
    dsimp only
    split_ifs <;> rfl
  | erase first last =>
    refine ⟨?_, h.erase hop⟩
    unfold Lists.step
    dsimp only
    split_ifs <;> rfl

end Buffer

/-! ## Runs of operations -/

/-- The answers, and what is left. -/
def run {S : Type} (step : Op → S → Answer × S) : List Op → S → List Answer × S
  | [], s => ([], s)
  | op :: ops, s =>
    let (a, s) := step op s
    let (as, s) := run step ops s
    (a :: as, s)

/-- Each operation is allowed on the lists that those before it leave. -/
def AllAllowed : Lists → List Op → Prop
  | _, [] => True
  | l, op :: ops => l.Allowed op ∧ AllAllowed (l.step op).2 ops

/-- The bytes that an answer takes from the stream. -/
def Answer.taken : Answer → Bytes
  | .bytes bs => bs
  | _ => []

/-- The bytes that an operation puts at the end. -/
def Op.written : Op → Bytes
  | .write bs => bs
  | _ => []

/-- The operations of a stream that is only written at its end and read from its front. -/
def Op.IsStream : Op → Prop
  | .write _ => True
  | .read _ => True
  | .compact => True
  | _ => False

theorem Lists.pending_forward (l : Lists) (n : ℕ) :
    l.pending.take n ++ (l.forward n).pending = l.pending := by
  unfold forward
  split_ifs with hend
  · simp [hend]
  · simp

theorem Lists.fifo_step {l : Lists} {op : Op} (hop : op.IsStream) :
    (l.step op).1.taken ++ (l.step op).2.pending = l.pending ++ op.written := by
  cases op with
  | write bs => rfl
  | read nSize =>
    simp only [step, Op.written, List.append_nil]
    split_ifs with h0 hlt
    · rfl
    · rfl
    · exact l.pending_forward nSize
  | compact => exact (List.append_nil _).symm
  | _ => exact hop.elim

namespace Buffer

variable {b : Buffer} {l : Lists} {ops : List Op}

/-- **Every run of operations** answers as on the two lists, and leaves them. -/
theorem answers_eq (h : b.Represents l) (hops : AllAllowed l ops) :
    (run step ops b).1 = (run Lists.step ops l).1 ∧
      (run step ops b).2.Represents (run Lists.step ops l).2 := by
  induction ops generalizing b l with
  | nil => exact ⟨rfl, h⟩
  | cons op ops ih =>
    obtain ⟨hanswer, hnext⟩ := h.step hops.1
    obtain ⟨hanswers, hrest⟩ := ih hnext hops.2
    simp only [run, hanswer, hanswers, true_and]
    exact hrest

/-- **What is read is what was written**: the bytes that are read, one read after another, and those
that are left make up what was there and what has been written. -/
theorem fifo (h : b.Represents l) (hops : AllAllowed l ops) (hstream : ∀ op ∈ ops, op.IsStream) :
    (run step ops b).1.flatMap Answer.taken ++ (run step ops b).2.pending =
      b.pending ++ ops.flatMap Op.written := by
  induction ops generalizing b l with
  | nil => simp [run]
  | cons op ops ih =>
    rw [List.forall_mem_cons] at hstream
    obtain ⟨hanswer, hnext⟩ := h.step hops.1
    have hstep := l.fifo_step hstream.1
    rw [← hanswer, ← hnext.pending_eq, ← h.pending_eq] at hstep
    calc (run step (op :: ops) b).1.flatMap Answer.taken ++ (run step (op :: ops) b).2.pending
        = (b.step op).1.taken ++ ((run step ops (b.step op).2).1.flatMap Answer.taken ++
            (run step ops (b.step op).2).2.pending) := by
          simp only [run, List.flatMap_cons, List.append_assoc]
      _ = ((b.step op).1.taken ++ (b.step op).2.pending) ++ ops.flatMap Op.written := by
          rw [ih hnext hops.2 hstream.2, List.append_assoc]
      _ = b.pending ++ (op :: ops).flatMap Op.written := by
          rw [hstep, List.flatMap_cons, List.append_assoc]

def written : List Op :=
  [.write [1, 2, 3], .read 2, .insert 0 9, .rewind 1, .insertRange 0 [7], .rewind 1, .eraseAt 0,
    .read 4, .read 3]

/-- A byte is put in front of those to come and one is taken back, which a range is put over. -/
theorem answers_eq_written : (run step written ⟨[], 0⟩).1 =
    [.done, .bytes [1, 2], .done, .flag true, .done, .flag false, .done, .thrown,
      .bytes [2, 9, 3]] := by
  refine (answers_eq represents_nil ?_).1.trans (by decide)
  simp [AllAllowed, written, Lists.Allowed, Lists.step, Lists.forward, Lists.put]

def pieces : List Op := [.write [1, 2, 3], .read 2, .write [4], .read 2]

/-- Bytes are written and read in other pieces. -/
theorem fifo_pieces : (run step pieces ⟨[], 0⟩).1.flatMap Answer.taken ++
    (run step pieces ⟨[], 0⟩).2.pending = [1, 2, 3, 4] :=
  fifo represents_nil (by simp [pieces, AllAllowed, Lists.Allowed, Lists.step, Lists.forward])
    (by simp [pieces, Op.IsStream])

/-! ## Decoders -/

/-- The stream, as what answers a decoder. -/
def answer : Dialog.Handler ℕ (fun _ => Bytes) Failure Buffer := fun nSize b =>
  match b.read nSize with
  | (.bytes bs, b) => (.ok bs, b)
  | (_, b) => (.error .endOfData, b)

/-- Requests for at most `m` bytes. -/
def requests (m : ℕ) : Discipline ℕ (fun _ => Bytes) Unit :=
  ⟨fun _ n => n ≤ m, fun _ _ => True, fun g _ _ => g⟩

/-- It asks for at most `m` bytes at a time. -/
def AsksUpTo {α : Type} (m : ℕ) (d : Decoder α) : Prop := d.Obeys (requests m) (fun _ _ => True) ()

theorem Represents.answer (h : b.Represents l) {n : ℕ} (hn : b.vch.length + n < 2 ^ 32) :
    (l.pending.length < n ∧ b.answer n = (.error .endOfData, b)) ∨
    n ≤ l.pending.length ∧ ∃ b' l', b.answer n = (.ok (l.pending.take n), b') ∧
      b'.Represents l' ∧ l'.pending = l.pending.drop n ∧ b'.vch.length ≤ b.vch.length := by
  have hlen := h.length_eq
  have hback := h.nReadPos_eq
  unfold Buffer.answer Buffer.read
  rw [h.unsignedInt_eq (by omega)]
  by_cases h0 : n = 0
  · subst h0
    exact .inr ⟨Nat.zero_le _, b, l, rfl, h, rfl, le_rfl⟩
  · rw [if_neg h0]
    dsimp only
    by_cases hlt : l.pending.length < n
    · rw [if_pos (by omega)]
      exact .inl ⟨hlt, rfl⟩
    · rw [if_neg (by omega), h.load_eq (not_lt.mp hlt)]
      dsimp only
      have hforward := h.forward (not_lt.mp hlt)
      have hpending : (l.forward n).pending = l.pending.drop n := by
        unfold Lists.forward
        split_ifs with hend
        · simp [hend]
        · rfl
      refine .inr ⟨not_lt.mp hlt, _, l.forward n, ?_, hforward, hpending, ?_⟩
      · split_ifs <;> rfl
      · split_ifs <;> simp

/-- **A decoder reads from the buffer** what it reads from the bytes to come, as long as no request
makes the position overflow. -/
theorem run_decoder {α : Type} {m : ℕ} {d : Decoder α} (hd : AsksUpTo m d) (h : b.Represents l)
    (hm : b.vch.length + m < 2 ^ 32) :
    (d.run answer b).1 = (d.run CDataStream.read l.pending).1 ∧
      (d.run answer b).2.pending = (d.run CDataStream.read l.pending).2 := by
  induction d generalizing b l with
  | done r => exact ⟨rfl, h.pending_eq⟩
  | fail e => exact ⟨rfl, h.pending_eq⟩
  | ask n k ih =>
    have hn : n ≤ m := hd.1
    rw [Dialog.run_ask, Dialog.run_ask, CDataStream.read]
    obtain ⟨hlt, hrun⟩ | ⟨hle, b', l', hrun, hrep, hpending, hvch⟩ := h.answer (n := n) (by omega)
    · rw [hrun, if_neg (by omega)]
      exact ⟨rfl, h.pending_eq⟩
    · rw [hrun, if_pos hle, ← hpending]
      exact ih _ (hd.2 _ trivial) hrep (by omega)

/-- What `GetTXOs` does with a stored value: it is copied into a stream, and read from there. -/
theorem run_outPoint (data : Bytes) (hdata : data.length + 32 < 2 ^ 32) :
    (COutPoint.unserialize.run answer ⟨data, 0⟩).1 =
      (COutPoint.unserialize.run CDataStream.read data).1 := by
  have hasks : AsksUpTo 32 COutPoint.unserialize := by
    refine ⟨le_rfl, fun hash _ => ⟨by simp [requests], fun n _ => trivial⟩⟩
  have hrep : Represents ⟨data, 0⟩ ⟨[], data⟩ := ⟨rfl, rfl⟩
  exact (run_decoder hasks hrep hdata).1

end Buffer

end CDataStream

end ElectrumZ.Bitcoin
