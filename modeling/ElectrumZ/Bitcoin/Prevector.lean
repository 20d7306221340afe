import ElectrumZ.Bitcoin.Serialize
import ElectrumZ.Foundations.Formats
import ElectrumZ.Foundations.Memory
import ElectrumZ.Foundations.Words

/-!
# The vector behind a script

A `prevector<N, T>` keeps up to `N` elements in the object itself and more of them in allocated
memory; which of the two it is, and how many there are, is told by one number. Counts are converted
to 32 bits, and positions to 32 bits with a sign, so that from `2 ^ 31` on they point in front of
the memory.

* `Stores`: what the object looks like when it holds the first `n` of some cells.
* `Prevector.run_spec`: **every run of operations** with fewer than `2 ^ 31` elements does to the
  elements what it does to those of a list, and reads and writes nothing beyond the memory of the
  vector, or it ends in an assertion because memory could not be allocated.
* `Prevector.run_unserialize`: reading a vector of bytes, whatever it held before, is reading a list
  of bytes.
-/

namespace ElectrumZ.Bitcoin

open Foundations Foundations.Memory

/-- `direct_or_indirect`: the cells in the object, or those of memory that has been allocated. -/
inductive DirectOrIndirect (T : Type)
  | direct (cells : List T)
  | indirect (capacity : ℕ) (cells : List T)
  deriving DecidableEq

/-- `prevector<N, T>`, with counts of 32 bits. -/
structure Prevector (N : ℕ) (T : Type) where
  _size : ℕ
  _union : DirectOrIndirect T
  deriving DecidableEq

namespace Prevector

variable {N : ℕ} {T : Type}

/-- Why an operation has no result: an assertion fails, or memory is accessed that is not there. -/
inductive Stop
  | assertion
  | undefined
  deriving DecidableEq

/-- What memory gives: the cells that are allocated, if they can be, and what the bytes of the
object read as. -/
structure Heap (T : Type) where
  malloc : ℕ → Option (ℕ → T)
  bytes : ℕ → T

/-- The conversion to `size_type`, which is `uint32_t`. -/
def sizeType (n : ℤ) : ℕ := toUnsigned 32 n

/-- The conversion to `difference_type`, which is `int32_t`. -/
def differenceType (n : ℤ) : ℤ := toSigned 32 n

/-- What memory that is not there gives is undefined. -/
def defined {α : Type} : Option α → Except Stop α
  | some a => .ok a
  | none => .error .undefined

/-- `is_direct`. -/
def isDirect (v : Prevector N T) : Bool := v._size ≤ N

/-- `size()`. -/
def size (v : Prevector N T) : ℕ := if v.isDirect then v._size else v._size - N - 1

/-- The cells of the object, or of the memory it has allocated. -/
def block (v : Prevector N T) : List T :=
  match v._union with
  | .direct cells => cells
  | .indirect _ cells => cells

/-- The cells that `is_direct` tells. -/
def cells (v : Prevector N T) : Except Stop (List T) :=
  match v.isDirect, v._union with
  | true, .direct cells => .ok cells
  | false, .indirect _ cells => .ok cells
  | _, _ => .error .undefined

/-- The vector with other cells in the same place. -/
def withCells (v : Prevector N T) (cells : List T) : Prevector N T :=
  match v._union with
  | .direct _ => { v with _union := .direct cells }
  | .indirect capacity _ => { v with _union := .indirect capacity cells }

/-- `item_ptr`. A pointer is told by the number of cells it is behind the first one; since the
position is converted to `difference_type` that may be a negative number. -/
def itemPtr (pos : ℤ) (v : Prevector N T) : Except Stop ℤ := do
  let _ ← v.cells
  return differenceType pos

/-- `begin()`. -/
def beginPtr (v : Prevector N T) : Except Stop ℤ := v.itemPtr 0

/-- `end()`. -/
def endPtr (v : Prevector N T) : Except Stop ℤ := v.itemPtr v.size

/-- `capacity()`. -/
def capacity (v : Prevector N T) : Except Stop ℕ :=
  if v.isDirect then .ok N
  else match v._union with
    | .direct _ => .error .undefined
    | .indirect capacity _ => .ok capacity

/-- `_size += k`. -/
def grow (k : ℤ) (v : Prevector N T) : Prevector N T := { v with _size := sizeType (v._size + k) }

/-- What is written through a pointer. Writing nothing is no access. -/
def write (ptr : ℤ) (vals : List T) (v : Prevector N T) : Except Stop (Prevector N T) :=
  if vals = [] then return v
  else if ptr < 0 then throw .undefined
  else do
    let cells ← defined (store v.block ptr.toNat vals)
    return v.withCells cells

/-- `memmove` of `n` cells. -/
def memmove (dst src n : ℤ) (v : Prevector N T) : Except Stop (Prevector N T) :=
  if n = 0 then return v
  else if dst < 0 ∨ src < 0 ∨ n < 0 then throw .undefined
  else do
    let cells ← defined (move v.block dst.toNat src.toNat n.toNat)
    return v.withCells cells

/-- `n` cells of memory, from `start` on. -/
def fresh (mem : ℕ → T) (start n : ℕ) : List T := (List.range' start n).map mem

theorem length_fresh {mem : ℕ → T} {start n : ℕ} : (fresh mem start n).length = n := by
  rw [fresh, List.length_map, List.length_range']

variable (heap : Heap T)

/-- `change_capacity`. -/
def changeCapacity (new_capacity : ℕ) (v : Prevector N T) : Except Stop (Prevector N T) :=
  if new_capacity ≤ N then
    if v.isDirect then return v
    else do
      let indirect ← v.cells
      let vals ← defined (load indirect 0 v.size)
      -- the elements go over the bytes of the pointer, which has been copied
      let direct ← defined (store (fresh heap.bytes 0 N) 0 vals)
      return ⟨v._size - (N + 1), .direct direct⟩
  else do
    let cells ← v.cells
    match heap.malloc new_capacity with
    | none => throw .assertion
    | some mem =>
      if v.isDirect then
        let vals ← defined (load cells 0 v.size)
        let indirect ← defined (store (fresh mem 0 new_capacity) 0 vals)
        return ⟨sizeType (v._size + (N + 1)), .indirect new_capacity indirect⟩
      else
        -- `realloc` keeps what fits
        return ⟨v._size, .indirect new_capacity (cells.take new_capacity ++
          fresh mem cells.length (new_capacity - cells.length))⟩

/-- Have a capacity of at least `n`, by asking for `wanted`. -/
def ensureCapacity (n wanted : ℕ) (v : Prevector N T) : Except Stop (Prevector N T) := do
  if (← v.capacity) < n then v.changeCapacity heap wanted else return v

/-- What growing by an insertion asks for. -/
def grown (new_size : ℕ) : ℕ := sizeType (new_size + new_size >>> 1)

/-- `reserve`. -/
def reserve (new_capacity : ℕ) (v : Prevector N T) : Except Stop (Prevector N T) :=
  v.ensureCapacity heap new_capacity new_capacity

/-- `shrink_to_fit`. -/
def shrinkToFit (v : Prevector N T) : Except Stop (Prevector N T) := v.changeCapacity heap v.size

/-- `erase(first, last)`. -/
def erase (first last : ℤ) (v : Prevector N T) : Except Stop (Prevector N T) := do
  let endp ← v.endPtr
  (v.grow (-differenceType (last - first))).memmove first last (endp - last)

/-- `resize`. -/
def resize [Inhabited T] (new_size : ℕ) (v : Prevector N T) : Except Stop (Prevector N T) :=
  let cur_size := v.size
  if cur_size = new_size then return v
  else if new_size < cur_size then do
    let first ← v.itemPtr new_size
    let last ← v.endPtr
    v.erase first last
  else do
    let v ← v.ensureCapacity heap new_size new_size
    let increase := new_size - cur_size
    let dst ← v.itemPtr cur_size
    let v ← v.write dst (List.replicate increase default)
    return v.grow increase

/-- `clear`. -/
def clear [Inhabited T] (v : Prevector N T) : Except Stop (Prevector N T) := v.resize heap 0

/-- What both forms of `assign` do: so many elements, and then these written from the first on. -/
def assignFrom [Inhabited T] (n : ℕ) (vals : List T) (v : Prevector N T) :
    Except Stop (Prevector N T) := do
  let v ← v.clear heap
  let v ← v.ensureCapacity heap n n
  let v := v.grow n
  let dst ← v.itemPtr 0
  v.write dst vals

/-- `assign(n, val)`. -/
def assign [Inhabited T] (n : ℕ) (val : T) (v : Prevector N T) : Except Stop (Prevector N T) :=
  v.assignFrom heap n (List.replicate n val)

/-- `assign(first, last)`, of a range that is not in the vector. -/
def assignRange [Inhabited T] (vals : List T) (v : Prevector N T) : Except Stop (Prevector N T) :=
  v.assignFrom heap (sizeType vals.length) vals

/-- What the three forms of `insert` do before they write: `count` cells are free at position `p`,
to which the pointer points. -/
def makeRoom (pos count : ℤ) (v : Prevector N T) : Except Stop (ℕ × ℤ × Prevector N T) := do
  let first ← v.beginPtr
  let p := sizeType (differenceType (pos - first))
  let new_size := sizeType (v.size + count)
  let v ← v.ensureCapacity heap new_size (grown new_size)
  let ptr ← v.itemPtr p
  let v ← v.memmove (ptr + count) ptr (sizeType (v.size - p))
  return (p, ptr, v.grow count)

/-- `insert(pos, value)`. -/
def insert (pos : ℤ) (value : T) (v : Prevector N T) : Except Stop (Prevector N T) := do
  let (_, ptr, v) ← v.makeRoom heap pos 1
  v.write ptr [value]

/-- `insert(pos, count, value)`, which asks for the pointer again. -/
def insertCount (pos : ℤ) (count : ℕ) (value : T) (v : Prevector N T) :
    Except Stop (Prevector N T) := do
  let (p, _, v) ← v.makeRoom heap pos count
  let ptr ← v.itemPtr p
  v.write ptr (List.replicate count value)

/-- `insert(pos, first, last)`, of a range that is not in the vector. -/
def insertRange (pos : ℤ) (vals : List T) (v : Prevector N T) : Except Stop (Prevector N T) := do
  let (_, ptr, v) ← v.makeRoom heap pos (differenceType vals.length)
  v.write ptr vals

/-- `push_back`. -/
def pushBack (value : T) (v : Prevector N T) : Except Stop (Prevector N T) := do
  let new_size := sizeType (v.size + 1)
  let v ← v.ensureCapacity heap new_size (grown new_size)
  let ptr ← v.itemPtr v.size
  let v ← v.write ptr [value]
  return v.grow 1

/-- `pop_back`. -/
def popBack (v : Prevector N T) : Except Stop (Prevector N T) := do
  let last ← v.endPtr
  v.erase (last - 1) last

/-- What is written to `v[i]` and the elements behind it. -/
def assignElements (i : ℕ) (vals : List T) (v : Prevector N T) : Except Stop (Prevector N T) := do
  let ptr ← v.itemPtr i
  v.write ptr vals

/-- The elements, from `begin()` to `end()`. -/
def elements (v : Prevector N T) : Except Stop (List T) := do
  let first ← v.beginPtr
  let last ← v.endPtr
  if first < 0 ∨ last < first then throw .undefined
  else defined (load v.block first.toNat (last - first).toNat)

/-- The default constructor. Its bytes are zero. -/
def empty (N : ℕ) (T : Type) [Inhabited T] : Prevector N T :=
  ⟨0, .direct (List.replicate N default)⟩

/-! ## What the object looks like -/

/-- The vector has these cells, and the first `n` are its elements. -/
inductive Stores (cells : List T) (n : ℕ) : Prevector N T → Prop
  | direct (hcells : cells.length = N) (hn : n ≤ cells.length) : Stores cells n ⟨n, .direct cells⟩
  | indirect (hcells : N < cells.length) (hn : n ≤ cells.length) :
      Stores cells n ⟨n + (N + 1), .indirect cells.length cells⟩

/-- The elements of the vector are `xs`. -/
def Holds (xs : List T) (v : Prevector N T) : Prop :=
  ∃ cells n, Stores cells n v ∧ cells.take n = xs

variable {heap} {cells cells' vals xs : List T} {n k : ℕ} {v v' : Prevector N T}

/-- The operation returns such a result, or memory could not be allocated. -/
def Returns {α : Type} (heap : Heap T) (r : Except Stop α) (P : α → Prop) : Prop :=
  (∃ a, r = .ok a ∧ P a) ∨ r = .error .assertion ∧ ∃ c, heap.malloc c = none

/-- Not proved by `rfl`, so that the kernel is not left to find out by evaluating `f a`. -/
theorem ok_bind {α β : Type} (a : α) (f : α → Except Stop β) : Except.ok a >>= f = f a := by
  cases hfa : f a <;> exact hfa

theorem returns_ok {α : Type} {P : α → Prop} {a : α} (h : P a) : Returns heap (.ok a) P :=
  .inl ⟨a, rfl, h⟩

theorem Returns.bind {α β : Type} {r : Except Stop α} {P : α → Prop} {Q : β → Prop}
    {f : α → Except Stop β} (h : Returns heap r P) (hf : ∀ a, P a → Returns heap (f a) Q) :
    Returns heap (r >>= f) Q := by
  obtain ⟨a, rfl, ha⟩ | ⟨rfl, hnone⟩ := h
  · exact hf a ha
  · exact .inr ⟨rfl, hnone⟩

theorem Returns.mono {α : Type} {r : Except Stop α} {P Q : α → Prop} (h : Returns heap r P)
    (hPQ : ∀ a, P a → Q a) : Returns heap r Q := by
  obtain ⟨a, hr, ha⟩ | hstop := h
  · exact .inl ⟨a, hr, hPQ a ha⟩
  · exact .inr hstop

/-! ### Numbers that fit -/

theorem sizeType_of_lt (h : n < 2 ^ 32) : sizeType n = n := toUnsigned_of_lt h

theorem differenceType_of_lt (h : n < 2 ^ 31) : differenceType n = n := toSigned_of_lt (by omega)

theorem differenceType_modEq (n : ℤ) : differenceType n ≡ n [ZMOD 2 ^ 32] := toSigned_modEq 32 n

/-- Growing asks for half as many again. -/
theorem grown_of_lt (h : n < 2 ^ 31) : grown n = n + n / 2 := by
  rw [grown, Nat.shiftRight_one]
  exact sizeType_of_lt (by omega)

theorem isDirect_of_le {u : DirectOrIndirect T} (hn : n ≤ N) :
    (⟨n, u⟩ : Prevector N T).isDirect = true := decide_eq_true hn

theorem isDirect_add {u : DirectOrIndirect T} :
    (⟨n + (N + 1), u⟩ : Prevector N T).isDirect = false := decide_eq_false (by simp only; omega)

/-- Some values stored at the front of fresh memory. -/
theorem store_fresh (mem : ℕ → T) (hle : vals.length ≤ k) :
    ∃ cells', store (fresh mem 0 k) 0 vals = some cells' ∧ cells'.length = k ∧
      cells'.take vals.length = vals := by
  have hfits : 0 + vals.length ≤ (fresh mem 0 k).length := by
    rw [length_fresh]
    omega
  refine ⟨_, store_eq_some hfits, (length_patch hfits).trans length_fresh, ?_⟩
  have htake := take_patch_append hfits
  rwa [List.take_zero, List.nil_append, Nat.zero_add] at htake

namespace Stores

theorem le_length (h : Stores cells n v) : n ≤ cells.length := by
  cases h with
  | direct _ hn => exact hn
  | indirect _ hn => exact hn

theorem size_eq (h : Stores cells n v) : v.size = n := by
  cases h with
  | direct hcells hn => exact if_pos (isDirect_of_le (by omega))
  | indirect =>
    rw [size, isDirect_add, if_neg Bool.false_ne_true]
    simp only
    omega

theorem cells_eq (h : Stores cells n v) : v.cells = .ok cells := by
  cases h with
  | direct hcells hn => rw [Prevector.cells, isDirect_of_le (by omega)]
  | indirect => rw [Prevector.cells, isDirect_add]

theorem capacity_eq (h : Stores cells n v) : v.capacity = .ok cells.length := by
  cases h with
  | direct hcells hn => rw [capacity, isDirect_of_le (by omega), if_pos rfl, hcells]
  | indirect => rw [capacity, isDirect_add, if_neg Bool.false_ne_true]

theorem withCells (h : Stores cells n v) (hlen : cells'.length = cells.length) :
    Stores cells' n (v.withCells cells') := by
  cases h with
  | direct hcells hn => exact .direct (by omega) (by omega)
  | indirect hcells hn =>
    rw [← hlen]
    exact .indirect (by omega) (by omega)

theorem block_eq (h : Stores cells n v) : v.block = cells := by
  cases h <;> rfl

theorem itemPtr_eq (h : Stores cells n v) (pos : ℤ) : v.itemPtr pos = .ok (differenceType pos) := by
  rw [itemPtr, h.cells_eq]
  rfl

/-- A position below `2 ^ 31` is pointed to. -/
theorem itemPtr_of_lt (h : Stores cells n v) {pos : ℕ} (hpos : pos < 2 ^ 31) :
    v.itemPtr pos = .ok (pos : ℤ) := by
  rw [h.itemPtr_eq, differenceType_of_lt hpos]

/-- Another number of elements. What is added to `_size` need be right modulo `2 ^ 32` only. -/
theorem grow (hN : N < 2 ^ 31) (h : Stores cells n v) {m : ℕ} {k : ℤ} (hm : m ≤ cells.length)
    (hlt : m < 2 ^ 31) (hk : n + k ≡ m [ZMOD 2 ^ 32]) : Stores cells m (v.grow k) := by
  cases h with
  | direct hcells hn =>
    have hsize : sizeType (n + k) = m := toUnsigned_of_modEq (by omega) hk
    rw [Prevector.grow, hsize]
    exact .direct hcells hm
  | indirect hcells hn =>
    have hsize : sizeType ((n + (N + 1) : ℕ) + k) = m + (N + 1) := by
      refine toUnsigned_of_modEq (by omega) ?_
      rw [Nat.cast_add, Nat.cast_add, add_right_comm]
      exact hk.add_right _
    rw [Prevector.grow, hsize]
    exact .indirect hcells hm

theorem write (h : Stores cells n v) (pos : ℕ) (vals : List T)
    (hpos : pos + vals.length ≤ cells.length) :
    ∃ v', v.write pos vals = .ok v' ∧ Stores (patch cells pos vals) n v' := by
  rw [Prevector.write]
  split_ifs with hnil hneg
  · subst hnil
    exact ⟨v, rfl, by rwa [patch_nil]⟩
  · omega
  · refine ⟨v.withCells (patch cells pos vals), ?_, h.withCells (length_patch hpos)⟩
    rw [h.block_eq, Int.toNat_natCast, store_eq_some hpos]
    rfl

theorem memmove (h : Stores cells n v) (dst src m : ℕ) (hsrc : src + m ≤ cells.length)
    (hdst : dst + m ≤ cells.length) :
    ∃ v', v.memmove dst src m = .ok v' ∧
      Stores (patch cells dst ((cells.drop src).take m)) n v' := by
  rw [Prevector.memmove]
  split_ifs with hzero hneg
  · obtain rfl : m = 0 := by omega
    exact ⟨v, rfl, by rwa [List.take_zero, patch_nil]⟩
  · omega
  · refine ⟨v.withCells (patch cells dst ((cells.drop src).take m)), ?_, h.withCells ?_⟩
    · rw [h.block_eq, Int.toNat_natCast, Int.toNat_natCast, Int.toNat_natCast,
        move_eq_some hsrc hdst]
      rfl
    · apply length_patch
      rw [List.length_take, List.length_drop]
      omega

/-- Elements put behind those that are there, and counted. -/
theorem append (hN : N < 2 ^ 31) (h : Stores cells n v) (vals : List T)
    (hle : n + vals.length ≤ cells.length) (hlt : n + vals.length < 2 ^ 31) :
    ∃ v', v.write n vals = .ok v' ∧ Holds (cells.take n ++ vals) (v'.grow vals.length) := by
  obtain ⟨v', hrun, hstores⟩ := h.write n vals hle
  have hgrow := hstores.grow hN (m := n + vals.length) (k := vals.length)
    (by rwa [length_patch hle]) hlt (by rw [Nat.cast_add])
  exact ⟨v', hrun, _, _, hgrow, take_patch_append hle⟩

variable (heap)

/-- What changing the capacity leaves, unless it ends in an assertion. -/
theorem changeCapacity (hN : N < 2 ^ 31) (h : Stores cells n v) {c : ℕ} (hc : n ≤ c) :
    Returns heap (v.changeCapacity heap c) fun v' =>
      ∃ cells', Stores cells' n v' ∧ cells'.take n = cells.take n ∧ c ≤ cells'.length := by
  have hn := h.le_length
  have hload : load cells 0 n = some (cells.take n) := by
    rw [load_eq_some (by omega), List.drop_zero]
  have hlen : (cells.take n).length = n := List.length_take_of_le hn
  have hfresh (mem : ℕ → T) {m : ℕ} (hm : n ≤ m) :
      ∃ cells', store (fresh mem 0 m) 0 (cells.take n) = some cells' ∧ cells'.length = m ∧
        cells'.take n = cells.take n := by
    have hstore := store_fresh mem (show (cells.take n).length ≤ m from hlen.trans_le hm)
    rwa [hlen] at hstore
  have hsize := h.size_eq
  have hcells := h.cells_eq
  unfold Prevector.changeCapacity
  by_cases hcN : c ≤ N
  · rw [if_pos hcN]
    left
    cases h with
    | direct hlength =>
      rw [if_pos (isDirect_of_le (by omega))]
      exact ⟨_, rfl, cells, .direct hlength hn, rfl, by omega⟩
    | indirect =>
      obtain ⟨cells', hstore, hlength, htake⟩ := hfresh heap.bytes (m := N) (by omega)
      rw [isDirect_add, if_neg Bool.false_ne_true, hcells, hsize]
      refine ⟨⟨n, .direct cells'⟩, ?_, cells', .direct hlength (by omega), htake, by omega⟩
      simp [hload, hstore, defined, ok_bind, pure, Except.pure]
  · rw [if_neg hcN, hcells]
    simp only [ok_bind]
    cases hmalloc : heap.malloc c with
    | none => exact .inr ⟨rfl, c, hmalloc⟩
    | some mem =>
      left
      cases h with
      | direct hlength =>
        obtain ⟨cells', hstore, hlength', htake⟩ := hfresh mem hc
        refine ⟨⟨n + (N + 1), .indirect cells'.length cells'⟩, ?_, cells',
          .indirect (by omega) (by omega), htake, by omega⟩
        simp only
        rw [if_pos (isDirect_of_le (by omega)), hsize]
        have hsizeType : sizeType (n + (N + 1)) = n + (N + 1) := by
          have hlt := sizeType_of_lt (show n + (N + 1) < 2 ^ 32 by omega)
          rwa [Nat.cast_add, Nat.cast_add, Nat.cast_one] at hlt
        simp [hload, hstore, defined, ok_bind, pure, Except.pure, hlength', hsizeType]
      | indirect hlength =>
        have hlength' : (cells.take c ++ fresh mem cells.length (c - cells.length)).length = c := by
          rw [List.length_append, List.length_take, length_fresh]
          omega
        refine ⟨⟨n + (N + 1), .indirect c (cells.take c ++ fresh mem cells.length
          (c - cells.length))⟩, ?_, _, ?_, ?_, hlength'.ge⟩
        · simp only
          rw [isDirect_add, if_neg Bool.false_ne_true]
          rfl
        · have hstores : Stores _ n (⟨_, .indirect _ _⟩ : Prevector N T) := .indirect
            (by omega : N < (cells.take c ++ fresh mem cells.length (c - cells.length)).length)
            (by omega)
          rwa [hlength'] at hstores
        · rw [List.take_append_of_le_length (by rw [List.length_take]; omega), List.take_take,
            Nat.min_eq_left hc]

/-- **Room for `m` elements**, by asking for at least as many. -/
theorem ensureCapacity (hN : N < 2 ^ 31) (h : Stores cells n v) {m wanted : ℕ}
    (hwanted : m ≤ wanted) :
    Returns heap (v.ensureCapacity heap m wanted) fun v' =>
      ∃ cells', Stores cells' n v' ∧ cells'.take n = cells.take n ∧ m ≤ cells'.length := by
  have hn := h.le_length
  rw [Prevector.ensureCapacity, h.capacity_eq]
  simp only [ok_bind]
  split_ifs with hlt
  · refine (h.changeCapacity heap hN (show n ≤ wanted by omega)).mono ?_
    rintro v' ⟨cells', hstores, htake, hle⟩
    exact ⟨cells', hstores, htake, by omega⟩
  · exact returns_ok ⟨cells, h, rfl, by omega⟩

end Stores

/-! ## What the operations do -/

theorem Holds.stores (h : Holds xs v) :
    ∃ cells, Stores cells xs.length v ∧ cells.take xs.length = xs := by
  obtain ⟨cells, n, hstores, rfl⟩ := h
  have hn := hstores.le_length
  rw [List.length_take_of_le hn]
  exact ⟨cells, hstores, rfl⟩

theorem Holds.size_eq (h : Holds xs v) : v.size = xs.length := by
  obtain ⟨cells, hstores, -⟩ := h.stores
  exact hstores.size_eq

theorem Holds.itemPtr_eq (h : Holds xs v) (pos : ℤ) : v.itemPtr pos = .ok (differenceType pos) := by
  obtain ⟨cells, hstores, -⟩ := h.stores
  exact hstores.itemPtr_eq pos

theorem Holds.itemPtr_of_lt (h : Holds xs v) {pos : ℕ} (hpos : pos < 2 ^ 31) :
    v.itemPtr pos = .ok (pos : ℤ) := by
  rw [h.itemPtr_eq, differenceType_of_lt hpos]

theorem Holds.beginPtr_eq (h : Holds xs v) : v.beginPtr = .ok 0 :=
  h.itemPtr_of_lt (show 0 < 2 ^ 31 by norm_num)

theorem Holds.endPtr_eq (h : Holds xs v) : v.endPtr = .ok (differenceType xs.length) := by
  rw [endPtr, h.size_eq, h.itemPtr_eq]

theorem Holds.endPtr_of_lt (h : Holds xs v) (hlt : xs.length < 2 ^ 31) :
    v.endPtr = .ok (xs.length : ℤ) := by
  rw [h.endPtr_eq, differenceType_of_lt hlt]

theorem Holds.elements_eq (h : Holds xs v) (hlt : xs.length < 2 ^ 31) : v.elements = .ok xs := by
  obtain ⟨cells, hstores, htake⟩ := h.stores
  have hle := hstores.le_length
  rw [elements, h.beginPtr_eq, h.endPtr_of_lt hlt, hstores.block_eq]
  simp only [ok_bind]
  rw [if_neg (by omega), sub_zero, Int.toNat_natCast, Int.toNat_zero, load_eq_some (by omega),
    List.drop_zero, htake]
  rfl

theorem holds_empty [Inhabited T] : Holds [] (empty N T) :=
  ⟨_, 0, .direct List.length_replicate (Nat.zero_le _), List.take_zero⟩

/-- What is written among the elements. -/
theorem Holds.write (h : Holds xs v) (i : ℕ) (vals : List T) (hi : i + vals.length ≤ xs.length) :
    ∃ v', v.write i vals = .ok v' ∧ Holds (patch xs i vals) v' := by
  obtain ⟨cells, hstores, htake⟩ := h.stores
  have hle := hstores.le_length
  obtain ⟨v', hrun, hstores'⟩ := hstores.write i vals (by omega)
  refine ⟨v', hrun, _, _, hstores', ?_⟩
  rw [take_patch hi hle, htake]

theorem Holds.erase (hN : N < 2 ^ 31) (h : Holds xs v) (hlt : xs.length < 2 ^ 31) {first last : ℕ}
    (hfirst : first ≤ last) (hlast : last ≤ xs.length) :
    ∃ v', v.erase first last = .ok v' ∧ Holds (xs.take first ++ xs.drop last) v' := by
  obtain ⟨cells, hstores, htake⟩ := h.stores
  have hle := hstores.le_length
  have hcount : differenceType ((last : ℤ) - first) = ((last - first : ℕ) : ℤ) := by
    rw [← Nat.cast_sub hfirst]
    exact differenceType_of_lt (by omega)
  have hlen : (xs.length : ℤ) + -((last - first : ℕ) : ℤ) = (xs.length - (last - first) : ℕ) := by
    omega
  have hgrow := hstores.grow hN (m := xs.length - (last - first)) (by omega) (by omega)
    (congrArg (· % 2 ^ 32) hlen)
  obtain ⟨v', hrun, hstores'⟩ := hgrow.memmove first last (xs.length - last) (by omega) (by omega)
  refine ⟨v', ?_, _, _, hstores', ?_⟩
  · rw [Prevector.erase, h.endPtr_of_lt hlt, hcount]
    simp only [ok_bind]
    rw [← Nat.cast_sub hlast]
    exact hrun
  · rw [take_patch_erase hfirst hlast hle, htake]

/-- Erasing up to the end moves no element, so that it does not matter where `end()` points. -/
theorem Holds.truncate (hN : N < 2 ^ 31) (h : Holds xs v) {m : ℕ} (hm : m < 2 ^ 31)
    (hle : m ≤ xs.length) :
    ∃ v', v.erase m (differenceType xs.length) = .ok v' ∧ Holds (xs.take m) v' := by
  obtain ⟨cells, hstores, htake⟩ := h.stores
  have hcells := hstores.le_length
  -- both conversions are undone modulo `2 ^ 32`
  have hcount : differenceType (differenceType xs.length - m) ≡ xs.length - m [ZMOD 2 ^ 32] :=
    (differenceType_modEq _).trans ((differenceType_modEq _).sub_right _)
  have hsub := hcount.neg.add_left xs.length
  rw [neg_sub, add_sub_cancel] at hsub
  have hgrow := hstores.grow hN (by omega) hm hsub
  refine ⟨_, ?_, _, _, hgrow, ?_⟩
  · rw [Prevector.erase, h.endPtr_eq]
    simp only [ok_bind]
    rw [sub_self]
    exact if_pos rfl
  · rw [← htake, List.take_take, Nat.min_eq_left hle]

theorem Holds.popBack (hN : N < 2 ^ 31) (h : Holds xs v) (hlt : xs.length < 2 ^ 31)
    (hne : xs ≠ []) : ∃ v', v.popBack = .ok v' ∧ Holds xs.dropLast v' := by
  have hpos := List.length_pos_of_ne_nil hne
  obtain ⟨v', hrun, h'⟩ := h.erase hN hlt (Nat.sub_le xs.length 1) le_rfl
  refine ⟨v', ?_, ?_⟩
  · rw [Prevector.popBack, h.endPtr_of_lt hlt]
    rw [Nat.cast_sub hpos, Nat.cast_one] at hrun
    exact hrun
  · rwa [List.drop_length, List.append_nil, ← List.dropLast_eq_take] at h'

theorem Holds.assignElements (h : Holds xs v) {i : ℕ} (hi : i < 2 ^ 31)
    (hle : i + vals.length ≤ xs.length) :
    ∃ v', v.assignElements i vals = .ok v' ∧ Holds (patch xs i vals) v' := by
  rw [Prevector.assignElements, h.itemPtr_of_lt hi]
  exact h.write i vals hle

variable (heap)

theorem Holds.reserve (hN : N < 2 ^ 31) (h : Holds xs v) (c : ℕ) :
    Returns heap (v.reserve heap c) (Holds xs) := by
  obtain ⟨cells, hstores, htake⟩ := h.stores
  refine (hstores.ensureCapacity heap hN (le_refl c)).mono ?_
  rintro v' ⟨cells', hstores', htake', -⟩
  exact ⟨cells', _, hstores', htake'.trans htake⟩

theorem Holds.shrinkToFit (hN : N < 2 ^ 31) (h : Holds xs v) :
    Returns heap (v.shrinkToFit heap) (Holds xs) := by
  obtain ⟨cells, hstores, htake⟩ := h.stores
  rw [Prevector.shrinkToFit, hstores.size_eq]
  refine (hstores.changeCapacity heap hN le_rfl).mono ?_
  rintro v' ⟨cells', hstores', htake', -⟩
  exact ⟨cells', _, hstores', htake'.trans htake⟩

/-- However many elements there are, as long as there are not too many in the end. -/
theorem Holds.resize [Inhabited T] (hN : N < 2 ^ 31) (h : Holds xs v) {m : ℕ} (hm : m < 2 ^ 31) :
    Returns heap (v.resize heap m)
      (Holds (xs.take m ++ List.replicate (m - xs.length) default)) := by
  unfold Prevector.resize
  rw [h.size_eq]
  dsimp only
  split_ifs with heq hlt
  · rw [← heq, List.take_length, Nat.sub_self, List.replicate_zero, List.append_nil]
    exact returns_ok h
  · obtain ⟨v', hrun, h'⟩ := h.truncate hN hm hlt.le
    rw [h.itemPtr_of_lt hm, h.endPtr_eq, Nat.sub_eq_zero_of_le hlt.le, List.replicate_zero,
      List.append_nil]
    exact .inl ⟨v', hrun, h'⟩
  · obtain ⟨cells, hstores, htake⟩ := h.stores
    refine (hstores.ensureCapacity heap hN le_rfl).bind ?_
    rintro v₁ ⟨cells₁, hstores₁, htake₁, hle⟩
    have hlen : (List.replicate (m - xs.length) (default : T)).length = m - xs.length :=
      List.length_replicate
    obtain ⟨v₂, hrun, h₂⟩ := hstores₁.append hN (List.replicate (m - xs.length) default)
      (by omega) (by omega)
    rw [hlen, htake₁, htake] at h₂
    rw [hstores₁.itemPtr_of_lt (by omega), List.take_of_length_le (by omega)]
    simp only [ok_bind, hrun]
    exact returns_ok h₂

theorem Holds.clear [Inhabited T] (hN : N < 2 ^ 31) (h : Holds xs v) :
    Returns heap (v.clear heap) (Holds []) := by
  have hresize := h.resize heap hN (m := 0) (by norm_num)
  rwa [List.take_zero, Nat.zero_sub, List.replicate_zero, List.append_nil] at hresize

theorem Holds.assignFrom [Inhabited T] (hN : N < 2 ^ 31) (h : Holds xs v)
    (hvals : vals.length < 2 ^ 31) :
    Returns heap (v.assignFrom heap vals.length vals) (Holds vals) := by
  refine (h.clear heap hN).bind fun v₁ h₁ => ?_
  obtain ⟨cells, hstores, -⟩ := h₁.stores
  refine (hstores.ensureCapacity heap hN le_rfl).bind ?_
  rintro v₂ ⟨cells₂, hstores₂, -, hle⟩
  have hgrow := hstores₂.grow hN (m := vals.length) (k := vals.length) hle hvals (by simp)
  obtain ⟨v₃, hrun, hstores₃⟩ := hgrow.write 0 vals (by omega)
  refine .inl ⟨v₃, ?_, _, _, hstores₃, ?_⟩
  · have hptr : itemPtr 0 (Prevector.grow vals.length v₂) = .ok 0 :=
      hgrow.itemPtr_of_lt (show 0 < 2 ^ 31 by norm_num)
    simp only [ok_bind, hptr]
    exact hrun
  · have htake := take_patch_append (show 0 + vals.length ≤ cells₂.length by omega)
    rwa [List.take_zero, List.nil_append, Nat.zero_add] at htake

theorem Holds.assign [Inhabited T] (hN : N < 2 ^ 31) (h : Holds xs v) (hn : n < 2 ^ 31) (val : T) :
    Returns heap (v.assign heap n val) (Holds (List.replicate n val)) := by
  have hlen : (List.replicate n val).length = n := List.length_replicate
  have hassign := h.assignFrom heap hN (show (List.replicate n val).length < 2 ^ 31 by rwa [hlen])
  rwa [hlen] at hassign

theorem Holds.assignRange [Inhabited T] (hN : N < 2 ^ 31) (h : Holds xs v)
    (hvals : vals.length < 2 ^ 31) : Returns heap (v.assignRange heap vals) (Holds vals) := by
  rw [Prevector.assignRange, sizeType_of_lt (by omega)]
  exact h.assignFrom heap hN hvals

/-- **Room among the elements**, for `count` of them at `p`. -/
theorem Holds.makeRoom (hN : N < 2 ^ 31) (h : Holds xs v) {p count : ℕ} (hp : p ≤ xs.length)
    (hlt : xs.length + count < 2 ^ 31) :
    Returns heap (v.makeRoom heap p count) fun (p', ptr, v') => p' = p ∧ ptr = p ∧
      v'.itemPtr p = .ok (p : ℤ) ∧ ∀ vals, vals.length = count →
        ∃ v'', v'.write p vals = .ok v'' ∧ Holds (xs.take p ++ vals ++ xs.drop p) v'' := by
  obtain ⟨cells, hstores, htake⟩ := h.stores
  have hpos : sizeType (differenceType ((p : ℤ) - 0)) = p := by
    rw [sub_zero, differenceType_of_lt (by omega), sizeType_of_lt (by omega)]
  have hsize : sizeType ((xs.length : ℤ) + count) = xs.length + count := by
    rw [← Nat.cast_add, sizeType_of_lt (by omega)]
  have hrest : sizeType ((xs.length : ℤ) - p) = xs.length - p := by
    rw [← Nat.cast_sub hp, sizeType_of_lt (by omega)]
  rw [Prevector.makeRoom, h.beginPtr_eq, h.size_eq]
  simp only [ok_bind, hpos, hsize]
  rw [grown_of_lt hlt]
  refine (hstores.ensureCapacity heap hN (Nat.le_add_right _ _)).bind ?_
  rintro v₁ ⟨cells₁, hstores₁, htake₁, hle⟩
  obtain ⟨v₂, hrun, hstores₂⟩ := hstores₁.memmove (p + count) p (xs.length - p)
    (by omega) (by omega)
  have hlen : (patch cells₁ (p + count) ((cells₁.drop p).take (xs.length - p))).length =
      cells₁.length := by
    apply length_patch
    rw [List.length_take, List.length_drop]
    omega
  have hgrow := hstores₂.grow hN (m := xs.length + count) (k := count) (by omega) hlt
    (by rw [Nat.cast_add])
  push_cast at hrun
  simp only [ok_bind, hstores₁.itemPtr_of_lt (show p < 2 ^ 31 by omega), hstores₁.size_eq, hrest,
    hrun]
  refine returns_ok ⟨rfl, rfl, hgrow.itemPtr_of_lt (by omega), fun vals hvals => ?_⟩
  subst hvals
  obtain ⟨v₃, hwrite, hstores₃⟩ := hgrow.write p vals (by omega)
  refine ⟨v₃, hwrite, _, _, hstores₃, ?_⟩
  rw [take_patch_insert hp hle, htake₁, htake]

theorem Holds.insert (hN : N < 2 ^ 31) (h : Holds xs v) {p : ℕ} (hp : p ≤ xs.length)
    (hlt : xs.length + 1 < 2 ^ 31) (value : T) :
    Returns heap (v.insert heap p value) (Holds (xs.take p ++ [value] ++ xs.drop p)) := by
  refine (h.makeRoom heap hN hp hlt).bind ?_
  rintro ⟨p', ptr, v'⟩ ⟨rfl, rfl, -, hwrite⟩
  exact .inl (hwrite [value] rfl)

theorem Holds.insertCount (hN : N < 2 ^ 31) (h : Holds xs v) {p count : ℕ} (hp : p ≤ xs.length)
    (hlt : xs.length + count < 2 ^ 31) (value : T) :
    Returns heap (v.insertCount heap p count value)
      (Holds (xs.take p ++ List.replicate count value ++ xs.drop p)) := by
  refine (h.makeRoom heap hN hp hlt).bind ?_
  rintro ⟨p', ptr, v'⟩ ⟨rfl, rfl, hptr, hwrite⟩
  dsimp only
  rw [hptr]
  exact .inl (hwrite _ List.length_replicate)

theorem Holds.insertRange (hN : N < 2 ^ 31) (h : Holds xs v) {p : ℕ} (hp : p ≤ xs.length)
    (hlt : xs.length + vals.length < 2 ^ 31) :
    Returns heap (v.insertRange heap p vals) (Holds (xs.take p ++ vals ++ xs.drop p)) := by
  rw [Prevector.insertRange, differenceType_of_lt (by omega)]
  refine (h.makeRoom heap hN hp hlt).bind ?_
  rintro ⟨p', ptr, v'⟩ ⟨rfl, rfl, -, hwrite⟩
  exact .inl (hwrite vals rfl)

theorem Holds.pushBack (hN : N < 2 ^ 31) (h : Holds xs v) (x : T)
    (hlt : xs.length + 1 < 2 ^ 31) : Returns heap (v.pushBack heap x) (Holds (xs ++ [x])) := by
  obtain ⟨cells, hstores, htake⟩ := h.stores
  have hsize : sizeType ((xs.length : ℤ) + 1) = xs.length + 1 := by
    rw [← Nat.cast_one, ← Nat.cast_add, sizeType_of_lt (by omega)]
  rw [Prevector.pushBack, h.size_eq]
  simp only [hsize]
  rw [grown_of_lt hlt]
  refine (hstores.ensureCapacity heap hN (Nat.le_add_right _ _)).bind ?_
  rintro v₁ ⟨cells₁, hstores₁, htake₁, hle⟩
  obtain ⟨v₂, hrun, h₂⟩ := hstores₁.append hN [x] hle hlt
  rw [hstores₁.size_eq, hstores₁.itemPtr_of_lt (by omega)]
  simp only [ok_bind, hrun]
  rw [htake₁, htake] at h₂
  exact returns_ok h₂

/-! ## Runs of operations -/

/-- The operations that change a vector. Iterators are told by the number of elements they are
behind `begin()`, and the values are no elements of the vector itself. -/
inductive Op (T : Type)
  | assign (n : ℕ) (val : T)
  | assignRange (vals : List T)
  | resize (new_size : ℕ)
  | reserve (new_capacity : ℕ)
  | shrinkToFit
  | clear
  | insert (p : ℕ) (value : T)
  | insertCount (p count : ℕ) (value : T)
  | insertRange (p : ℕ) (vals : List T)
  | erase (first last : ℕ)
  | pushBack (value : T)
  | popBack
  | assignElements (i : ℕ) (vals : List T)

variable [Inhabited T]

/-- The operation on a vector. -/
def Op.run (heap : Heap T) (op : Op T) (v : Prevector N T) : Except Stop (Prevector N T) :=
  match op with
  | .assign n val => v.assign heap n val
  | .assignRange vals => v.assignRange heap vals
  | .resize new_size => v.resize heap new_size
  | .reserve new_capacity => v.reserve heap new_capacity
  | .shrinkToFit => v.shrinkToFit heap
  | .clear => v.clear heap
  | .insert p value => do v.insert heap ((← v.beginPtr) + p) value
  | .insertCount p count value => do v.insertCount heap ((← v.beginPtr) + p) count value
  | .insertRange p vals => do v.insertRange heap ((← v.beginPtr) + p) vals
  | .erase first last => do v.erase ((← v.beginPtr) + first) ((← v.beginPtr) + last)
  | .pushBack value => v.pushBack heap value
  | .popBack => v.popBack
  | .assignElements i vals => v.assignElements i vals

/-- The operation on a list. -/
def Op.apply (xs : List T) : Op T → List T
  | .assign n val => List.replicate n val
  | .assignRange vals => vals
  | .resize new_size => xs.take new_size ++ List.replicate (new_size - xs.length) default
  | .reserve _ => xs
  | .shrinkToFit => xs
  | .clear => []
  | .insert p value => xs.take p ++ [value] ++ xs.drop p
  | .insertCount p count value => xs.take p ++ List.replicate count value ++ xs.drop p
  | .insertRange p vals => xs.take p ++ vals ++ xs.drop p
  | .erase first last => xs.take first ++ xs.drop last
  | .pushBack value => xs ++ [value]
  | .popBack => xs.dropLast
  | .assignElements i vals => patch xs i vals

/-- What a vector of `xs` may be asked for: positions within it, and no more elements than
`difference_type` counts. -/
def Op.Allowed (xs : List T) : Op T → Prop
  | .assign n _ => n < 2 ^ 31
  | .assignRange vals => vals.length < 2 ^ 31
  | .resize new_size => new_size < 2 ^ 31
  | .reserve new_capacity => new_capacity < 2 ^ 32
  | .shrinkToFit => True
  | .clear => True
  | .insert p _ => p ≤ xs.length ∧ xs.length + 1 < 2 ^ 31
  | .insertCount p count _ => p ≤ xs.length ∧ xs.length + count < 2 ^ 31
  | .insertRange p vals => p ≤ xs.length ∧ xs.length + vals.length < 2 ^ 31
  | .erase first last => first ≤ last ∧ last ≤ xs.length
  | .pushBack _ => xs.length + 1 < 2 ^ 31
  | .popBack => xs ≠ []
  | .assignElements i vals => i + vals.length ≤ xs.length

/-- No more elements come of it. -/
theorem Op.length_apply {op : Op T} (hlt : xs.length < 2 ^ 31) (hop : op.Allowed xs) :
    (op.apply xs).length < 2 ^ 31 := by
  cases op <;> simp only [Op.Allowed] at hop <;> simp only [Op.apply, List.length_append,
    List.length_take, List.length_drop, List.length_replicate, List.length_singleton,
    List.length_nil, List.length_dropLast, length_patch, hop] <;> omega

theorem Holds.op (hN : N < 2 ^ 31) (h : Holds xs v) (hlt : xs.length < 2 ^ 31) {op : Op T}
    (hop : op.Allowed xs) : Returns heap (op.run heap v) (Holds (op.apply xs)) := by
  have hptr (i : ℕ) : ((0 : ℤ) + i) = i := zero_add _
  cases op with
  | assign n val => exact h.assign heap hN hop val
  | assignRange vals => exact h.assignRange heap hN hop
  | resize new_size => exact h.resize heap hN hop
  | reserve new_capacity => exact h.reserve heap hN new_capacity
  | shrinkToFit => exact h.shrinkToFit heap hN
  | clear => exact h.clear heap hN
  | insert p value =>
    simp only [Op.run, h.beginPtr_eq, ok_bind, hptr]
    exact h.insert heap hN hop.1 hop.2 value
  | insertCount p count value =>
    simp only [Op.run, h.beginPtr_eq, ok_bind, hptr]
    exact h.insertCount heap hN hop.1 hop.2 value
  | insertRange p vals =>
    simp only [Op.run, h.beginPtr_eq, ok_bind, hptr]
    exact h.insertRange heap hN hop.1 hop.2
  | erase first last =>
    simp only [Op.run, h.beginPtr_eq, ok_bind, hptr]
    exact .inl (h.erase hN hlt hop.1 hop.2)
  | pushBack value => exact h.pushBack heap hN value hop
  | popBack => exact .inl (h.popBack hN hlt hop)
  | assignElements i vals =>
    have hle : i + vals.length ≤ xs.length := hop
    exact .inl (h.assignElements (by omega) hle)

/-- Operations one after another, each with what memory gives it. -/
def run : List (Heap T × Op T) → Prevector N T → Except Stop (Prevector N T)
  | [], v => return v
  | (heap, op) :: ops, v => do run ops (← op.run heap v)

/-- Each operation is allowed on the list that those before it leave. -/
def AllAllowed : List T → List (Heap T × Op T) → Prop
  | _, [] => True
  | xs, (_, op) :: ops => op.Allowed xs ∧ AllAllowed (op.apply xs) ops

/-- **Every run of operations** leaves a vector of what it leaves of a list, or an allocation has
failed. -/
theorem run_spec (hN : N < 2 ^ 31) (h : Holds xs v) (hlt : xs.length < 2 ^ 31)
    {ops : List (Heap T × Op T)} (hops : AllAllowed xs ops) :
    (∃ v', run ops v = .ok v' ∧ Holds (ops.foldl (fun xs op => op.2.apply xs) xs) v' ∧
      v'.size = (ops.foldl (fun xs op => op.2.apply xs) xs).length ∧
      v'.elements = .ok (ops.foldl (fun xs op => op.2.apply xs) xs)) ∨
    run ops v = .error .assertion ∧ ∃ op ∈ ops, ∃ c, op.1.malloc c = none := by
  induction ops generalizing xs v with
  | nil => exact .inl ⟨v, rfl, h, h.size_eq, h.elements_eq hlt⟩
  | cons op ops ih =>
    obtain ⟨v₁, hrun, h₁⟩ | ⟨hrun, c, hnone⟩ := h.op op.1 hN hlt hops.1
    · have hrest : run (op :: ops) v = run ops v₁ := by
        rw [run, hrun]
        rfl
      rw [hrest, List.foldl_cons]
      obtain hok | ⟨herr, op', hmem, hnone⟩ := ih h₁ (Op.length_apply hlt hops.1) hops.2
      · exact .inl hok
      · exact .inr ⟨herr, op', List.mem_cons_of_mem _ hmem, hnone⟩
    · refine .inr ⟨?_, op, List.mem_cons_self, c, hnone⟩
      rw [run, hrun]
      rfl

/-- Memory that is always there. -/
def roomy (T : Type) [Inhabited T] : Heap T := ⟨fun _ => some fun _ => default, fun _ => default⟩

def backAndForth : List (Heap ℕ × Op ℕ) :=
  [.pushBack 5, .insertCount 0 2 6, .erase 0 2, .shrinkToFit].map fun op => (roomy ℕ, op)

/-- A vector of three elements grows out of the object, shrinks, and goes back into it. -/
theorem run_spec_backAndForth : ∃ v', run backAndForth (empty 2 ℕ) = .ok v' ∧
    v'.elements = .ok [5] := by
  have hops : AllAllowed [] backAndForth := by
    simp [AllAllowed, backAndForth, Op.Allowed, Op.apply]
  obtain ⟨v', hrun, -, -, helements⟩ | ⟨-, op, hmem, c, hnone⟩ :=
    run_spec (show 2 < 2 ^ 31 by norm_num) holds_empty (by simp) hops
  · exact ⟨v', hrun, helements⟩
  · obtain ⟨op', -, rfl⟩ := List.mem_map.mp hmem
    cases hnone

/-! ## Reading a vector of bytes -/

section Unserialize

variable (heaps : ℕ → Heap UInt8)

/-- The loop of `Unserialize_impl`, from element `i` on: the vector is enlarged by a piece, which is
then read into it. -/
def readInto (nSize i : ℕ) (v : Prevector N UInt8) : Decoder (Except Stop (Prevector N UInt8)) :=
  if _h : i < nSize then
    let blk := min (nSize - i) maxPiece
    match v.resize (heaps i) (i + blk) with
    | .error stop => pure (.error stop)
    | .ok v => do
      let bytes ← Dialog.query blk
      match v.assignElements i bytes with
      | .error stop => pure (.error stop)
      | .ok v => readInto nSize (i + blk) v
  else pure (.ok v)
termination_by nSize - i
decreasing_by
  have : 0 < blk := by simp only [blk, maxPiece]; omega
  omega

/-- `Unserialize_impl` of a `prevector` of `unsigned char`. -/
def unserialize (v : Prevector N UInt8) : Decoder (Except Stop (Prevector N UInt8)) :=
  match v.clear (heaps 0) with
  | .error stop => pure (.error stop)
  | .ok v => do
    let nSize ← readCompactSize
    readInto heaps nSize 0 v

end Unserialize

section Reading

variable {heaps : ℕ → Heap UInt8} {σ : Type} {stream : Dialog.Handler ℕ (fun _ => Bytes) Failure σ}
  {s s' : σ} {u u' : Prevector N UInt8} {ys bs : Bytes} {nSize : ℕ}

/-- One piece: room for it, and then its bytes behind what is there. -/
theorem Holds.piece (hN : N < 2 ^ 31) (hmalloc : ∀ i c, (heaps i).malloc c ≠ none) (h : Holds ys u)
    (i blk : ℕ) (hlt : ys.length + blk < 2 ^ 31) :
    ∃ u₁, u.resize (heaps i) (ys.length + blk) = .ok u₁ ∧
      ∀ bytes : Bytes, bytes.length = blk →
        ∃ u₂, u₁.assignElements ys.length bytes = .ok u₂ ∧ Holds (ys ++ bytes) u₂ := by
  obtain ⟨u₁, hrun, h₁⟩ | ⟨-, c, hnone⟩ := h.resize (heaps i) hN hlt
  · refine ⟨u₁, hrun, fun bytes hbytes => ?_⟩
    rw [List.take_of_length_le (Nat.le_add_right _ _), Nat.add_sub_cancel_left] at h₁
    obtain ⟨u₂, hwrite, h₂⟩ := h₁.assignElements (show ys.length < 2 ^ 31 by omega)
      (show ys.length + bytes.length ≤ _ by simp [hbytes])
    have hpatch : patch (ys ++ List.replicate blk default) ys.length bytes = ys ++ bytes := by
      simp [patch, hbytes]
    rw [hpatch] at h₂
    exact ⟨u₂, hwrite, h₂⟩
  · exact absurd hnone (hmalloc _ _)

/-- The loop leaves the stream where reading a list leaves it, and the vector of what that reads. -/
theorem run_readInto (hN : N < 2 ^ 31) (hmalloc : ∀ i c, (heaps i).malloc c ≠ none)
    (hlen : ∀ n s bs s', stream n s = (.ok bs, s') → bs.length = n) (hsize : nSize ≤ MAX_SIZE)
    (h : Holds ys u) (hle : ys.length ≤ nSize) :
    (∀ bs s', (readPieces (nSize - ys.length)).run stream s = (.ok bs, s') →
      ∃ u', (readInto heaps nSize ys.length u).run stream s = (.ok (.ok u'), s') ∧
        Holds (ys ++ bs) u' ∧ (ys ++ bs).length = nSize) ∧
    ∀ e s', (readPieces (nSize - ys.length)).run stream s = (.error e, s') →
      (readInto heaps nSize ys.length u).run stream s = (.error e, s') := by
  induction hrest : nSize - ys.length using Nat.strong_induction_on generalizing ys u s with
  | _ n ih =>
    subst hrest
    rw [readPieces, readInto]
    by_cases hlt : ys.length < nSize
    · rw [dif_neg (by omega), dif_pos hlt]
      dsimp only
      generalize hblk : min (nSize - ys.length) maxPiece = blk
      have hpos : 0 < blk := by
        rw [← hblk, maxPiece]
        omega
      obtain ⟨u₁, hresize, hwrite⟩ := h.piece hN hmalloc ys.length blk
        (by rw [MAX_SIZE] at hsize; omega)
      rw [hresize]
      dsimp only
      rw [Dialog.run_bind, Dialog.run_bind, Dialog.run_query]
      rcases hread : stream blk s with ⟨e | bytes, s₁⟩
      · exact ⟨by simp, fun e' s' h' => by simpa using h'⟩
      · have hbytes := hlen _ _ _ _ hread
        obtain ⟨u₂, hrun, h₂⟩ := hwrite bytes hbytes
        have hlength : (ys ++ bytes).length = ys.length + blk := by rw [List.length_append, hbytes]
        have hih := ih (nSize - (ys ++ bytes).length) (by omega) (s := s₁) h₂ (by omega) rfl
        rw [hlength, ← Nat.sub_sub] at hih
        dsimp only
        rw [hrun, Dialog.run_bind]
        dsimp only
        rcases hpieces : (readPieces (nSize - ys.length - blk)).run stream s₁ with ⟨e | rest, s₂⟩
        · refine ⟨by simp, fun e' s' h' => ?_⟩
          obtain ⟨rfl, rfl⟩ : e = e' ∧ s₂ = s' := by simpa using h'
          exact hih.2 e s₂ hpieces
        · refine ⟨fun bs s' h' => ?_, by simp⟩
          obtain ⟨rfl, rfl⟩ : bytes ++ rest = bs ∧ s₂ = s' := by simpa using h'
          rw [← List.append_assoc]
          exact hih.1 rest s₂ hpieces
    · rw [dif_pos (by omega), dif_neg hlt]
      refine ⟨fun bs s' h' => ?_, by simp⟩
      obtain ⟨rfl, rfl⟩ : [] = bs ∧ s = s' := by simpa using h'
      rw [List.append_nil]
      exact ⟨u, rfl, h, by omega⟩

/-- **Reading a vector is reading a list.** Whatever the vector held before, and whatever stream it
is read from, as long as memory can be allocated. -/
theorem run_unserialize (hN : N < 2 ^ 31) (hmalloc : ∀ i c, (heaps i).malloc c ≠ none)
    (hlen : ∀ n s bs s', stream n s = (.ok bs, s') → bs.length = n) (h : Holds ys u) :
    (∀ bs s', unserializeBytes.run stream s = (.ok bs, s') →
      ∃ u', (unserialize heaps u).run stream s = (.ok (.ok u'), s') ∧ Holds bs u' ∧
        u'.elements = .ok bs) ∧
    ∀ e s', unserializeBytes.run stream s = (.error e, s') →
      (unserialize heaps u).run stream s = (.error e, s') := by
  obtain ⟨u₁, hclear, h₁⟩ | ⟨-, c, hnone⟩ := h.clear (heaps 0) hN
  · rw [unserialize, hclear, unserializeBytes]
    dsimp only
    rw [Dialog.run_bind, Dialog.run_bind]
    rcases hcount : readCompactSize.run stream s with ⟨e | nSize, s₁⟩
    · exact ⟨by simp, fun e' s' h' => by simpa using h'⟩
    · have hsize := ensures_readCompactSize.run hcount
      obtain ⟨hok, herr⟩ := run_readInto (s := s₁) hN hmalloc hlen hsize h₁ (Nat.zero_le _)
      refine ⟨fun bs s' h' => ?_, herr⟩
      obtain ⟨u', hrun, h', hlength⟩ := hok bs s' h'
      rw [List.nil_append] at h' hlength
      exact ⟨u', hrun, h', h'.elements_eq (by rw [hlength]; rw [MAX_SIZE] at hsize; omega)⟩
  · exact absurd hnone (hmalloc _ _)

/-- Three bytes are read into a vector that has room for two. -/
theorem run_unserialize_three : ∃ u' : Prevector 2 UInt8,
    (unserialize (fun _ => roomy UInt8) (empty 2 UInt8)).run
      (readBytes .endOfFile .bufferSize maxPiece) [3, 10, 20, 30] = (.ok (.ok u'), []) ∧
    u'.elements = .ok [10, 20, 30] := by
  have hmalloc (c : ℕ) : (roomy UInt8).malloc c ≠ none := by simp [roomy]
  have hread : Decodes maxPiece unserializeBytes [3, 10, 20, 30] [10, 20, 30] :=
    @reads_unserializeBytes _ le_rfl [10, 20, 30] (by decide)
  obtain ⟨u', hrun, -, helements⟩ := (run_unserialize (show 2 < 2 ^ 31 by norm_num)
    (fun _ => hmalloc) (fun _ _ _ _ => length_of_readBytes) holds_empty).1 _ _ (hread [])
  exact ⟨u', hrun, helements⟩

end Reading

end Prevector

end ElectrumZ.Bitcoin
