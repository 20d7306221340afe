import Mathlib.Data.List.Basic
import Mathlib.Data.Nat.Bitwise
import Mathlib.Tactic.Ring

/-!
# Numbers as strings of bits

`toBits w n` are the `w` low bits of `n`, the highest first, and `flatBits w ns` those of several
numbers, one after another. Writing numbers of one width as numbers of another cuts the same string
in other places.

* `toBits_add`, `toBits_shiftLeft_or`: a string is cut, and put together.
* `toBits_inj`: numbers within the width are told apart.
* `flatBits_inj`: **so are lists of such numbers**, with fewer bits left over than one more would
  take.
-/

namespace Foundations

/-- The `w` low bits of `n`, the highest first. -/
def toBits : ℕ → ℕ → List Bool
  | 0, _ => []
  | w + 1, n => n.testBit w :: toBits w n

variable {v w m n : ℕ}

@[simp] theorem length_toBits (w n : ℕ) : (toBits w n).length = w := by
  induction w with
  | zero => rfl
  | succ w ih => simp [toBits, ih]

/-- A string is cut in two. -/
theorem toBits_add (v w n : ℕ) : toBits (v + w) n = toBits v (n >>> w) ++ toBits w n := by
  induction v with
  | zero => simp [toBits]
  | succ v ih =>
    rw [Nat.add_right_comm, toBits, ih, toBits, Nat.testBit_shiftRight, Nat.add_comm w v]
    rfl

theorem toBits_eq_iff : toBits w m = toBits w n ↔ ∀ i < w, m.testBit i = n.testBit i := by
  induction w with
  | zero => simp [toBits]
  | succ w ih =>
    rw [toBits, toBits, List.cons.injEq, ih]
    constructor
    · rintro ⟨hw, h⟩ i hi
      obtain hi | rfl := Nat.lt_succ_iff_lt_or_eq.mp hi
      · exact h i hi
      · exact hw
    · exact fun h => ⟨h w (by omega), fun i hi => h i (by omega)⟩

/-- Numbers within the width are told apart. -/
theorem toBits_inj (hm : m < 2 ^ w) (hn : n < 2 ^ w) (h : toBits w m = toBits w n) : m = n := by
  refine Nat.eq_of_testBit_eq fun i => ?_
  by_cases hi : i < w
  · exact toBits_eq_iff.mp h i hi
  · have hle : 2 ^ w ≤ 2 ^ i := Nat.pow_le_pow_right (by norm_num) (by omega)
    rw [Nat.testBit_lt_two_pow (hm.trans_le hle), Nat.testBit_lt_two_pow (hn.trans_le hle)]

/-- A mask that leaves the low bits. -/
theorem toBits_and (h : v ≤ w) (n : ℕ) : toBits v (n &&& (2 ^ w - 1)) = toBits v n := by
  refine toBits_eq_iff.mpr fun i hi => ?_
  rw [Nat.testBit_and, Nat.testBit_two_pow_sub_one, decide_eq_true (by omega), Bool.and_true]

theorem toBits_zero (w : ℕ) : toBits w 0 = List.replicate w false := by
  induction w with
  | zero => rfl
  | succ w ih => rw [toBits, ih, Nat.zero_testBit, List.replicate_succ]

/-- The low bits are all zero if the number is a multiple. -/
theorem toBits_eq_replicate : toBits w n = List.replicate w false ↔ n &&& (2 ^ w - 1) = 0 := by
  rw [← toBits_zero, ← toBits_and le_rfl n]
  constructor
  · intro h
    have hlt : n &&& (2 ^ w - 1) < 2 ^ w := by
      have := Nat.two_pow_pos w
      exact Nat.and_lt_two_pow _ (by omega)
    exact toBits_inj hlt (Nat.two_pow_pos w) h
  · intro h
    rw [h]

/-- A string is put together. -/
theorem toBits_shiftLeft_or (v : ℕ) (hn : n < 2 ^ w) (m : ℕ) :
    toBits (v + w) (m <<< w ||| n) = toBits v m ++ toBits w n := by
  rw [toBits_add]
  congr 1
  · refine toBits_eq_iff.mpr fun i _ => ?_
    have hi : n.testBit (w + i) = false :=
      Nat.testBit_lt_two_pow (hn.trans_le (Nat.pow_le_pow_right (by norm_num) (by omega)))
    simp [Nat.testBit_shiftRight, Nat.testBit_or, Nat.testBit_shiftLeft, hi]
  · refine toBits_eq_iff.mpr fun i hi => ?_
    simp [Nat.testBit_or, Nat.testBit_shiftLeft, Nat.not_le.mpr hi]

theorem toBits_shiftLeft (v w m : ℕ) :
    toBits (v + w) (m <<< w) = toBits v m ++ List.replicate w false := by
  have h := toBits_shiftLeft_or v (Nat.two_pow_pos w) m
  rwa [Nat.or_zero, toBits_zero] at h

/-! ## Numbers one after another -/

/-- The bits of several numbers. -/
def flatBits (w : ℕ) (ns : List ℕ) : List Bool := ns.flatMap (toBits w)

@[simp] theorem flatBits_nil (w : ℕ) : flatBits w [] = [] := rfl

theorem flatBits_cons (w n : ℕ) (ns : List ℕ) :
    flatBits w (n :: ns) = toBits w n ++ flatBits w ns := List.flatMap_cons

theorem flatBits_append (w : ℕ) (ms ns : List ℕ) :
    flatBits w (ms ++ ns) = flatBits w ms ++ flatBits w ns := List.flatMap_append

@[simp] theorem length_flatBits (w : ℕ) (ns : List ℕ) :
    (flatBits w ns).length = w * ns.length := by
  induction ns with
  | nil => rfl
  | cons n ns ih =>
    rw [flatBits_cons, List.length_append, length_toBits, ih, List.length_cons]
    ring

/-- **What is written tells the numbers**, and the bits left over. -/
theorem flatBits_inj {ms ns : List ℕ} {l l' : List Bool} (hms : ∀ m ∈ ms, m < 2 ^ w)
    (hns : ∀ n ∈ ns, n < 2 ^ w) (hl : l.length < w) (hl' : l'.length < w)
    (h : flatBits w ms ++ l = flatBits w ns ++ l') : ms = ns ∧ l = l' := by
  induction ms generalizing ns with
  | nil =>
    cases ns with
    | nil => exact ⟨rfl, h⟩
    | cons n ns =>
      have hlen := congrArg List.length h
      simp only [List.length_append, length_flatBits, List.length_cons, List.length_nil,
        Nat.mul_add] at hlen
      omega
  | cons m ms ih =>
    cases ns with
    | nil =>
      have hlen := congrArg List.length h
      simp only [List.length_append, length_flatBits, List.length_cons, List.length_nil,
        Nat.mul_add] at hlen
      omega
    | cons n ns =>
      rw [flatBits_cons, flatBits_cons, List.append_assoc, List.append_assoc] at h
      obtain ⟨hmn, h⟩ := List.append_inj h (by simp)
      rw [List.forall_mem_cons] at hms hns
      obtain ⟨rfl, rfl⟩ := ih hms.2 hns.2 h
      exact ⟨by rw [toBits_inj hms.1 hns.1 hmn], rfl⟩

end Foundations
