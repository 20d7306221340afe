import Mathlib.Algebra.Order.Ring.Nat
import Mathlib.Data.List.Basic
import Mathlib.Tactic.Ring

/-!
# Byte strings and little-endian numbers

A byte string is a list of bytes. `leBytes w n` is the `w`-byte little-endian form of `n` and
`ofLeBytes` reads one back: on `w` bytes they are inverse up to `256 ^ w` (`ofLeBytes_leBytes`).
-/

namespace Foundations

/-- A byte string. -/
abbrev Bytes := List UInt8

/-- The bytes of an ASCII literal. -/
def ascii (s : String) : Bytes := s.toList.map fun c => c.toNat.toUInt8

/-- The `w` low bytes of `n`, least significant first. -/
def leBytes : ℕ → ℕ → Bytes
  | 0, _ => []
  | w + 1, n => n.toUInt8 :: leBytes w (n / 256)

/-- The number with the given bytes, least significant first. -/
def ofLeBytes : Bytes → ℕ
  | [] => 0
  | b :: bs => b.toNat + 256 * ofLeBytes bs

@[simp] theorem length_leBytes (w n : ℕ) : (leBytes w n).length = w := by
  induction w generalizing n with
  | zero => rfl
  | succ w ih => simp [leBytes, ih]

theorem ofLeBytes_leBytes {w n : ℕ} (h : n < 256 ^ w) : ofLeBytes (leBytes w n) = n := by
  induction w generalizing n with
  | zero => simp only [pow_zero, Nat.lt_one_iff] at h; simp [leBytes, ofLeBytes, h]
  | succ w ih =>
    have hdiv : n / 256 < 256 ^ w := by
      rw [Nat.div_lt_iff_lt_mul (by norm_num), ← pow_succ]
      exact h
    simp only [leBytes, ofLeBytes, ih hdiv, Nat.toUInt8, UInt8.toNat_ofNat']
    omega

theorem ofLeBytes_take_leBytes_append {w n : ℕ} (h : n < 256 ^ w) (bs : Bytes) :
    ofLeBytes ((leBytes w n ++ bs).take w) = n := by
  rw [List.take_left' (length_leBytes w n), ofLeBytes_leBytes h]

theorem ofLeBytes_lt (bs : Bytes) : ofLeBytes bs < 256 ^ bs.length := by
  induction bs with
  | nil => simp [ofLeBytes]
  | cons b bs ih =>
    have hb := b.toNat_lt
    rw [ofLeBytes, List.length_cons, pow_succ]
    omega

theorem leBytes_ofLeBytes (bs : Bytes) : leBytes bs.length (ofLeBytes bs) = bs := by
  induction bs with
  | nil => rfl
  | cons b bs ih =>
    have hb := b.toNat_lt
    have hdiv : (b.toNat + 256 * ofLeBytes bs) / 256 = ofLeBytes bs := by omega
    rw [ofLeBytes, List.length_cons, leBytes, hdiv, ih]
    congr 1
    apply UInt8.toNat_inj.mp
    rw [Nat.toUInt8, UInt8.toNat_ofNat']
    omega

/-- A string is cut at the first delimiter in one way only. -/
theorem cut_inj {α : Type} {x y z w : List α} {d : α} (hx : d ∉ x) (hy : d ∉ y)
    (h : x ++ d :: z = y ++ d :: w) : x = y ∧ z = w := by
  induction x generalizing y with
  | nil =>
    cases y with
    | nil => exact ⟨rfl, List.tail_eq_of_cons_eq h⟩
    | cons b y => exact absurd (List.head_eq_of_cons_eq h) (fun hb => hy (hb ▸ List.mem_cons_self))
  | cons a x ih =>
    cases y with
    | nil => exact absurd (List.head_eq_of_cons_eq h) (fun hb => hx (hb ▸ List.mem_cons_self))
    | cons b y =>
      obtain ⟨rfl, htl⟩ := List.cons.inj h
      obtain ⟨rfl, rfl⟩ :=
        ih (List.not_mem_of_not_mem_cons hx) (List.not_mem_of_not_mem_cons hy) htl
      exact ⟨rfl, rfl⟩

end Foundations
