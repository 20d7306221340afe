import ElectrumZ.Foundations.Bytes

/-!
# Base64

Four characters stand for three bytes. At the end of the input `==` stands for two missing bytes
and `=` for one.

* `decodeBase64_base64`: decoding undoes encoding.
* `lt_of_mem_base64`: all characters are printable.
-/

namespace Foundations

/-- The characters for the numbers below 64. -/
def base64Alphabet : Bytes :=
  ascii "ABCDEFGHIJKLMNOPQRSTUVWXYZabcdefghijklmnopqrstuvwxyz0123456789+/"

/-- The character of a number below 64. -/
def base64Char (v : ℕ) : UInt8 := base64Alphabet.getD v 0

/-- The number of a character. -/
def base64Value (c : UInt8) : Option ℕ := base64Alphabet.idxOf? c

/-- The padding. -/
def base64Pad : UInt8 := 0x3d

/-- Base 64, padded to groups of four characters. -/
def base64 : Bytes → Bytes
  | a :: b :: c :: bs =>
    base64Char (a.toNat / 4) :: base64Char (a.toNat % 4 * 16 + b.toNat / 16) ::
      base64Char (b.toNat % 16 * 4 + c.toNat / 64) :: base64Char (c.toNat % 64) :: base64 bs
  | [a, b] =>
    [base64Char (a.toNat / 4), base64Char (a.toNat % 4 * 16 + b.toNat / 16),
      base64Char (b.toNat % 16 * 4), base64Pad]
  | [a] => [base64Char (a.toNat / 4), base64Char (a.toNat % 4 * 16), base64Pad, base64Pad]
  | [] => []

/-- The bytes of the numbers of a group. -/
def byteOne (v w : ℕ) : UInt8 := UInt8.ofNat (v * 4 + w / 16)

def byteTwo (w x : ℕ) : UInt8 := UInt8.ofNat (w % 16 * 16 + x / 4)

def byteThree (x y : ℕ) : UInt8 := UInt8.ofNat (x % 4 * 64 + y)

/-- The bytes of a text in base 64, if it is one. -/
def decodeBase64 : Bytes → Option Bytes
  | [] => some []
  | c :: d :: e :: f :: cs => do
    let v ← base64Value c
    let w ← base64Value d
    if e = base64Pad ∧ f = base64Pad ∧ cs = [] then return [byteOne v w]
    let x ← base64Value e
    if f = base64Pad ∧ cs = [] then return [byteOne v w, byteTwo w x]
    let y ← base64Value f
    let bytes ← decodeBase64 cs
    return byteOne v w :: byteTwo w x :: byteThree x y :: bytes
  | _ => none

/-- A character has its number, is not the padding, and is printable. -/
theorem base64Char_spec {v : ℕ} (h : v < 64) : base64Value (base64Char v) = some v ∧
    base64Char v ≠ base64Pad ∧ 0x20 < base64Char v := by
  have hall : ∀ v : Fin 64, base64Value (base64Char v) = some v.val ∧
      base64Char v ≠ base64Pad ∧ 0x20 < base64Char v := by decide +kernel
  exact hall ⟨v, h⟩

section Group

variable (a b c : UInt8)

/-- The numbers of three bytes are below 64. -/
theorem sextets_lt (n : ℕ) : a.toNat / 4 < 64 ∧ (n < 16 → a.toNat % 4 * 16 + n < 64) ∧
    (n < 4 → a.toNat % 16 * 4 + n < 64) ∧ a.toNat % 64 < 64 := by
  have ha := a.toNat_lt
  omega

theorem byteOne_eq {n : ℕ} (hn : n < 16) :
    byteOne (a.toNat / 4) (a.toNat % 4 * 16 + n) = a := by
  rw [byteOne, show a.toNat / 4 * 4 + (a.toNat % 4 * 16 + n) / 16 = a.toNat by omega,
    UInt8.ofNat_toNat]

theorem byteTwo_eq (m : ℕ) {n : ℕ} (hn : n < 4) :
    byteTwo (m * 16 + b.toNat / 16) (b.toNat % 16 * 4 + n) = b := by
  have hb := b.toNat_lt
  rw [byteTwo, show (m * 16 + b.toNat / 16) % 16 * 16 + (b.toNat % 16 * 4 + n) / 4 = b.toNat by
    omega, UInt8.ofNat_toNat]

theorem byteThree_eq (m : ℕ) : byteThree (m * 4 + c.toNat / 64) (c.toNat % 64) = c := by
  have hc := c.toNat_lt
  rw [byteThree, show (m * 4 + c.toNat / 64) % 4 * 64 + c.toNat % 64 = c.toNat by omega,
    UInt8.ofNat_toNat]

end Group

/-- **Decoding undoes encoding.** -/
theorem decodeBase64_base64 (bs : Bytes) : decodeBase64 (base64 bs) = some bs := by
  fun_induction base64 bs with
  | case1 a b c bs ih =>
    have hb := b.toNat_lt
    have hc := c.toNat_lt
    obtain ⟨hv, -⟩ := base64Char_spec (sextets_lt a 0).1
    obtain ⟨hw, -⟩ := base64Char_spec ((sextets_lt a (b.toNat / 16)).2.1 (by omega))
    obtain ⟨hx, hx', -⟩ := base64Char_spec ((sextets_lt b (c.toNat / 64)).2.2.1 (by omega))
    obtain ⟨hy, hy', -⟩ := base64Char_spec (sextets_lt c 0).2.2.2
    have hone := byteOne_eq a (show b.toNat / 16 < 16 by omega)
    have htwo := byteTwo_eq b (a.toNat % 4) (show c.toNat / 64 < 4 by omega)
    simp [decodeBase64, hv, hw, hx, hx', hy, hy', ih, hone, htwo, byteThree_eq c]
  | case2 a b =>
    have hb := b.toNat_lt
    obtain ⟨hv, -⟩ := base64Char_spec (sextets_lt a 0).1
    obtain ⟨hw, -⟩ := base64Char_spec ((sextets_lt a (b.toNat / 16)).2.1 (by omega))
    obtain ⟨hx, hx', -⟩ := base64Char_spec ((sextets_lt b 0).2.2.1 (by omega))
    have hone := byteOne_eq a (show b.toNat / 16 < 16 by omega)
    have htwo := byteTwo_eq b (a.toNat % 4) (show 0 < 4 by omega)
    rw [Nat.add_zero] at hx hx' htwo
    simp [decodeBase64, hv, hw, hx, hx', hone, htwo]
  | case3 a =>
    obtain ⟨hv, -⟩ := base64Char_spec (sextets_lt a 0).1
    obtain ⟨hw, -⟩ := base64Char_spec ((sextets_lt a 0).2.1 (by omega))
    have hone := byteOne_eq a (show 0 < 16 by omega)
    rw [Nat.add_zero] at hw hone
    simp [decodeBase64, hv, hw, hone]
  | case4 => rfl

/-- All characters are printable. -/
theorem lt_of_mem_base64 {bs : Bytes} {c : UInt8} (h : c ∈ base64 bs) : 0x20 < c := by
  have hchar {v : ℕ} (hv : v < 64) : 0x20 < base64Char v := (base64Char_spec hv).2.2
  have hpad : 0x20 < base64Pad := by decide
  fun_induction base64 bs with
  | case1 a b c' bs ih =>
    have hb := b.toNat_lt
    have hc := c'.toNat_lt
    simp only [List.mem_cons] at h
    obtain rfl | rfl | rfl | rfl | h := h
    · exact hchar (sextets_lt a 0).1
    · exact hchar ((sextets_lt a (b.toNat / 16)).2.1 (by omega))
    · exact hchar ((sextets_lt b (c'.toNat / 64)).2.2.1 (by omega))
    · exact hchar (sextets_lt c' 0).2.2.2
    · exact ih h
  | case2 a b =>
    have hb := b.toNat_lt
    simp only [List.mem_cons, List.not_mem_nil, or_false] at h
    obtain rfl | rfl | rfl | rfl := h
    · exact hchar (sextets_lt a 0).1
    · exact hchar ((sextets_lt a (b.toNat / 16)).2.1 (by omega))
    · exact hchar ((sextets_lt b 0).2.2.1 (by omega))
    · exact hpad
  | case3 a =>
    simp only [List.mem_cons, List.not_mem_nil, or_false] at h
    obtain rfl | rfl | rfl | rfl := h
    · exact hchar (sextets_lt a 0).1
    · exact hchar ((sextets_lt a 0).2.1 (by omega))
    · exact hpad
    · exact hpad
  | case4 => exact nomatch h

end Foundations
