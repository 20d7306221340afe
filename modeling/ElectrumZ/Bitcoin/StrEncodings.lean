import ElectrumZ.Foundations.Base64

/-!
# Text encodings

`HexDigit`, `IsSpace`, `ParseHex`, `HexStr` and `EncodeBase64` of `strencodings.cpp`. A
`std::string` that is handed over as `const char*` is a byte string here; it is read up to its first
zero byte or its end.
-/

namespace ElectrumZ.Bitcoin

open Foundations

/-- The bytes of a string. -/
def utf8 (s : String) : Bytes := s.toList.flatMap String.utf8EncodeChar

theorem utf8_inj {s t : String} (h : utf8 s = utf8 t) : s = t := by
  have hbytes : s.toByteArray = t.toByteArray := by
    rw [← String.utf8Encode_toList, ← String.utf8Encode_toList]
    unfold List.utf8Encode
    rw [show s.toList.flatMap String.utf8EncodeChar = t.toList.flatMap String.utf8EncodeChar from h]
  exact String.toByteArray_inj.mp hbytes

/-- The value of a hex digit of either case. -/
def hexDigit (c : UInt8) : Option UInt8 :=
  if 0x30 ≤ c ∧ c ≤ 0x39 then some (c - 0x30)
  else if 0x61 ≤ c ∧ c ≤ 0x66 then some (c - 0x61 + 10)
  else if 0x41 ≤ c ∧ c ≤ 0x46 then some (c - 0x41 + 10)
  else none

/-- Space, form feed, newline, carriage return and the two tabs. -/
def isSpace (c : UInt8) : Bool := c == 0x20 || (0x09 ≤ c && c ≤ 0x0d)

/-- `ParseHex`: white space may stand before a byte but not inside one, and the first character
that is no hex digit ends the parse. -/
def parseHex : Bytes → Bytes
  | [] => []
  | c :: psz =>
    if isSpace c then parseHex psz
    else
      match hexDigit c with
      | none => []
      | some hi =>
        match psz with
        | [] => []
        | d :: psz =>
          match hexDigit d with
          | none => []
          | some lo => (hi <<< 4 ||| lo) :: parseHex psz

/-- The hex digit of a value below 16. -/
def hexMap (n : UInt8) : Char := if n < 10 then Char.ofNat (0x30 + n.toNat)
  else Char.ofNat (0x57 + n.toNat)

/-- `HexStr`, in lower case. -/
def hexStr (vch : Bytes) : String :=
  String.ofList (vch.flatMap fun (val : UInt8) => [hexMap (val >>> 4), hexMap (val &&& 15)])

example : parseHex (ascii " 0a\tFf 1") = [0x0a, 0xff] := by decide +kernel

/-! ## Spellings -/

/-- The character is read as that hex digit. -/
def ReadsAs (c : Char) (n : UInt8) : Prop :=
  String.utf8EncodeChar c = [c.toNat.toUInt8] ∧ isSpace c.toNat.toUInt8 = false ∧
    hexDigit c.toNat.toUInt8 = some n

instance (c : Char) (n : UInt8) : Decidable (ReadsAs c n) := inferInstanceAs (Decidable (_ ∧ _))

theorem readsAs_hexMap : ∀ n : Fin 16, ReadsAs (hexMap (UInt8.ofNat n)) (UInt8.ofNat n) := by
  decide

theorem readsAs_upper : ∀ k : Fin 26, ∀ n : Fin 16,
    (Char.ofNat (65 + k)).toLower = hexMap (UInt8.ofNat n) →
      ReadsAs (Char.ofNat (65 + k)) (UInt8.ofNat n) := by
  decide +kernel

/-- A character whose lower case is the digit is read as it. -/
theorem readsAs_of_toLower {c : Char} {n : UInt8} (hn : n < 16) (h : c.toLower = hexMap n) :
    ReadsAs c n := by
  have hlt : n.toNat < 16 := hn
  have hfin : UInt8.ofNat (⟨n.toNat, hlt⟩ : Fin 16) = n := UInt8.ofNat_toNat
  by_cases hc : c.isUpper = true
  · have hupper : 65 ≤ c.val ∧ c.val ≤ 90 := of_decide_eq_true hc
    have hbounds : 65 ≤ c.toNat ∧ c.toNat ≤ 90 :=
      ⟨UInt32.le_iff_toNat_le.mp hupper.1, UInt32.le_iff_toNat_le.mp hupper.2⟩
    have hk : 65 + (⟨c.toNat - 65, by omega⟩ : Fin 26).val = c.toNat := by
      simp only
      omega
    have hread := readsAs_upper ⟨c.toNat - 65, by omega⟩ ⟨n.toNat, hlt⟩
    rw [hk, hfin, Char.ofNat_toNat] at hread
    exact hread h
  · have hlower : c.toLower = c := by
      unfold Char.toLower
      rw [dif_neg]
      exact fun hupper => hc (decide_eq_true hupper)
    rw [hlower] at h
    have hread := readsAs_hexMap ⟨n.toNat, hlt⟩
    rw [hfin, ← h] at hread
    exact hread

/-- The digits of the bytes, each in lower or upper case. -/
def Spells (digits : String) (vch : Bytes) : Prop :=
  digits.toList.map Char.toLower = (hexStr vch).toList

/-- A byte is put together from its two digits. -/
theorem nibbles (b : UInt8) :
    b >>> 4 < 16 ∧ b &&& 15 < 16 ∧ (b >>> 4 <<< 4 ||| b &&& 15) = b := by
  have hall : ∀ k : Fin 256, UInt8.ofNat k >>> 4 < 16 ∧ UInt8.ofNat k &&& 15 < 16 ∧
      (UInt8.ofNat k >>> 4 <<< 4 ||| UInt8.ofNat k &&& 15) = UInt8.ofNat k := by
    decide +kernel
  have hb := hall ⟨b.toNat, b.toNat_lt⟩
  rwa [show UInt8.ofNat (⟨b.toNat, b.toNat_lt⟩ : Fin 256) = b from UInt8.ofNat_toNat] at hb

theorem parseHex_two {c d : Char} {hi lo : UInt8} (hc : ReadsAs c hi) (hd : ReadsAs d lo)
    (psz : Bytes) :
    parseHex (String.utf8EncodeChar c ++ (String.utf8EncodeChar d ++ psz)) =
      (hi <<< 4 ||| lo) :: parseHex psz := by
  obtain ⟨hc, hspace, hhi⟩ := hc
  obtain ⟨hd, -, hlo⟩ := hd
  rw [hc, hd, List.singleton_append, List.singleton_append, parseHex, hspace, if_neg nofun, hhi]
  simp only [hlo]

/-- **A spelling of the bytes is parsed as them.** -/
theorem parseHex_of_spells {digits : String} {vch : Bytes} (h : Spells digits vch) :
    parseHex (utf8 digits) = vch := by
  rw [Spells, hexStr, String.toList_ofList] at h
  rw [utf8]
  generalize digits.toList = cs at h
  induction vch generalizing cs with
  | nil =>
    obtain rfl : cs = [] := by simpa using h
    rfl
  | cons b vch ih =>
    rw [List.flatMap_cons] at h
    rcases cs with _ | ⟨c, _ | ⟨d, cs⟩⟩
    · simp at h
    · simp at h
    · simp only [List.map_cons, List.cons_append, List.nil_append, List.cons.injEq] at h
      obtain ⟨hc, hd, hrest⟩ := h
      obtain ⟨hhi, hlo, hbyte⟩ := nibbles b
      rw [List.flatMap_cons, List.flatMap_cons,
        parseHex_two (readsAs_of_toLower hhi hc) (readsAs_of_toLower hlo hd), hbyte, ih cs hrest]

theorem toLower_hexMap {n : UInt8} (hn : n < 16) : (hexMap n).toLower = hexMap n := by
  have hall : ∀ n : Fin 16, (hexMap (UInt8.ofNat n)).toLower = hexMap (UInt8.ofNat n) := by decide
  have hlt : n.toNat < 16 := hn
  have h := hall ⟨n.toNat, hlt⟩
  rwa [show UInt8.ofNat (⟨n.toNat, hlt⟩ : Fin 16) = n from UInt8.ofNat_toNat] at h

theorem spells_hexStr (vch : Bytes) : Spells (hexStr vch) vch := by
  rw [Spells, hexStr, String.toList_ofList, List.map_flatMap]
  apply List.flatMap_congr
  intro b _
  obtain ⟨hhi, hlo, -⟩ := nibbles b
  rw [List.map_cons, List.map_cons, List.map_nil, toLower_hexMap hhi, toLower_hexMap hlo]

/-- `HexStr` tells bytes apart. -/
theorem hexStr_inj {vch vch' : Bytes} (h : hexStr vch = hexStr vch') : vch = vch' := by
  rw [← parseHex_of_spells (spells_hexStr vch), h, parseHex_of_spells (spells_hexStr vch')]

/-! ## Base64 -/

/-- `ConvertBits<8, 6, true>`, with `bits` bits of `acc` not yet handed on. -/
def convertBits : ℕ → ℕ → Bytes → List ℕ
  | acc, bits, [] => if bits ≠ 0 then [acc <<< (6 - bits) &&& 63] else []
  | acc, bits, b :: bs =>
    let acc := (acc <<< 8 ||| b.toNat) &&& 8191
    -- the inner loop goes round twice if twelve bits are there, and once if not
    if bits + 8 < 12 then (acc >>> (bits + 2) &&& 63) :: convertBits acc (bits + 2) bs
    else (acc >>> (bits + 2) &&& 63) :: (acc >>> (bits - 4) &&& 63) :: convertBits acc (bits - 4) bs

/-- The characters of base 64. -/
def pbase64 : Bytes := ascii "ABCDEFGHIJKLMNOPQRSTUVWXYZabcdefghijklmnopqrstuvwxyz0123456789+/"

/-- `EncodeBase64`, padded to a multiple of four characters. -/
def encodeBase64 (str : Bytes) : Bytes :=
  let enc := (convertBits 0 0 str).map fun v => pbase64.getD v 0
  enc ++ List.replicate ((4 - enc.length % 4) % 4) 0x3d

example : encodeBase64 (ascii "user:pass") = ascii "dXNlcjpwYXNz" := by decide +kernel

example : encodeBase64 (ascii "a:b1") = ascii "YTpiMQ==" := by decide +kernel

/-- The low bits of `acc` and a byte. -/
theorem convertBits_acc (acc : ℕ) (b : UInt8) :
    (acc <<< 8 ||| b.toNat) &&& 8191 = (acc * 256 + b.toNat) % 8192 := by
  have hor : acc <<< 8 ||| b.toNat = acc * 256 + b.toNat := by
    rw [← Nat.shiftLeft_add_eq_or_of_lt (i := 8) b.toNat_lt, Nat.shiftLeft_eq]
  rw [hor]
  exact Nat.and_two_pow_sub_one_eq_mod _ 13

theorem and_63 (n : ℕ) : n &&& 63 = n % 64 := Nat.and_two_pow_sub_one_eq_mod n 6

/-- A byte that comes when no bits are left over. -/
theorem convertBits_zero (acc : ℕ) (b : UInt8) (bs : Bytes) : convertBits acc 0 (b :: bs) =
    b.toNat / 4 :: convertBits ((acc * 256 + b.toNat) % 8192) 2 bs := by
  have hb := b.toNat_lt
  simp only [convertBits, convertBits_acc, and_63, Nat.shiftRight_eq_div_pow]
  rw [if_pos (by decide)]
  congr 1
  omega

/-- Two bits are left over. -/
theorem convertBits_two (acc : ℕ) (b : UInt8) (bs : Bytes) : convertBits acc 2 (b :: bs) =
    (acc % 4 * 16 + b.toNat / 16) :: convertBits ((acc * 256 + b.toNat) % 8192) 4 bs := by
  have hb := b.toNat_lt
  simp only [convertBits, convertBits_acc, and_63, Nat.shiftRight_eq_div_pow]
  rw [if_pos (by decide)]
  congr 1
  omega

/-- Four bits are left over. -/
theorem convertBits_four (acc : ℕ) (b : UInt8) (bs : Bytes) : convertBits acc 4 (b :: bs) =
    (acc % 16 * 4 + b.toNat / 64) :: b.toNat % 64 ::
      convertBits ((acc * 256 + b.toNat) % 8192) 0 bs := by
  have hb := b.toNat_lt
  simp only [convertBits, convertBits_acc, and_63, Nat.shiftRight_eq_div_pow]
  rw [if_neg (by decide)]
  congr 1
  · omega
  · congr 1
    omega

theorem low_bits (acc : ℕ) (b : UInt8) :
    (acc * 256 + b.toNat) % 8192 % 4 = b.toNat % 4 ∧
      (acc * 256 + b.toNat) % 8192 % 16 = b.toNat % 16 := by
  have hb := b.toNat_lt
  omega

/-- What the accumulator still holds of older bytes does not count. -/
theorem convertBits_base64 (acc : ℕ) (str : Bytes) : (convertBits acc 0 str).map base64Char ++
    List.replicate ((4 - (convertBits acc 0 str).length % 4) % 4) base64Pad = base64 str := by
  fun_induction base64 str generalizing acc with
  | case1 a b c bs ih =>
    rw [convertBits_zero, convertBits_two, convertBits_four, (low_bits _ a).1, (low_bits _ b).2]
    simp only [List.map_cons, List.length_cons, List.cons_append, Nat.add_mod_right, Nat.add_assoc]
    rw [ih]
  | case2 a b =>
    have hlast : ((acc * 256 + a.toNat) % 8192 * 256 + b.toNat) % 8192 * 4 % 64 =
        b.toNat % 16 * 4 := by
      have hb := b.toNat_lt
      omega
    rw [convertBits_zero, convertBits_two, (low_bits _ a).1]
    simp [convertBits, and_63, Nat.shiftLeft_eq, hlast]
  | case3 a =>
    have hlast : (acc * 256 + a.toNat) % 8192 * 16 % 64 = a.toNat % 4 * 16 := by
      have ha := a.toNat_lt
      omega
    rw [convertBits_zero]
    simp [convertBits, and_63, Nat.shiftLeft_eq, hlast]
  | case4 => simp [convertBits]

/-- **`EncodeBase64` is Base64.** -/
theorem encodeBase64_eq (str : Bytes) : encodeBase64 str = base64 str := by
  have h := convertBits_base64 0 str
  rw [← h, encodeBase64, List.length_map]
  rfl

end ElectrumZ.Bitcoin
