import ElectrumZ.Bitcoin.StrEncodings
import ElectrumZ.Foundations.Bits
import Mathlib.Data.List.Nodup
import Mathlib.Data.List.TakeWhile

/-!
# Base64 and Base32

`ConvertBits` regroups the bits of its input, and the encodings of `strencodings.cpp` write the
groups as characters.

* `convert_pad_spec`, `convert_spec`: what is handed on are the bits of the input, cut anew.
* `convert_iff`: **regrouping without padding accepts what regrouping with padding makes**, and
  undoes it.
* `decodeBase_iff`, `decode_iff_encode`: **a text is valid exactly if it is the encoding of what is
  returned for it**, in Base32 up to the case of letters.
-/

namespace ElectrumZ.Bitcoin

open Foundations

/-! ## `ConvertBits` -/

/-- The inner loop: hand on `tobits` bits of `acc` as long as there are so many. -/
def emit (tobits acc bits : ℕ) : List ℕ × ℕ :=
  if _h : 0 < tobits ∧ tobits ≤ bits then
    let bits' := bits - tobits
    let (out, left) := emit tobits acc bits'
    ((acc >>> bits' &&& (2 ^ tobits - 1)) :: out, left)
  else ([], bits)
termination_by bits
decreasing_by omega

/-- The outer loop: what is handed on, and the accumulator with the number of its bits that are
left. -/
def convertLoop (frombits tobits : ℕ) : ℕ → ℕ → List ℕ → List ℕ × ℕ × ℕ
  | acc, bits, [] => ([], acc, bits)
  | acc, bits, x :: xs =>
    let acc := (acc <<< frombits ||| x) &&& (2 ^ (frombits + tobits - 1) - 1)
    let (out, bits) := emit tobits acc (bits + frombits)
    let (rest, acc, bits) := convertLoop frombits tobits acc bits xs
    (out ++ rest, acc, bits)

/-- `ConvertBits<frombits, tobits, pad>`: what is handed on, and what is returned. -/
def convertBitsBetween (frombits tobits : ℕ) (pad : Bool) (xs : List ℕ) : List ℕ × Bool :=
  let (out, acc, bits) := convertLoop frombits tobits 0 0 xs
  let last := acc <<< (tobits - bits) &&& (2 ^ tobits - 1)
  if pad then (if bits ≠ 0 then out ++ [last] else out, true)
  else (out, !(frombits ≤ bits || last ≠ 0))

variable {f t acc bits : ℕ} {xs ys : List ℕ}

theorem emit_spec (ht : 0 < t) (acc bits : ℕ) :
    flatBits t (emit t acc bits).1 ++ toBits (emit t acc bits).2 acc = toBits bits acc ∧
      (emit t acc bits).2 < t ∧ ∀ y ∈ (emit t acc bits).1, y < 2 ^ t := by
  induction bits using Nat.strong_induction_on with
  | _ bits ih =>
    rw [emit]
    split_ifs with h
    · obtain ⟨hflat, hlt, hout⟩ := ih (bits - t) (by omega)
      refine ⟨?_, hlt, ?_⟩
      · change flatBits t (_ :: _) ++ _ = _
        rw [flatBits_cons, List.append_assoc, hflat, toBits_and le_rfl, ← toBits_add]
        congr 1
        omega
      · rw [List.forall_mem_cons]
        have hpos := Nat.two_pow_pos t
        exact ⟨Nat.and_lt_two_pow _ (by omega), hout⟩
    · exact ⟨rfl, by omega, by simp⟩

/-- The bits that are left, and those of what comes, are handed on or left. -/
theorem convertLoop_spec (ht : 0 < t) (hbits : bits < t) (hxs : ∀ x ∈ xs, x < 2 ^ f) (acc : ℕ) :
    flatBits t (convertLoop f t acc bits xs).1 ++
        toBits (convertLoop f t acc bits xs).2.2 (convertLoop f t acc bits xs).2.1 =
      toBits bits acc ++ flatBits f xs ∧ (convertLoop f t acc bits xs).2.2 < t ∧
    ∀ y ∈ (convertLoop f t acc bits xs).1, y < 2 ^ t := by
  induction xs generalizing acc bits with
  | nil => simpa [convertLoop] using hbits
  | cons x xs ih =>
    rw [List.forall_mem_cons] at hxs
    let acc' := (acc <<< f ||| x) &&& (2 ^ (f + t - 1) - 1)
    -- the mask keeps all bits that count
    have hacc : toBits (bits + f) acc' = toBits bits acc ++ toBits f x := by
      rw [toBits_and (by omega), toBits_shiftLeft_or bits hxs.1]
    obtain ⟨hemit, hlt, hout⟩ := emit_spec ht acc' (bits + f)
    obtain ⟨hloop, hlast, hrest⟩ := ih hlt hxs.2 acc'
    refine ⟨?_, hlast, ?_⟩
    · change flatBits t (_ ++ _) ++ _ = _
      rw [flatBits_append, List.append_assoc]
      refine (congrArg _ hloop).trans ?_
      rw [← List.append_assoc, hemit, hacc, flatBits_cons, List.append_assoc]
    · intro y hy
      exact (List.mem_append.mp hy).elim (hout y) (hrest y)

/-- The bits that are left, moved up, are zero if they were. -/
theorem last_eq_zero_iff (hbits : bits < t) :
    acc <<< (t - bits) &&& (2 ^ t - 1) = 0 ↔ toBits bits acc = List.replicate bits false := by
  rw [← toBits_eq_replicate]
  conv_lhs => rw [show t = bits + (t - bits) by omega, Nat.add_sub_cancel_left,
    toBits_shiftLeft, List.replicate_add, List.append_cancel_right_eq]

/-- **With padding** the bits of the input are cut anew, and the last group filled up with zeros. -/
theorem convert_pad_spec (ht : 0 < t) (hxs : ∀ x ∈ xs, x < 2 ^ f) :
    (∀ y ∈ (convertBitsBetween f t true xs).1, y < 2 ^ t) ∧ ∃ r < t,
      flatBits t (convertBitsBetween f t true xs).1 = flatBits f xs ++ List.replicate r false := by
  obtain ⟨hflat, hlt, hout⟩ := @convertLoop_spec f t 0 xs ht ht hxs 0
  rw [convertBitsBetween]
  rcases hloop : convertLoop f t 0 0 xs with ⟨out, acc, bits⟩
  rw [hloop] at hflat hlt hout
  simp only [toBits, List.nil_append, if_true] at hflat hlt hout ⊢
  split_ifs with h0
  · refine ⟨fun y hy => ?_, t - bits, by omega, ?_⟩
    · have hpos := Nat.two_pow_pos t
      obtain hy | hy := List.mem_append.mp hy
      · exact hout y hy
      · rw [List.mem_singleton.mp hy]
        exact Nat.and_lt_two_pow _ (by omega)
    · have hlast : toBits t (acc <<< (t - bits)) =
          toBits bits acc ++ List.replicate (t - bits) false := by
        rw [← toBits_shiftLeft, Nat.add_sub_cancel' hlt.le]
      rw [flatBits_append, flatBits_cons, flatBits_nil, List.append_nil, toBits_and le_rfl, hlast,
        ← List.append_assoc, hflat]
  · rw [not_not] at h0
    subst h0
    exact ⟨hout, 0, ht, by simpa [toBits] using hflat⟩

/-- **Without padding** the bits of the input are cut anew, and those left over, fewer than an input
has, must be zero. -/
theorem convert_spec (ht : 0 < t) (hxs : ∀ x ∈ xs, x < 2 ^ f) :
    (∀ y ∈ (convertBitsBetween f t false xs).1, y < 2 ^ t) ∧ ∃ l : List Bool, l.length < t ∧
      flatBits t (convertBitsBetween f t false xs).1 ++ l = flatBits f xs ∧
      ((convertBitsBetween f t false xs).2 = true ↔
        l.length < f ∧ l = List.replicate l.length false) := by
  obtain ⟨hflat, hlt, hout⟩ := @convertLoop_spec f t 0 xs ht ht hxs 0
  rw [convertBitsBetween]
  rcases hloop : convertLoop f t 0 0 xs with ⟨out, acc, bits⟩
  rw [hloop] at hflat hlt hout
  simp only [toBits, List.nil_append, Bool.false_eq_true, if_false] at hflat hlt hout ⊢
  refine ⟨hout, toBits bits acc, by simpa using hlt, hflat, ?_⟩
  rw [length_toBits, ← last_eq_zero_iff hlt]
  simp

/-- **Regrouping without padding undoes regrouping with padding**, and accepts nothing else. -/
theorem convert_iff (ht : 0 < t) (hle : t ≤ f) (hxs : ∀ x ∈ xs, x < 2 ^ f)
    (hys : ∀ y ∈ ys, y < 2 ^ t) :
    convertBitsBetween t f false ys = (xs, true) ↔ (convertBitsBetween f t true xs).1 = ys := by
  obtain ⟨hpad, r, hr, hflat⟩ := convert_pad_spec ht hxs
  constructor
  · intro h
    obtain ⟨-, l, -, hl, hvalid⟩ := convert_spec (ht.trans_le hle) hys
    rw [h] at hl hvalid
    obtain ⟨hlt, hzero⟩ := hvalid.mp rfl
    -- both fill up the same bits, so they fill them up alike
    have hsame : flatBits t (convertBitsBetween f t true xs).1 ++ List.replicate l.length false =
        flatBits t ys ++ List.replicate r false := by
      rw [hflat, ← hl, hzero, List.length_replicate, List.append_assoc, List.append_assoc,
        ← List.replicate_add, ← List.replicate_add, Nat.add_comm]
    exact (flatBits_inj hpad hys (by simpa using hlt) (by simpa using hr) hsame).1
  · rintro rfl
    obtain ⟨hout, l, hl, heq, hvalid⟩ := convert_spec (ht.trans_le hle) hpad
    rw [hflat] at heq
    obtain ⟨hxs', hzero⟩ := flatBits_inj hout hxs hl (by simpa using hr.trans_le hle) heq
    refine Prod.ext hxs' (hvalid.mpr ?_)
    rw [hzero, List.length_replicate]
    exact ⟨hr, rfl⟩

/-! ## The encodings -/

namespace StrEncodings

/-- An encoding, filled up to a multiple of `group` characters. -/
def encodeBase (chars : Bytes) (tobits group : ℕ) (str : Bytes) : Bytes :=
  let enc := (convertBitsBetween 8 tobits true (str.map UInt8.toNat)).1.map fun v => chars.getD v 0
  enc ++ List.replicate ((group - enc.length % group) % group) 0x3d

/-- The value of a character. -/
def tableValue (table : List ℤ) (c : UInt8) : ℕ := (table.getD c.toNat (-1)).toNat

/-- The decoding of a text without zero bytes, and whether it is valid. -/
def decodeBase (table : List ℤ) (frombits group : ℕ) (p : Bytes) : Bytes × Bool :=
  let e := p.takeWhile fun c => table.getD c.toNat (-1) ≠ -1
  let q := p.drop e.length
  let (ret, valid) := convertBitsBetween frombits 8 false (e.map (tableValue table))
  (ret.map UInt8.ofNat,
    valid && q.all (· == 0x3d) && p.length % group == 0 && decide (q.length < group))

/-- The numbers from `a` to below `b`. -/
def numbers (a b : ℕ) : List ℤ := (List.range' a (b - a)).map Int.ofNat

/-- `decode64_table`. -/
def decode64_table : List ℤ :=
  List.replicate 43 (-1) ++ [62, -1, -1, -1, 63] ++ numbers 52 62 ++ List.replicate 7 (-1) ++
    numbers 0 26 ++ List.replicate 6 (-1) ++ numbers 26 52 ++ List.replicate 133 (-1)

/-- The characters of base 32. -/
def pbase32 : Bytes := ascii "abcdefghijklmnopqrstuvwxyz234567"

/-- `decode32_table`. -/
def decode32_table : List ℤ :=
  List.replicate 50 (-1) ++ numbers 26 32 ++ List.replicate 9 (-1) ++ numbers 0 26 ++
    List.replicate 6 (-1) ++ numbers 0 26 ++ List.replicate 133 (-1)

/-- `str.c_str()`, as a C string. -/
def cStr (str : Bytes) : Bytes := str.takeWhile (· ≠ 0)

/-- `DecodeBase64`, and whether the text is valid. -/
def decodeBase64 (str : Bytes) : Bytes × Bool := decodeBase decode64_table 6 4 (cStr str)

/-- `EncodeBase32`. -/
def encodeBase32 (str : Bytes) : Bytes := encodeBase pbase32 5 8 str

/-- `DecodeBase32`, and whether the text is valid. -/
def decodeBase32 (str : Bytes) : Bytes × Bool := decodeBase decode32_table 5 8 (cStr str)

/-- The character in lower case, which base 32 reads alike. -/
def toLower (c : UInt8) : UInt8 := if 0x41 ≤ c ∧ c ≤ 0x5a then c - 0x41 + 0x61 else c

/-- The table reads the characters, up to `norm`, and neither has the padding. -/
structure Alphabet (table : List ℤ) (chars : Bytes) (t : ℕ) (norm : UInt8 → UInt8) : Prop where
  reads : ∀ c : UInt8, table.getD c.toNat (-1) ≠ -1 →
    ∃ v : ℕ, v < 2 ^ t ∧ table.getD c.toNat (-1) = v ∧ norm c = chars.getD v 0
  written : ∀ v : ℕ, v < 2 ^ t → ∀ c : UInt8, norm c = chars.getD v 0 → table.getD c.toNat (-1) = v
  norm_pad : ∀ c, norm c = 0x3d ↔ c = 0x3d
  pad : table.getD 0x3d (-1) = -1

theorem idxOf?_eq_some_iff {chars : Bytes} (hnodup : (chars.map UInt8.toNat).Nodup) {c : UInt8}
    {v : ℕ} : (chars.map UInt8.toNat).idxOf? c.toNat = some v ↔
      v < chars.length ∧ c = chars.getD v 0 := by
  rw [List.idxOf?_eq_some_iff]
  constructor
  · rintro ⟨hv, heq, -⟩
    rw [List.length_map] at hv
    rw [List.getElem_map, UInt8.toNat_inj] at heq
    exact ⟨hv, by rw [← heq, List.getD_eq_getElem _ _ hv]⟩
  · rintro ⟨hv, rfl⟩
    rw [List.getD_eq_getElem _ _ hv]
    refine ⟨by simpa using hv, by simp, fun j hj heq => ?_⟩
    have hlt : v < (chars.map UInt8.toNat).length := by simpa using hv
    have hchar : chars[v].toNat = (chars.map UInt8.toNat)[v] := by rw [List.getElem_map]
    have hsame : j = v := hnodup.getElem_inj_iff.mp (heq.trans hchar)
    omega

/-- A table that has the place of each character. -/
theorem alphabet_of {table : List ℤ} {chars : Bytes} {t : ℕ} {norm : UInt8 → UInt8}
    (htable : table = (List.range 256).map fun n =>
      ((chars.map UInt8.toNat).idxOf? (norm (UInt8.ofNat n)).toNat).elim (-1) Int.ofNat)
    (hlen : chars.length = 2 ^ t) (hnodup : (chars.map UInt8.toNat).Nodup)
    (hnorm : ∀ c, norm c = 0x3d ↔ c = 0x3d) (hpad : table.getD 0x3d (-1) = -1) :
    Alphabet table chars t norm where
  reads c hc := by
    have hn := c.toNat_lt
    simp only [htable, List.getD_eq_getElem?_getD, List.getElem?_map, List.getElem?_range hn,
      Option.map_some, Option.getD_some, UInt8.ofNat_toNat] at hc ⊢
    cases hv : (chars.map UInt8.toNat).idxOf? (norm c).toNat with
    | none =>
      rw [hv] at hc
      exact absurd rfl hc
    | some v =>
      obtain ⟨hlt, hchar⟩ := (idxOf?_eq_some_iff hnodup).mp hv
      exact ⟨v, hlen ▸ hlt, rfl, by simpa using hchar⟩
  written v hv c hc := by
    have hn := c.toNat_lt
    simp only [htable, List.getD_eq_getElem?_getD, List.getElem?_map, List.getElem?_range hn,
      Option.map_some, Option.getD_some, UInt8.ofNat_toNat] at hc ⊢
    rw [(idxOf?_eq_some_iff hnodup).mpr ⟨hlen.symm ▸ hv, by simpa using hc⟩]
    rfl
  norm_pad := hnorm
  pad := hpad

theorem alphabet64 : Alphabet decode64_table pbase64 6 id :=
  alphabet_of (by decide +kernel) (by decide +kernel) (by decide +kernel) (fun _ => Iff.rfl)
    (by decide +kernel)

theorem toLower_eq_pad (c : UInt8) : toLower c = 0x3d ↔ c = 0x3d := by
  unfold toLower
  split_ifs with hc
  · refine iff_of_false (fun h => ?_) ?_
    · have hsub := UInt8.toNat_sub_of_le c 0x41 hc.1
      have hnat := congrArg UInt8.toNat h
      have hle := UInt8.le_iff_toNat_le.mp hc.2
      rw [UInt8.toNat_add, hsub] at hnat
      simp at hnat hle
      omega
    · rintro rfl
      exact absurd hc (by decide)
  · rfl

theorem alphabet32 : Alphabet decode32_table pbase32 5 toLower :=
  alphabet_of (by decide +kernel) (by decide +kernel) (by decide +kernel) toLower_eq_pad
    (by decide +kernel)

/-! ### Decoding undoes encoding -/

section Decoding

variable {table : List ℤ} {chars : Bytes} {t group : ℕ} {norm : UInt8 → UInt8} {e p ret : Bytes}
  {ys : List ℕ}

theorem Alphabet.values (h : Alphabet table chars t norm)
    (he : ∀ c ∈ e, table.getD c.toNat (-1) ≠ -1) :
    (∀ y ∈ e.map (tableValue table), y < 2 ^ t) ∧
      e.map norm = (e.map (tableValue table)).map fun v => chars.getD v 0 := by
  induction e with
  | nil => simp
  | cons c e ih =>
    rw [List.forall_mem_cons] at he
    obtain ⟨hlt, hmap⟩ := ih he.2
    obtain ⟨v, hv, hvalue, hnorm⟩ := h.reads c he.1
    have htable : tableValue table c = v := by rw [tableValue, hvalue, Int.toNat_natCast]
    rw [List.map_cons, List.map_cons, List.map_cons, List.forall_mem_cons, htable, hnorm, hmap]
    exact ⟨⟨hv, hlt⟩, rfl⟩

theorem Alphabet.values_of_norm (h : Alphabet table chars t norm) (hys : ∀ y ∈ ys, y < 2 ^ t)
    (he : e.map norm = ys.map fun v => chars.getD v 0) :
    (∀ c ∈ e, table.getD c.toNat (-1) ≠ -1) ∧ e.map (tableValue table) = ys := by
  induction e generalizing ys with
  | nil =>
    obtain rfl := List.map_eq_nil_iff.mp he.symm
    exact ⟨by simp, rfl⟩
  | cons c e ih =>
    cases ys with
    | nil => simp at he
    | cons v ys =>
      rw [List.map_cons, List.map_cons, List.cons.injEq] at he
      rw [List.forall_mem_cons] at hys
      obtain ⟨hin, hmap⟩ := ih hys.2 he.2
      have hvalue := h.written v hys.1 c he.1
      rw [List.forall_mem_cons, List.map_cons, hmap, tableValue, hvalue, Int.toNat_natCast]
      exact ⟨⟨by omega, hin⟩, rfl⟩

/-- What fills up a multiple, and is less than one, is the padding. -/
theorem padding_eq {a k : ℕ} (hk : k < group) :
    (a + k) % group = 0 ↔ k = (group - a % group) % group := by
  have ha := Nat.mod_lt a (Nat.zero_lt_of_lt hk)
  rw [Nat.add_mod, Nat.mod_eq_of_lt hk]
  by_cases h0 : a % group = 0
  · rw [h0, Nat.zero_add, Nat.sub_zero, Nat.mod_self, Nat.mod_eq_of_lt hk]
  · rw [Nat.mod_eq_of_lt (by omega : group - a % group < group)]
    by_cases hlt : a % group + k < group
    · rw [Nat.mod_eq_of_lt hlt]
      omega
    · rw [Nat.mod_eq_sub_mod (by omega), Nat.mod_eq_of_lt (by omega)]
      omega

theorem map_toNat_ofNat {ys : List ℕ} (hys : ∀ y ∈ ys, y < 2 ^ 8) :
    (ys.map UInt8.ofNat).map UInt8.toNat = ys := by
  rw [List.map_map]
  conv_rhs => rw [← List.map_id ys]
  exact List.map_congr_left fun y hy => UInt8.toNat_ofNat_of_lt' (hys y hy)

theorem map_ofNat_toNat (bs : Bytes) : (bs.map UInt8.toNat).map UInt8.ofNat = bs := by
  rw [List.map_map]
  conv_rhs => rw [← List.map_id bs]
  exact List.map_congr_left fun b _ => UInt8.ofNat_toNat

theorem toNat_lt_of_mem (bs : Bytes) : ∀ x ∈ bs.map UInt8.toNat, x < 2 ^ 8 := by
  intro x hx
  obtain ⟨b, -, rfl⟩ := List.mem_map.mp hx
  exact b.toNat_lt

/-- The characters that the table has, and the rest. -/
theorem decodeBase_append {q : Bytes} (he : ∀ c ∈ e, table.getD c.toNat (-1) ≠ -1)
    (hq : ∀ c ∈ q.head?, table.getD c.toNat (-1) = -1) :
    decodeBase table t group (e ++ q) =
      ((convertBitsBetween t 8 false (e.map (tableValue table))).1.map UInt8.ofNat,
        (convertBitsBetween t 8 false (e.map (tableValue table))).2 && q.all (· == 0x3d) &&
          (e ++ q).length % group == 0 && decide (q.length < group)) := by
  have htake : (e ++ q).takeWhile (fun c => table.getD c.toNat (-1) ≠ -1) = e := by
    rw [List.takeWhile_append_of_pos fun c hc => decide_eq_true (he c hc)]
    cases q with
    | nil => rw [List.takeWhile_nil, List.append_nil]
    | cons c q =>
      rw [List.takeWhile_cons_of_neg, List.append_nil]
      simpa using hq c rfl
  rw [decodeBase, htake, List.drop_left]

/-- **A text is valid exactly if it is an encoding**, up to `norm`, of what it is decoded to. -/
theorem decodeBase_iff (h : Alphabet table chars t norm) (ht : 0 < t) (hle : t ≤ 8)
    (hgroup : 0 < group) :
    decodeBase table t group p = (ret, true) ↔ p.map norm = encodeBase chars t group ret := by
  have hret := toNat_lt_of_mem ret
  constructor
  · intro hdecode
    obtain ⟨e, q, rfl, he, hq⟩ : ∃ e q, p = e ++ q ∧ (∀ c ∈ e, table.getD c.toNat (-1) ≠ -1) ∧
        ∀ c ∈ q.head?, table.getD c.toNat (-1) = -1 := by
      refine ⟨p.takeWhile fun c => table.getD c.toNat (-1) ≠ -1, _,
        List.takeWhile_append_dropWhile.symm, fun c hc => ?_, fun c hc => ?_⟩
      · simpa using List.mem_takeWhile_imp hc
      · have hhead := List.head?_dropWhile_not (fun c : UInt8 => table.getD c.toNat (-1) ≠ -1) p
        rw [Option.mem_def.mp hc] at hhead
        simpa using hhead
    rw [decodeBase_append he hq, Prod.mk.injEq] at hdecode
    obtain ⟨hout, hvalid⟩ := hdecode
    simp only [Bool.and_eq_true, List.all_eq_true, beq_iff_eq, decide_eq_true_eq] at hvalid
    obtain ⟨⟨⟨hvalid, hpad⟩, hmod⟩, hlt⟩ := hvalid
    obtain ⟨hvalues, hnorm⟩ := h.values he
    -- what is handed on are bytes, so that regrouping is undone
    have hconvert : convertBitsBetween t 8 false (e.map (tableValue table)) =
        (ret.map UInt8.toNat, true) := by
      refine Prod.ext ?_ hvalid
      rw [← hout, map_toNat_ofNat (convert_spec (by omega) hvalues).1]
    have henc := (convert_iff ht hle hret hvalues).mp hconvert
    rw [List.length_append, padding_eq hlt] at hmod
    rw [encodeBase, henc, List.map_append, hnorm, List.length_map, List.length_map, ← hmod,
      List.eq_replicate_of_mem hpad, List.map_replicate, (h.norm_pad _).mpr rfl,
      List.length_replicate]
  · intro hnorm
    obtain ⟨hys, -⟩ := convert_pad_spec (f := 8) ht hret
    obtain ⟨e, q, rfl, hmap, hpad⟩ := List.map_eq_append_iff.mp hnorm
    obtain ⟨he, hvalues⟩ := h.values_of_norm hys hmap
    rw [List.length_map, ← hvalues, List.length_map] at hpad
    have hmem (c : UInt8) (hc : c ∈ q) : c = 0x3d := by
      have hin := List.mem_map_of_mem (f := norm) hc
      rw [hpad] at hin
      exact (h.norm_pad c).mp (List.eq_of_mem_replicate hin)
    have hlen := congrArg List.length hpad
    rw [List.length_map, List.length_replicate] at hlen
    have hlt : q.length < group := hlen ▸ Nat.mod_lt _ hgroup
    have hconvert := (convert_iff ht hle hret hys).mpr rfl
    rw [decodeBase_append he fun c hc => (hmem c (List.mem_of_mem_head? hc)) ▸ h.pad, hvalues,
      hconvert, map_ofNat_toNat, Prod.mk.injEq]
    refine ⟨rfl, ?_⟩
    simp only [Bool.and_eq_true, List.all_eq_true, beq_iff_eq, decide_eq_true_eq,
      List.length_append]
    exact ⟨⟨⟨trivial, hmem⟩, (padding_eq hlt).mpr hlen⟩, hlt⟩

end Decoding

/-! ### The encoding that the client of the node uses -/

theorem emit_of_lt {t acc bits : ℕ} (h : bits < t) : emit t acc bits = ([], bits) := by
  rw [emit, dif_neg (by omega)]

theorem emit_of_le {t acc bits : ℕ} (ht : 0 < t) (h : t ≤ bits) : emit t acc bits =
    ((acc >>> (bits - t) &&& (2 ^ t - 1)) :: (emit t acc (bits - t)).1,
      (emit t acc (bits - t)).2) := by
  rw [emit, dif_pos ⟨ht, h⟩]

/-- `convertBits` is `ConvertBits<8, 6, true>`, from any state between two bytes. -/
theorem convertBits_eq (acc : ℕ) {bits : ℕ} (hbits : bits < 6) (str : Bytes) :
    convertBits acc bits str =
      let (out, acc, bits) := convertLoop 8 6 acc bits (str.map UInt8.toNat)
      if bits ≠ 0 then out ++ [acc <<< (6 - bits) &&& 63] else out := by
  induction str generalizing acc bits with
  | nil => simp only [convertBits, convertLoop, List.map_nil, List.nil_append]
  | cons b str ih =>
    have hmask : 2 ^ (8 + 6 - 1) - 1 = 8191 := rfl
    have hsub : bits + 8 - 6 = bits + 2 := by omega
    have hsub' : bits + 2 - 6 = bits - 4 := by omega
    rw [convertBits]
    simp only [List.map_cons, convertLoop, hmask]
    rw [emit_of_le (by omega) (by omega), hsub]
    by_cases hlt : bits + 8 < 12
    · rw [if_pos hlt, emit_of_lt (by omega), ih _ (by omega)]
      dsimp only
      split_ifs <;> simp
    · rw [if_neg hlt, emit_of_le (by omega) (by omega), hsub', emit_of_lt (by omega),
        ih _ (by omega)]
      dsimp only
      split_ifs <;> simp

theorem encodeBase64_eq_encodeBase (str : Bytes) :
    encodeBase64 str = encodeBase pbase64 6 4 str := by
  have hconvert : convertBits 0 0 str = (convertBitsBetween 8 6 true (str.map UInt8.toNat)).1 :=
    convertBits_eq 0 (by omega) str
  rw [encodeBase64, hconvert, encodeBase]

/-- **Of all texts the encodings are valid**, and they are decoded to what they encode. A text ends
at its first zero byte, and Base32 does not tell the case of letters. -/
theorem decode_iff_encode (str ret : Bytes) :
    (decodeBase64 str = (ret, true) ↔ cStr str = encodeBase64 ret) ∧
      (decodeBase32 str = (ret, true) ↔ (cStr str).map toLower = encodeBase32 ret) := by
  constructor
  · have h : decodeBase decode64_table 6 4 (cStr str) = (ret, true) ↔ _ :=
      decodeBase_iff alphabet64 (by omega) (by omega) (by omega)
    rwa [List.map_id, ← encodeBase64_eq_encodeBase] at h
  · exact decodeBase_iff alphabet32 (by omega) (by omega) (by omega)

end StrEncodings

end ElectrumZ.Bitcoin
