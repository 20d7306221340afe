import ElectrumZ.Bitcoin.Transaction

/-!
# SHA-256

The digest the hash classes compute, on whole messages: `Sha256.digest` pads the message, cuts it
into blocks of 64 bytes and compresses them one after another. Nothing else depends on it: the
hashes of the index are over a digest that is a parameter.
-/

namespace ElectrumZ.Bitcoin

open Foundations

namespace Sha256

/-- The round constants. -/
def K : List UInt32 :=
  [0x428a2f98, 0x71374491, 0xb5c0fbcf, 0xe9b5dba5, 0x3956c25b, 0x59f111f1, 0x923f82a4, 0xab1c5ed5,
   0xd807aa98, 0x12835b01, 0x243185be, 0x550c7dc3, 0x72be5d74, 0x80deb1fe, 0x9bdc06a7, 0xc19bf174,
   0xe49b69c1, 0xefbe4786, 0x0fc19dc6, 0x240ca1cc, 0x2de92c6f, 0x4a7484aa, 0x5cb0a9dc, 0x76f988da,
   0x983e5152, 0xa831c66d, 0xb00327c8, 0xbf597fc7, 0xc6e00bf3, 0xd5a79147, 0x06ca6351, 0x14292967,
   0x27b70a85, 0x2e1b2138, 0x4d2c6dfc, 0x53380d13, 0x650a7354, 0x766a0abb, 0x81c2c92e, 0x92722c85,
   0xa2bfe8a1, 0xa81a664b, 0xc24b8b70, 0xc76c51a3, 0xd192e819, 0xd6990624, 0xf40e3585, 0x106aa070,
   0x19a4c116, 0x1e376c08, 0x2748774c, 0x34b0bcb5, 0x391c0cb3, 0x4ed8aa4a, 0x5b9cca4f, 0x682e6ff3,
   0x748f82ee, 0x78a5636f, 0x84c87814, 0x8cc70208, 0x90befffa, 0xa4506ceb, 0xbef9a3f7, 0xc67178f2]

/-- The working variables. -/
structure State where
  (a b c d e f g h : UInt32)

/-- The words a digest begins with. -/
def State.init : State :=
  ⟨0x6a09e667, 0xbb67ae85, 0x3c6ef372, 0xa54ff53a, 0x510e527f, 0x9b05688c, 0x1f83d9ab, 0x5be0cd19⟩

/-- To the right, around the word. -/
def rotr (n : UInt32) (x : UInt32) : UInt32 := (x >>> n) ||| (x <<< (32 - n))

/-- One round, on a round constant and a word of the schedule. -/
def round (s : State) (kw : UInt32 × UInt32) : State :=
  let S1 := rotr 6 s.e ^^^ rotr 11 s.e ^^^ rotr 25 s.e
  let ch := (s.e &&& s.f) ^^^ (~~~s.e &&& s.g)
  let t1 := s.h + S1 + ch + kw.1 + kw.2
  let S0 := rotr 2 s.a ^^^ rotr 13 s.a ^^^ rotr 22 s.a
  let maj := (s.a &&& s.b) ^^^ (s.a &&& s.c) ^^^ (s.b &&& s.c)
  ⟨t1 + (S0 + maj), s.a, s.b, s.c, s.d + t1, s.e, s.f, s.g⟩

/-- The message schedule, latest word first, extended by `n` words. -/
def schedule : ℕ → List UInt32 → List UInt32
  | 0, w => w
  | n + 1, w =>
    let x := w.getD 14 0
    let y := w.getD 1 0
    let s0 := rotr 7 x ^^^ rotr 18 x ^^^ (x >>> 3)
    let s1 := rotr 17 y ^^^ rotr 19 y ^^^ (y >>> 10)
    schedule n ((w.getD 15 0 + s0 + w.getD 6 0 + s1) :: w)

/-- Big-endian words. -/
def wordsBE : Bytes → List UInt32
  | a :: b :: c :: d :: bs =>
    (UInt32.ofNat (((a.toNat * 256 + b.toNat) * 256 + c.toNat) * 256 + d.toNat)) :: wordsBE bs
  | _ => []

/-- A word as four bytes, the highest first. -/
def wordBytes (x : UInt32) : Bytes := (leBytes 4 x.toNat).reverse

/-- 64 rounds on a block, added to what was there. -/
def compress (s : State) (block : Bytes) : State :=
  let w := (schedule 48 (wordsBE block).reverse).reverse
  let t := (K.zip w).foldl round s
  ⟨s.a + t.a, s.b + t.b, s.c + t.c, s.d + t.d, s.e + t.e, s.f + t.f, s.g + t.g, s.h + t.h⟩

/-- The message, a one bit, zeros up to a multiple of 64 bytes, and the length in bits. -/
def pad (data : Bytes) : Bytes :=
  data ++ 0x80 :: List.replicate ((119 - data.length % 64) % 64) 0 ++
    (leBytes 8 (8 * data.length)).reverse

/-- The next `n` blocks of 64 bytes. -/
def blocks : ℕ → Bytes → State → State
  | 0, _, s => s
  | n + 1, bs, s => blocks n (bs.drop 64) (compress s (bs.take 64))

/-- **The digest**: the eight words after the last block. -/
def digest (data : Bytes) : UInt256 :=
  let s := blocks ((data.length + 72) / 64) (pad data) .init
  ⟨[s.a, s.b, s.c, s.d, s.e, s.f, s.g, s.h].flatMap wordBytes, by simp [wordBytes]⟩

example : (digest (ascii "abc")).data.take 8 =
    [0xba, 0x78, 0x16, 0xbf, 0x8f, 0x01, 0xcf, 0xea] := by
  decide +kernel

end Sha256

end ElectrumZ.Bitcoin
