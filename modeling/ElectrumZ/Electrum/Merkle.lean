import ElectrumZ.Electrum.Commands

/-!
# The encoding of a merkle branch

`TXGetMerkleResponse` is encoded as a braced list of two named fields and the branch, which has no
name. The list is an object only if the branch passes for a named field itself.

* `toJson_of_ne` and `toJson_pair`: the two shapes of the encoding.
* `merkle_shape`: the encoding never has a member for the branch, it is an object exactly for a
  branch of two, and it determines the response unless the first of two hashes is the name of a
  field.
-/

namespace ElectrumZ.Commands

open Foundations

attribute [ext] TXGetMerkleResponse

namespace TXGetMerkleResponse

/-- The encoding is an object with a member for each field. -/
structure Named (r : TXGetMerkleResponse) : Prop where
  pos : r.toJson.atMember "pos" = some (.int r.pos)
  block_height : r.toJson.atMember "block_height" = some (.int r.block_height)
  merkle : r.toJson.atMember "merkle" = some (.arr (r.merkle.map .str))

/-- No other response has the same encoding. -/
def Determined (r : TXGetMerkleResponse) : Prop :=
  ∀ r' : TXGetMerkleResponse, Json.Same r.toJson r'.toJson → r = r'

variable {r r' : TXGetMerkleResponse} {key hash : String}

/-- A branch passes for a named field exactly if it has two hashes. -/
theorem pair?_eq_none_iff (merkle : List String) :
    (Json.arr (merkle.map .str)).pair? = none ↔ merkle.length ≠ 2 := by
  rcases merkle with _ | ⟨key, _ | ⟨hash, _ | ⟨next, rest⟩⟩⟩ <;> simp [Json.pair?]

/-- The encoding with most branches is an array. -/
theorem toJson_of_ne (h : r.merkle.length ≠ 2) :
    r.toJson = .arr [.field "pos" (.int r.pos), .field "block_height" (.int r.block_height),
      .arr (r.merkle.map .str)] :=
  Json.ofBraces_eq_arr_iff.mpr ⟨_, by simp, (pair?_eq_none_iff r.merkle).mpr h⟩

/-- With a branch of two the first hash becomes the name of a member. -/
theorem toJson_pair (h : r.merkle = [key, hash]) : ∃ members, r.toJson = .obj members ∧
    ∀ name, members.lookup name =
      if name = "pos" then some (.int r.pos)
      else if name = "block_height" then some (.int r.block_height)
      else if name = key then some (.str hash)
      else none := by
  refine ⟨Json.emplaceAll [("pos", .int r.pos), ("block_height", .int r.block_height),
    (key, .str hash)], ?_, fun name => ?_⟩
  · rw [toJson, h]
    rfl
  · simp only [Json.lookup_emplaceAll, Json.lookup_cons_ite, List.lookup_nil]

/-! ## The branch has no name -/

theorem toJson_isObject_iff : (∃ members, r.toJson = .obj members) ↔ r.merkle.length = 2 := by
  constructor
  · rintro ⟨members, hobj⟩
    by_contra hne
    rw [toJson_of_ne hne] at hobj
    exact nomatch hobj
  · intro h
    obtain ⟨key, hash, hmerkle⟩ := List.length_eq_two.mp h
    obtain ⟨members, hobj, -⟩ := toJson_pair hmerkle
    exact ⟨members, hobj⟩

theorem not_named (r : TXGetMerkleResponse) : ¬ r.Named := by
  intro h
  have hmerkle := h.merkle
  by_cases hlength : r.merkle.length = 2
  · obtain ⟨key, hash, hpair⟩ := List.length_eq_two.mp hlength
    obtain ⟨members, hobj, hlookup⟩ := toJson_pair hpair
    rw [hobj, Json.atMember, hlookup, if_neg (by decide), if_neg (by decide)] at hmerkle
    split_ifs at hmerkle
    exact nomatch Option.some.inj hmerkle
  · rw [toJson_of_ne hlength] at hmerkle
    exact nomatch hmerkle

/-! ## What the encoding determines -/

/-- Equal encodings are of the same shape. -/
theorem length_eq_two_iff (h : Json.Same r.toJson r'.toJson) :
    r.merkle.length = 2 ↔ r'.merkle.length = 2 := by
  rw [← toJson_isObject_iff, ← toJson_isObject_iff]
  exact Json.isObject_iff_of_same h

/-- An array determines the response. -/
theorem eq_of_same_arr (hlength : r.merkle.length ≠ 2) (hlength' : r'.merkle.length ≠ 2)
    (h : Json.Same r.toJson r'.toJson) : r = r' := by
  rw [toJson_of_ne hlength, toJson_of_ne hlength', Json.same_arr_iff] at h
  simp only [Json.field, List.forall₂_cons, Json.same_arr_iff, Json.same_int_iff] at h
  obtain ⟨⟨-, hpos, -⟩, ⟨-, hheight, -⟩, hmerkle, -⟩ := h
  rw [← Json.same_arr_iff, Json.same_arr_str_iff] at hmerkle
  exact TXGetMerkleResponse.ext hmerkle hheight hpos

/-- An object determines the response, if the branch does not take the name of a field. -/
theorem eq_of_same_obj {key' hash' : String} (hmerkle : r.merkle = [key, hash])
    (hmerkle' : r'.merkle = [key', hash']) (hpos : key ≠ "pos") (hheight : key ≠ "block_height")
    (h : Json.Same r.toJson r'.toJson) : r = r' := by
  obtain ⟨members, hobj, hlookup⟩ := toJson_pair hmerkle
  obtain ⟨members', hobj', hlookup'⟩ := toJson_pair hmerkle'
  rw [hobj, hobj', Json.same_obj_iff] at h
  simp only [hlookup, hlookup'] at h
  have hpos' : r.pos = r'.pos := by
    have hsame := h "pos"
    rw [if_pos rfl, if_pos rfl] at hsame
    exact Json.same_int_iff.mp (Option.rel_some_some.mp hsame)
  have hheight' : r.block_height = r'.block_height := by
    have hsame := h "block_height"
    have hne : "block_height" ≠ "pos" := by decide
    rw [if_neg hne, if_neg hne, if_pos rfl, if_pos rfl] at hsame
    exact Json.same_int_iff.mp (Option.rel_some_some.mp hsame)
  have hkey : key = key' ∧ hash = hash' := by
    have hsame := h key
    rw [if_neg hpos, if_neg hpos, if_neg hheight, if_neg hheight, if_pos rfl] at hsame
    split_ifs at hsame with hkey
    · exact ⟨hkey, Json.same_str_iff.mp (Option.rel_some_some.mp hsame)⟩
    · exact nomatch hsame
  obtain ⟨rfl, rfl⟩ := hkey
  exact TXGetMerkleResponse.ext (hmerkle.trans hmerkle'.symm) hheight' hpos'

/-- A branch whose first hash is the name of a field leaves no trace in the encoding. -/
theorem same_of_taken {key' : String} (hmerkle : r.merkle = [key, hash])
    (hkey : key = "pos" ∨ key = "block_height") (hkey' : key' = "pos" ∨ key' = "block_height") :
    Json.Same r.toJson { r with merkle := [key', hash] : TXGetMerkleResponse }.toJson := by
  obtain ⟨members, hobj, hlookup⟩ := toJson_pair hmerkle
  have hmerkle' : ({ r with merkle := [key', hash] } : TXGetMerkleResponse).merkle =
      [key', hash] := rfl
  obtain ⟨members', hobj', hlookup'⟩ := toJson_pair hmerkle'
  rw [hobj, hobj']
  refine Json.same_of_lookup fun name => ?_
  rw [hlookup, hlookup']
  by_cases hpos : name = "pos"
  · rw [if_pos hpos, if_pos hpos]
  · by_cases hheight : name = "block_height"
    · rw [if_neg hpos, if_neg hpos, if_pos hheight, if_pos hheight]
    · have hne {taken : String} (h : taken = "pos" ∨ taken = "block_height") : name ≠ taken := by
        rintro rfl
        exact h.elim hpos hheight
      rw [if_neg (hne hkey), if_neg (hne hkey')]

/-- **The shape of the encoding.** -/
theorem merkle_shape (r : TXGetMerkleResponse) :
    ¬ r.Named ∧ ((∃ members, r.toJson = .obj members) ↔ r.merkle.length = 2) ∧
      (r.Determined ↔
        ∀ key hash, r.merkle = [key, hash] → key ≠ "pos" ∧ key ≠ "block_height") := by
  refine ⟨not_named r, toJson_isObject_iff, ?_, ?_⟩
  · intro h key hash hmerkle
    by_contra hkey
    rw [not_and_or, not_not, not_not] at hkey
    have htaken {key' : String} (hkey' : key' = "pos" ∨ key' = "block_height") : key = key' := by
      have heq := h _ (same_of_taken hmerkle hkey hkey')
      have hbranch := congrArg TXGetMerkleResponse.merkle heq
      rw [hmerkle] at hbranch
      exact (List.cons.inj hbranch).1
    exact absurd ((htaken (.inl rfl)).symm.trans (htaken (.inr rfl))) (by decide)
  · intro h r' hsame
    by_cases hlength : r.merkle.length = 2
    · obtain ⟨key, hash, hmerkle⟩ := List.length_eq_two.mp hlength
      obtain ⟨key', hash', hmerkle'⟩ :=
        List.length_eq_two.mp ((length_eq_two_iff hsame).mp hlength)
      obtain ⟨hpos, hheight⟩ := h key hash hmerkle
      exact eq_of_same_obj hmerkle hmerkle' hpos hheight hsame
    · exact eq_of_same_arr hlength (mt (length_eq_two_iff hsame).mpr hlength) hsame

/-- A branch of one hash is not found in the encoding by its name. -/
theorem not_merkle_shape : ¬ ∀ r : TXGetMerkleResponse, r.Named ∧ r.Determined := by
  intro h
  have hmerkle := (h ⟨["aa"], 1, 0⟩).1.merkle
  exact nomatch hmerkle

end TXGetMerkleResponse

end ElectrumZ.Commands
