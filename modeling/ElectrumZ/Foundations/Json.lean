import Mathlib.Data.Rat.Floor
import Mathlib.Data.Int.DivMod
import Mathlib.Data.List.Forall2

/-!
# JSON values

JSON values with the access functions of the C++ library the server uses. An access that does not
fit the type of the value throws, which is `none` here.

* `member` and `item` are the subscripts: of `null` they give `null`, and so does a missing member
  or an index past the end.
* `getInt` is the conversion to `int`: an integer keeps its low 32 bits, a number with a fraction
  is cut off, and a truth value counts as 1 or 0.
* `pushAll` is what pushing elements one by one gives (`foldlM_pushBack`).
* `ofBraces` is a braced list: an object if all its elements are pairs headed by a string, an array
  otherwise.
* `Same` says that two values are equal but for the order of members.
-/

namespace Foundations

/-- A JSON value. The members of an object have no order. -/
inductive Json
  | null
  | bool (b : Bool)
  | int (n : ℤ)
  | float (x : ℚ)
  | str (s : String)
  | arr (elems : List Json)
  | obj (members : List (String × Json))

namespace Json

def isNull : Json → Bool
  | null => true
  | _ => false

def isNumber : Json → Bool
  | int _ | float _ => true
  | _ => false

def isBool : Json → Bool
  | bool _ => true
  | _ => false

def isArray : Json → Bool
  | arr _ => true
  | _ => false

/-- `j[key]`. -/
def member (key : String) : Json → Option Json
  | null => some null
  | obj members => some ((members.lookup key).getD null)
  | _ => none

/-- `j.at(key)`, which throws if there is no such member. -/
def atMember (key : String) : Json → Option Json
  | obj members => members.lookup key
  | _ => none

/-- `j[key] = v`. -/
def setMember (j : Json) (key : String) (v : Json) : Option Json :=
  match j with
  | null => some (obj [(key, v)])
  | obj members =>
    if (members.lookup key).isSome then
      some (obj (members.map fun p => if p.1 = key then (key, v) else p))
    else some (obj (members ++ [(key, v)]))
  | _ => none

/-- The object has a member of that name. -/
def has (key : String) : Json → Bool
  | obj members => (members.lookup key).isSome
  | _ => false

/-- `j[i]`. -/
def item (i : ℕ) : Json → Option Json
  | null => some null
  | arr elems => some (elems.getD i null)
  | _ => none

/-- `j.get<std::string>()`. -/
def getString : Json → Option String
  | str s => some s
  | _ => none

/-- The low 32 bits as a signed number, as a cast to `int` keeps them. -/
def toInt32 (n : ℤ) : ℤ := n.bmod (2 ^ 32)

/-- `j.get<int>()`, which converts truth values too. A number without a place in `int` is undefined
in the language; on the usual hardware it gives the least `int`. -/
def getInt : Json → Option ℤ
  | bool b => some (if b then 1 else 0)
  | int n => some (toInt32 n)
  | float x =>
    let n := if 0 ≤ x then ⌊x⌋ else ⌈x⌉
    some (if -2 ^ 31 ≤ n ∧ n < 2 ^ 31 then n else -2 ^ 31)
  | _ => none

/-- `j.push_back(v)`. -/
def pushBack (j v : Json) : Option Json :=
  match j with
  | null => some (arr [v])
  | arr elems => some (arr (elems ++ [v]))
  | _ => none

/-- What pushing elements to a value of no type yet makes of it; without elements it stays
`null`. -/
def pushAll (elems : List Json) : Json := if elems = [] then null else arr elems

/-- A pair headed by a string. -/
def pair? : Json → Option (String × Json)
  | arr [str key, v] => some (key, v)
  | _ => none

/-- The members of an object, of which the first of each name counts. -/
def emplaceAll (pairs : List (String × Json)) : List (String × Json) :=
  pairs.foldl (fun members p => if (members.lookup p.1).isSome then members else members ++ [p]) []

/-- A braced list with at least one element. -/
def ofBraces (elems : List Json) : Json :=
  match elems.mapM pair? with
  | some pairs => obj (emplaceAll pairs)
  | none => arr elems

/-- A name and a value in braces. -/
def field (key : String) (v : Json) : Json := arr [str key, v]

theorem foldlM_pushBack_arr (init elems : List Json) :
    elems.foldlM (fun j v => j.pushBack v) (arr init) = some (arr (init ++ elems)) := by
  induction elems generalizing init with
  | nil => simp
  | cons v elems ih =>
    rw [List.foldlM_cons, pushBack, Option.bind_eq_bind, Option.bind_some, ih, List.append_assoc]
    rfl

/-- Pushing the elements one by one makes `pushAll` of them. -/
theorem foldlM_pushBack (elems : List Json) :
    elems.foldlM (fun j v => j.pushBack v) null = some (pushAll elems) := by
  rcases elems with _ | ⟨v, elems⟩
  · rfl
  · rw [List.foldlM_cons, pushBack, Option.bind_eq_bind, Option.bind_some, foldlM_pushBack_arr,
      pushAll, if_neg (List.cons_ne_nil v elems)]
    rfl

theorem mapM_pair?_eq_none_iff {elems : List Json} :
    elems.mapM pair? = none ↔ ∃ j ∈ elems, j.pair? = none := by
  induction elems with
  | nil => simp
  | cons j elems ih =>
    simp only [List.mapM_cons, List.mem_cons, exists_eq_or_imp, ← ih]
    cases hj : j.pair? with
    | none => simp
    | some p => cases hrest : elems.mapM pair? <;> simp

/-- A braced list is an array if one of its elements is no pair headed by a string. -/
theorem ofBraces_eq_arr_iff {elems : List Json} :
    ofBraces elems = arr elems ↔ ∃ j ∈ elems, j.pair? = none := by
  rw [← mapM_pair?_eq_none_iff, ofBraces]
  cases elems.mapM pair? <;> simp

theorem lookup_cons_ite (name : String) (v : Json) (members : List (String × Json))
    (key : String) : ((name, v) :: members).lookup key =
      if key = name then some v else members.lookup key := by
  rw [List.lookup_cons]
  split_ifs with hkey
  · rw [beq_iff_eq.mpr hkey]
  · rw [beq_eq_false_iff_ne.mpr hkey]

/-- The first of each name counts. -/
theorem lookup_emplaceAll (pairs : List (String × Json)) (key : String) :
    (emplaceAll pairs).lookup key = pairs.lookup key := by
  have hfold (members : List (String × Json)) :
      (pairs.foldl (fun members p =>
        if (members.lookup p.1).isSome then members else members ++ [p]) members).lookup key =
        (members.lookup key).or (pairs.lookup key) := by
    induction pairs generalizing members with
    | nil => rw [List.foldl_nil, List.lookup_nil, Option.or_none]
    | cons p pairs ih =>
      obtain ⟨name, value⟩ := p
      rw [List.foldl_cons, ih, lookup_cons_ite]
      by_cases hkey : key = name
      · subst hkey
        rw [if_pos rfl]
        cases hname : members.lookup key with
        | none =>
          rw [Option.isSome_none, if_neg Bool.false_ne_true, List.lookup_append, hname,
            lookup_cons_ite, if_pos rfl, Option.none_or, Option.some_or]
        | some v => rw [Option.isSome_some, if_pos rfl, hname, Option.some_or, Option.some_or]
      · rw [if_neg hkey]
        split_ifs
        · rfl
        · rw [List.lookup_append, lookup_cons_ite, if_neg hkey, List.lookup_nil, Option.or_none]
  rw [emplaceAll, hfold, List.lookup_nil, Option.none_or]

/-! ## Equality -/

/-- The values are equal but for the order of the members of objects. -/
inductive Same : Json → Json → Prop
  | null : Same null null
  | bool (b : Bool) : Same (bool b) (bool b)
  | int (n : ℤ) : Same (int n) (int n)
  | float (x : ℚ) : Same (float x) (float x)
  | str (s : String) : Same (str s) (str s)
  | arr {elems elems' : List Json} (h : List.Forall₂ Same elems elems') :
      Same (arr elems) (arr elems')
  | obj {members members' : List (String × Json)}
      (h : ∀ key, Option.Rel Same (members.lookup key) (members'.lookup key)) :
      Same (obj members) (obj members')

theorem sizeOf_lookup_lt {members : List (String × Json)} {key : String} {v : Json}
    (h : members.lookup key = some v) : sizeOf v < sizeOf members := by
  induction members with
  | nil => exact nomatch h
  | cons p members ih =>
    obtain ⟨name, value⟩ := p
    rw [List.lookup_cons] at h
    split at h
    · obtain rfl := Option.some.inj h
      simp only [List.cons.sizeOf_spec, Prod.mk.sizeOf_spec]
      omega
    · have := ih h
      simp only [List.cons.sizeOf_spec]
      omega

theorem Same.refl : ∀ j : Json, Same j j
  | .null => .null
  | .bool b => .bool b
  | .int n => .int n
  | .float x => .float x
  | .str s => .str s
  | .arr elems => .arr (List.forall₂_same.mpr fun j _ => Same.refl j)
  | .obj members => .obj fun key => by
    cases hlookup : members.lookup key with
    | none => exact .none
    | some v =>
      have hlt := sizeOf_lookup_lt hlookup
      exact .some (Same.refl v)

theorem same_of_lookup {members members' : List (String × Json)}
    (h : ∀ key, members.lookup key = members'.lookup key) :
    Same (obj members) (obj members') := by
  refine .obj fun key => ?_
  rw [h key]
  cases members'.lookup key with
  | none => exact .none
  | some v => exact .some (Same.refl v)

theorem same_int_iff {n m : ℤ} : Same (int n) (int m) ↔ n = m := by
  constructor
  · rintro ⟨⟩
    rfl
  · rintro rfl
    exact .int n

theorem same_str_iff {s t : String} : Same (str s) (str t) ↔ s = t := by
  constructor
  · rintro ⟨⟩
    rfl
  · rintro rfl
    exact .str s

theorem same_arr_iff {elems elems' : List Json} :
    Same (arr elems) (arr elems') ↔ List.Forall₂ Same elems elems' :=
  ⟨fun h => by cases h with | arr h => exact h, .arr⟩

theorem same_obj_iff {members members' : List (String × Json)} :
    Same (obj members) (obj members') ↔
      ∀ key, Option.Rel Same (members.lookup key) (members'.lookup key) :=
  ⟨fun h => by cases h with | obj h => exact h, .obj⟩

theorem isObject_iff_of_same {j j' : Json} (h : Same j j') :
    (∃ members, j = obj members) ↔ ∃ members, j' = obj members := by
  cases h <;> simp

/-- An array of strings determines the strings. -/
theorem same_arr_str_iff {strs strs' : List String} :
    Same (arr (strs.map str)) (arr (strs'.map str)) ↔ strs = strs' := by
  rw [same_arr_iff, List.forall₂_map_left_iff, List.forall₂_map_right_iff]
  simp only [same_str_iff, List.forall₂_eq_eq_eq]

theorem toInt32_of_bounds {n : ℤ} (h₁ : -2 ^ 31 ≤ n) (h₂ : n < 2 ^ 31) : toInt32 n = n := by
  rw [toInt32, Int.bmod_def]
  split_ifs <;> omega

theorem toInt32_toInt32 (n : ℤ) : toInt32 (toInt32 n) = toInt32 n := by
  rw [toInt32, toInt32, Int.bmod_bmod]

theorem toInt32_toInt32_add (n m : ℤ) : toInt32 (toInt32 n + m) = toInt32 (n + m) := by
  rw [toInt32, toInt32, toInt32, Int.bmod_add_bmod]

/-- Integers that are close and differ are kept apart. -/
theorem eq_of_toInt32_eq {n m : ℤ} (h : toInt32 n = toInt32 m) (h₁ : n < m + 2 ^ 32)
    (h₂ : m < n + 2 ^ 32) : n = m := by
  have hmod : n % 2 ^ 32 = m % 2 ^ 32 := by
    rw [toInt32, toInt32] at h
    exact (Int.bmod_emod).symm.trans ((congrArg (· % 2 ^ 32) h).trans Int.bmod_emod)
  omega

/-- An integer that is kept is in range. -/
theorem toInt32_eq_self_iff {n : ℤ} : toInt32 n = n ↔ -2 ^ 31 ≤ n ∧ n < 2 ^ 31 := by
  constructor
  · intro h
    have h₁ := @Int.le_bmod n (2 ^ 32) (by decide)
    have h₂ := @Int.bmod_lt n (2 ^ 32) (by decide)
    rw [toInt32] at h
    rw [h] at h₁ h₂
    constructor <;> omega
  · rintro ⟨h₁, h₂⟩
    exact toInt32_of_bounds h₁ h₂

theorem getInt_int (n : ℤ) : (int n).getInt = some (toInt32 n) := rfl

theorem getInt_isSome (j : Json) : j.getInt.isSome = (j.isNumber || j.isBool) := by
  cases j <;> rfl

/-- An object with a member set. -/
theorem setMember_obj (key : String) (v : Json) (members : List (String × Json)) :
    ∃ members', (obj members).setMember key v = some (obj members') ∧
      members'.lookup key = some v ∧
      ∀ key', key' ≠ key → members'.lookup key' = members.lookup key' := by
  by_cases hhas : (members.lookup key).isSome
  · refine ⟨members.map fun p => if p.1 = key then (key, v) else p, ?_, ?_, fun key' hne => ?_⟩
    · rw [setMember, if_pos hhas]
    · induction members with
      | nil => exact nomatch hhas
      | cons p members ih =>
        by_cases hp : p.1 = key
        · simp [hp]
        · have hp' : (key == p.1) = false := by simpa using Ne.symm hp
          rw [List.lookup_cons, hp'] at hhas
          rw [List.map_cons, if_neg hp, List.lookup_cons, hp']
          exact ih hhas
    · clear hhas
      induction members with
      | nil => rfl
      | cons p members ih =>
        rw [List.map_cons, List.lookup_cons, List.lookup_cons, ih]
        by_cases hp : p.1 = key
        · have hkey : (key' == key) = false := by simpa using hne
          rw [if_pos hp, hp, hkey]
        · rw [if_neg hp]
  · refine ⟨members ++ [(key, v)], ?_, ?_, fun key' hne => ?_⟩
    · rw [setMember, if_neg hhas]
    · have hnone : members.lookup key = none := Option.not_isSome_iff_eq_none.mp hhas
      rw [List.lookup_append, hnone]
      simp
    · have hkey : (key' == key) = false := by simpa using hne
      rw [List.lookup_append, List.lookup_cons, hkey]
      simp

end Json

end Foundations
