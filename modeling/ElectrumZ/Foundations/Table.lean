import Mathlib.Data.List.Induction
import Mathlib.Data.List.Sort
import Mathlib.Logic.Function.Basic

/-!
# Tables with one value or sorted values under a key

The data model of a key-value store whose tables come in two kinds, fixed when a table is
created. A plain table has at most one value under a key, and a `put` replaces it. A table with
sorted duplicates keeps a list of values under each key in the order of its comparator; it refuses
a value that compares equal to a stored one (`put`), or an append that does not come last
(`append`).

* `put_eq_none`, `put_fresh`, `append_last`: what the two operations do on sorted duplicates.
* `mem_vals_put`: a `put` adds the pair and nothing else.
* `put_sorted`: values that are in the order of a comparator (`Orders`) stay in order, and such a
  list is determined by its members (`eq_of_sorted`).
* `setAll_mem_iff`: on a plain table the last value wins, so the table keeps all the pairs
  put into it if and only if no key was given two values.
-/

namespace Foundations

variable {κ α : Type} [DecidableEq κ]

/-- A table with, for each key, its values. -/
@[ext]
structure Table (κ α : Type) where
  dupsort : Bool
  /-- Compares values under one key; only used on sorted duplicates. -/
  dcmp : α → α → ℤ
  vals : κ → List α

namespace Table

/-- A table without values. -/
def empty (dupsort : Bool) (dcmp : α → α → ℤ) : Table κ α := ⟨dupsort, dcmp, fun _ => []⟩

/-- The table with other values under one key. -/
def set (t : Table κ α) (k : κ) (vs : List α) : Table κ α :=
  { t with vals := Function.update t.vals k vs }

@[simp] theorem set_dupsort (t : Table κ α) (k : κ) (vs : List α) :
    (t.set k vs).dupsort = t.dupsort := rfl

@[simp] theorem set_dcmp (t : Table κ α) (k : κ) (vs : List α) :
    (t.set k vs).dcmp = t.dcmp := rfl

@[simp] theorem set_vals_self (t : Table κ α) (k : κ) (vs : List α) :
    (t.set k vs).vals k = vs := by
  simp [set]

theorem set_vals_of_ne (t : Table κ α) {k k' : κ} (vs : List α) (h : k' ≠ k) :
    (t.set k vs).vals k' = t.vals k' := by
  simp [set, h]

/-- Store a value that is not there yet; `none` when it is. -/
def put (t : Table κ α) (k : κ) (v : α) : Option (Table κ α) :=
  if t.dupsort then
    if (t.vals k).any fun w => t.dcmp v w == 0 then none
    else some (t.set k ((t.vals k).orderedInsert (fun a b => t.dcmp a b < 0) v))
  else some (t.set k [v])

/-- Store a value after all others under its key; `none` when it does not belong there. -/
def append (t : Table κ α) (k : κ) (v : α) : Option (Table κ α) :=
  if t.dupsort then
    match (t.vals k).getLast? with
    | none => some (t.set k [v])
    | some w => if t.dcmp v w ≤ 0 then none else some (t.set k (t.vals k ++ [v]))
  else some (t.set k [v])

variable {t t' : Table κ α} {k k' : κ} {v w : α}

/-- A value that is refused is there already. -/
theorem vals_ne_nil_of_put_eq_none (h : t.put k v = none) : t.vals k ≠ [] := by
  intro hnil
  rw [put, hnil] at h
  split_ifs at h
  simp_all

/-- A `put` gives a value to its key. -/
theorem put_vals_ne_nil (h : t.put k v = some t') :
    t'.vals k' ≠ [] ↔ k' = k ∨ t.vals k' ≠ [] := by
  by_cases hk : k' = k
  · subst hk
    rw [put] at h
    split_ifs at h <;> obtain rfl := Option.some.inj h
    · rw [set_vals_self]
      simp only [true_or, iff_true]
      exact List.ne_nil_of_mem ((List.mem_orderedInsert _).mpr (.inl rfl))
    · simp
  · rw [put] at h
    split_ifs at h <;> obtain rfl := Option.some.inj h <;> simp [set_vals_of_ne _ _ hk, hk]

/-- And brings in no other. -/
theorem eq_or_mem_of_mem_put (h : t.put k v = some t') (hmem : w ∈ t'.vals k') :
    w = v ∨ w ∈ t.vals k' := by
  by_cases hk : k' = k
  · subst hk
    rw [put] at h
    split_ifs at h <;> obtain rfl := Option.some.inj h <;> rw [set_vals_self] at hmem
    · exact (List.mem_orderedInsert _).mp hmem
    · exact .inl (List.mem_singleton.mp hmem)
  · rw [put] at h
    split_ifs at h <;> obtain rfl := Option.some.inj h <;> rw [set_vals_of_ne _ _ hk] at hmem <;>
      exact .inr hmem

/-! ### What is gained -/

/-- What the second table has and the first has not satisfies `P`. -/
def Gains (P : κ → α → Prop) (t t' : Table κ α) : Prop :=
  ∀ k, ∀ v ∈ t'.vals k, v ∈ t.vals k ∨ P k v

variable {P : κ → α → Prop} {t'' : Table κ α}

omit [DecidableEq κ] in
theorem gains_refl (t : Table κ α) : Gains P t t := fun _ _ => .inl

omit [DecidableEq κ] in
theorem Gains.trans (h : Gains P t t') (h' : Gains P t' t'') : Gains P t t'' := fun k v hv =>
  (h' k v hv).elim (h k v) .inr

theorem gains_set {vs : List α} (h : ∀ w ∈ vs, w ∈ t.vals k ∨ P k w) : Gains P t (t.set k vs) := by
  intro k' w hw
  by_cases hk : k' = k
  · subst hk
    rw [set_vals_self] at hw
    exact h w hw
  · rw [set_vals_of_ne t vs hk] at hw
    exact .inl hw

theorem gains_put (h : t.put k v = some t') (hP : P k v) : Gains P t t' := by
  rw [put] at h
  split_ifs at h <;> obtain rfl := Option.some.inj h <;> refine gains_set fun w hw => ?_
  · rw [List.mem_orderedInsert] at hw
    exact hw.elim (fun hw => .inr (hw ▸ hP)) .inl
  · exact .inr (List.mem_singleton.mp hw ▸ hP)

theorem gains_append (h : t.append k v = some t') (hP : P k v) : Gains P t t' := by
  have hone : Gains P t (t.set k [v]) :=
    gains_set fun w hw => .inr (List.mem_singleton.mp hw ▸ hP)
  rw [append] at h
  split_ifs at h
  · split at h
    · obtain rfl := Option.some.inj h
      exact hone
    · split_ifs at h
      obtain rfl := Option.some.inj h
      refine gains_set fun w hw => ?_
      rw [List.mem_append, List.mem_singleton] at hw
      exact hw.elim .inl fun hw => .inr (hw ▸ hP)
  · obtain rfl := Option.some.inj h
    exact hone

/-! ### Sorted duplicates -/

theorem put_eq_none (hd : t.dupsort = true) (hmem : w ∈ t.vals k) (hcmp : t.dcmp v w = 0) :
    t.put k v = none := by
  rw [put, if_pos hd, if_pos]
  rw [List.any_eq_true]
  exact ⟨w, hmem, by rw [hcmp]; rfl⟩

theorem put_fresh (hd : t.dupsort = true) (h : ∀ w ∈ t.vals k, t.dcmp v w ≠ 0) :
    t.put k v = some (t.set k ((t.vals k).orderedInsert (fun a b => t.dcmp a b < 0) v)) := by
  rw [put, if_pos hd, if_neg]
  rw [List.any_eq_true]
  rintro ⟨w, hw, hcmp⟩
  exact h w hw (beq_iff_eq.mp hcmp)

/-- A `put` on sorted duplicates adds the pair and nothing else. -/
theorem mem_vals_put (hd : t.dupsort = true) (h : t.put k v = some t') :
    w ∈ t'.vals k' ↔ (k' = k ∧ w = v) ∨ w ∈ t.vals k' := by
  rw [put, if_pos hd] at h
  split_ifs at h
  obtain rfl := Option.some.inj h
  by_cases hk : k' = k
  · subst hk
    rw [set_vals_self, List.mem_orderedInsert]
    simp
  · rw [set_vals_of_ne _ _ hk]
    simp [hk]

/-- An append after smaller values succeeds. -/
theorem append_last (hd : t.dupsort = true) (h : ∀ w ∈ t.vals k, 0 < t.dcmp v w) :
    t.append k v = some (t.set k (t.vals k ++ [v])) := by
  rw [append, if_pos hd]
  cases hl : (t.vals k).getLast? with
  | none =>
    rw [List.getLast?_eq_none_iff] at hl
    simp [hl]
  | some w =>
    have := h w (List.mem_of_getLast? hl)
    simp only
    rw [if_neg (by omega)]

theorem append_dcmp (h : t.append k v = some t') : t'.dcmp = t.dcmp := by
  rw [append] at h
  split_ifs at h
  · split at h
    · obtain rfl := Option.some.inj h
      rfl
    · split_ifs at h
      obtain rfl := Option.some.inj h
      rfl
  · obtain rfl := Option.some.inj h
    rfl

/-- The comparator orders the values. -/
structure Orders (cmp : α → α → ℤ) : Prop where
  irrefl : ∀ a, ¬ cmp a a < 0
  trans : ∀ {a b c}, cmp a b < 0 → cmp b c < 0 → cmp a c < 0
  total : ∀ {a b}, cmp a b ≠ 0 → cmp a b < 0 ∨ cmp b a < 0

/-- The values under every key are in the order of the comparator. -/
def Sorted (t : Table κ α) : Prop := ∀ k, (t.vals k).Pairwise fun a b => t.dcmp a b < 0

theorem pairwise_orderedInsert {cmp : α → α → ℤ} (h : Orders cmp) {l : List α}
    (hl : l.Pairwise fun a b => cmp a b < 0) (hv : ∀ w ∈ l, cmp v w ≠ 0) :
    (l.orderedInsert (fun a b => cmp a b < 0) v).Pairwise fun a b => cmp a b < 0 := by
  induction l with
  | nil => exact List.pairwise_singleton _ _
  | cons w l ih =>
    rw [List.pairwise_cons] at hl
    rw [List.forall_mem_cons] at hv
    rw [List.orderedInsert_cons]
    split_ifs with hlt
    · refine List.pairwise_cons.mpr ⟨fun x hx => ?_, List.pairwise_cons.mpr hl⟩
      obtain rfl | hx := List.mem_cons.mp hx
      · exact hlt
      · exact h.trans hlt (hl.1 x hx)
    · refine List.pairwise_cons.mpr ⟨fun x hx => ?_, ih hl.2 hv.2⟩
      obtain rfl | hx := (List.mem_orderedInsert _).mp hx
      · exact (h.total hv.1).resolve_left hlt
      · exact hl.1 x hx

/-- A `put` on sorted duplicates keeps the order. -/
theorem put_sorted (hd : t.dupsort = true) (h : Orders t.dcmp) (hs : t.Sorted)
    (hput : t.put k v = some t') : t'.Sorted := by
  rw [put, if_pos hd] at hput
  split_ifs at hput with hany
  obtain rfl := Option.some.inj hput
  intro k'
  by_cases hk : k' = k
  · subst hk
    rw [set_vals_self]
    refine pairwise_orderedInsert h (hs k') fun w hw hcmp => hany ?_
    exact List.any_eq_true.mpr ⟨w, hw, beq_iff_eq.mpr hcmp⟩
  · rw [set_vals_of_ne _ _ hk]
    exact hs k'

/-- Values in order are determined by which they are. -/
theorem eq_of_sorted {cmp : α → α → ℤ} (h : Orders cmp) {l l' : List α}
    (hl : l.Pairwise fun a b => cmp a b < 0) (hl' : l'.Pairwise fun a b => cmp a b < 0)
    (hmem : ∀ v, v ∈ l ↔ v ∈ l') : l = l' :=
  have : Std.Irrefl fun a b => cmp a b < 0 := ⟨h.irrefl⟩
  have : Std.Asymm fun a b => cmp a b < 0 := ⟨fun _ _ h₁ h₂ => h.irrefl _ (h.trans h₁ h₂)⟩
  hl.eq_of_mem_iff hl' hmem

/-! ### Plain tables -/

theorem put_plain (hd : t.dupsort = false) (k : κ) (v : α) : t.put k v = some (t.set k [v]) := by
  simp [put, hd]

theorem append_plain (hd : t.dupsort = false) (k : κ) (v : α) :
    t.append k v = some (t.set k [v]) := by
  simp [append, hd]

/-- A table into which pairs have been put, one after another, each replacing the last. -/
def setAll (t : Table κ α) (l : List (κ × α)) : Table κ α :=
  l.foldl (fun t p => t.set p.1 [p.2]) t

@[simp] theorem setAll_nil (t : Table κ α) : t.setAll [] = t := rfl

@[simp] theorem setAll_cons (t : Table κ α) (p : κ × α) (l : List (κ × α)) :
    t.setAll (p :: l) = (t.set p.1 [p.2]).setAll l := rfl

theorem setAll_append (t : Table κ α) (l l' : List (κ × α)) :
    t.setAll (l ++ l') = (t.setAll l).setAll l' := by
  simp [setAll]

@[simp] theorem setAll_dupsort (t : Table κ α) (l : List (κ × α)) :
    (t.setAll l).dupsort = t.dupsort := by
  induction l generalizing t with
  | nil => rfl
  | cons p l ih => rw [setAll_cons, ih, set_dupsort]

@[simp] theorem setAll_dcmp (t : Table κ α) (l : List (κ × α)) :
    (t.setAll l).dcmp = t.dcmp := by
  induction l generalizing t with
  | nil => rfl
  | cons p l ih => rw [setAll_cons, ih, set_dcmp]

/-- The last value put under a key, or what was there before. -/
theorem setAll_vals (t : Table κ α) (l : List (κ × α)) (k : κ) :
    (t.setAll l).vals k = match (l.filter fun p => p.1 = k).getLast? with
      | none => t.vals k
      | some p => [p.2] := by
  induction l using List.reverseRecOn with
  | nil => rfl
  | append_singleton l p ih =>
    rw [setAll_append, setAll_cons, setAll_nil, List.filter_append]
    by_cases hk : p.1 = k
    · subst hk
      simp
    · rw [set_vals_of_ne _ _ (Ne.symm hk), ih]
      simp [hk]

/-- Putting the same pairs once more changes nothing. -/
theorem setAll_setAll (t : Table κ α) (l : List (κ × α)) : (t.setAll l).setAll l = t.setAll l := by
  refine Table.ext (setAll_dupsort _ l) (setAll_dcmp _ l) ?_
  funext k
  rw [setAll_vals (t.setAll l), setAll_vals t]
  cases (l.filter fun p => p.1 = k).getLast? <;> rfl

/-- **The last value wins**: an empty plain table keeps exactly the pairs put into it if and only
if no key was given two values. -/
theorem setAll_mem_iff {t : Table κ α} (ht : ∀ k, t.vals k = []) (l : List (κ × α)) :
    (∀ k v, v ∈ (t.setAll l).vals k ↔ (k, v) ∈ l) ↔
      ∀ p ∈ l, ∀ q ∈ l, p.1 = q.1 → p.2 = q.2 := by
  have hvals : ∀ k, (∃ p, p ∈ l ∧ p.1 = k ∧ (t.setAll l).vals k = [p.2]) ∨
      ((∀ p ∈ l, p.1 ≠ k) ∧ (t.setAll l).vals k = []) := by
    intro k
    rw [setAll_vals]
    cases hl : (l.filter fun p => p.1 = k).getLast? with
    | none =>
      rw [List.getLast?_eq_none_iff, List.filter_eq_nil_iff] at hl
      exact .inr ⟨by simpa using hl, ht k⟩
    | some p =>
      have hp := List.mem_filter.mp (List.mem_of_getLast? hl)
      exact .inl ⟨p, hp.1, by simpa using hp.2, rfl⟩
  constructor
  · intro h p hp q hq hpq
    obtain ⟨r, -, -, hr⟩ | ⟨hno, -⟩ := hvals p.1
    · have h₁ := (h p.1 p.2).mpr hp
      have h₂ := (h p.1 q.2).mpr (hpq ▸ hq)
      rw [hr, List.mem_singleton] at h₁ h₂
      rw [h₁, h₂]
    · exact absurd rfl (hno p hp)
  · intro h k v
    obtain ⟨p, hp, hpk, hr⟩ | ⟨hno, hr⟩ := hvals k
    · rw [hr, List.mem_singleton]
      constructor
      · rintro rfl
        exact hpk ▸ hp
      · exact fun hv => h _ hv _ hp hpk.symm
    · rw [hr]
      constructor
      · exact fun hv => absurd hv List.not_mem_nil
      · exact fun hv => absurd rfl (hno _ hv)

/-- If no key is given two values, it only matters which pairs are put. -/
theorem setAll_congr {l l' : List (κ × α)} (hmem : ∀ p, p ∈ l ↔ p ∈ l')
    (hf : ∀ p ∈ l, ∀ q ∈ l, p.1 = q.1 → p.2 = q.2) (t : Table κ α) :
    t.setAll l = t.setAll l' := by
  refine Table.ext (by rw [setAll_dupsort, setAll_dupsort]) (by rw [setAll_dcmp, setAll_dcmp]) ?_
  funext k
  rw [setAll_vals, setAll_vals]
  cases hl : (l.filter fun p => p.1 = k).getLast? with
  | none =>
    have hl' : (l'.filter fun p => p.1 = k).getLast? = none := by
      rw [List.getLast?_eq_none_iff, List.filter_eq_nil_iff] at hl ⊢
      exact fun p hp => hl p ((hmem p).mpr hp)
    rw [hl']
  | some p =>
    have hp := List.mem_filter.mp (List.mem_of_getLast? hl)
    cases hl' : (l'.filter fun p => p.1 = k).getLast? with
    | none =>
      rw [List.getLast?_eq_none_iff, List.filter_eq_nil_iff] at hl'
      exact absurd hp.2 (hl' p ((hmem p).mp hp.1))
    | some q =>
      have hq := List.mem_filter.mp (List.mem_of_getLast? hl')
      have hkey : p.1 = q.1 := (of_decide_eq_true hp.2).trans (of_decide_eq_true hq.2).symm
      simp only [hf p hp.1 q ((hmem q).mpr hq.1) hkey]

/-- Of pairs with one key the last is left. -/
theorem setAll_of_key {l : List (κ × α)} (h : ∀ p ∈ l, p.1 = k) (t : Table κ α) :
    t.setAll l = t.setAll l.getLast?.toList := by
  induction l using List.reverseRecOn with
  | nil => rfl
  | append_singleton l p ih =>
    have hl : ∀ q ∈ l, q.1 = k := fun q hq => h q (List.mem_append_left _ hq)
    have hp : p.1 = k := h p (by simp)
    rw [List.getLast?_concat, setAll_append, Option.toList_some]
    refine Table.ext (by simp) (by simp) ?_
    funext k'
    by_cases hk : k' = p.1
    · subst hk
      simp
    · have hnone : (l.filter fun q => q.1 = k').getLast? = none := by
        rw [List.getLast?_eq_none_iff, List.filter_eq_nil_iff]
        intro q hq
        simpa [hl q hq, ← hp] using Ne.symm hk
      simp only [setAll_cons, setAll_nil, set_vals_of_ne _ _ hk]
      rw [setAll_vals, hnone]

/-- Put in groups, each of which may be put in another way. -/
theorem setAll_flatMap {β : Type} {f g : β → List (κ × α)}
    (h : ∀ b (t : Table κ α), t.setAll (f b) = t.setAll (g b)) (l : List β) (t : Table κ α) :
    t.setAll (l.flatMap f) = t.setAll (l.flatMap g) := by
  induction l generalizing t with
  | nil => rfl
  | cons b l ih => rw [List.flatMap_cons, List.flatMap_cons, setAll_append, setAll_append, h, ih]

end Table

end Foundations
