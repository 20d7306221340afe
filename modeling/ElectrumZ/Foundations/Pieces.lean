import Mathlib.Data.List.Basic
import Mathlib.Data.List.Chain
import Mathlib.Data.List.Infix
import Mathlib.Tactic.Cases

/-!
# Pieces of a tagged stream

Some elements of a stream carry a tag, and `pieces` are the maximal runs of elements that do. Where
the stream is `Coherent`, that is, where only an element without a tag stands between two tags that
differ, each piece has one tag.

* `flatten_pieces`: the pieces together are the tagged elements.
* `exists_append_of_flatten`: a list of pieces is cut where the tag changes.
* `eq_singleton_of_infix`: what stands in one piece is that piece alone.
-/

namespace Foundations

variable {α ι : Type} (tag : α → Option ι)

/-- The maximal runs of tagged elements. -/
def pieces (l : List α) : List (List α) :=
  (l.splitOnP fun a => (tag a).isNone).filter fun g => !g.isEmpty

/-- Two tags that follow each other agree. -/
def Coherent (l : List α) : Prop :=
  l.IsChain fun a b => ∀ i j, tag a = some i → tag b = some j → i = j

/-- A coherent stream that does not begin with a tag. -/
structure Apart (l : List α) : Prop where
  coherent : Coherent tag l
  head : ∀ a ∈ l.head?, tag a = none

/-- A list that is not empty, with one tag. -/
def IsPiece (g : List α) : Prop := g ≠ [] ∧ ∃ i, ∀ a ∈ g, tag a = some i

variable {tag} {l t g x y : List α} {gs : List (List α)} {a : α} {i : ι}

/-! ## The pieces of a list -/

theorem pieces_of_tagged (h : ∀ a ∈ l, tag a ≠ none) (hl : l ≠ []) : pieces tag l = [l] := by
  have hsome : ∀ a ∈ l, (tag a).isNone = false := fun a ha =>
    Option.isNone_eq_false_iff.mpr (Option.isSome_iff_ne_none.mpr (h a ha))
  rw [pieces, List.splitOnP_eq_singleton hsome]
  simp [hl]

@[simp] theorem pieces_nil : pieces tag ([] : List α) = [] := rfl

/-- An element without a tag separates the pieces. -/
theorem pieces_append_cons (x y : List α) (ha : tag a = none) :
    pieces tag (x ++ a :: y) = pieces tag x ++ pieces tag y := by
  rw [pieces, List.splitOnP_append_cons _ _ (by simp [ha]), List.filter_append]
  rfl

/-- Induction over the elements without a tag. -/
theorem pieces_induction {P : List α → Prop} (tag : α → Option ι)
    (tagged : ∀ l, (∀ a ∈ l, tag a ≠ none) → P l)
    (append : ∀ x a y, (∀ b ∈ x, tag b ≠ none) → tag a = none → P y → P (x ++ a :: y))
    (l : List α) : P l := by
  suffices h : ∀ x, (∀ b ∈ x, tag b ≠ none) → P (x ++ l) from h [] (by simp)
  induction l with
  | nil =>
    intro x hx
    rw [List.append_nil]
    exact tagged x hx
  | cons a y ih =>
    intro x hx
    cases ha : tag a with
    | none => exact append x a y hx ha (ih [] (by simp))
    | some i =>
      rw [List.append_cons]
      refine ih (x ++ [a]) fun b hb => ?_
      obtain hb | hb := List.mem_append.mp hb
      · exact hx b hb
      · rw [List.mem_singleton.mp hb, ha]
        exact nofun

/-- **The pieces together** are the tagged elements. -/
theorem flatten_pieces (l : List α) :
    (pieces tag l).flatten = l.filter fun a => (tag a).isSome := by
  have hfilter (l : List α) (h : ∀ a ∈ l, tag a ≠ none) :
      (pieces tag l).flatten = l.filter fun a => (tag a).isSome := by
    rw [List.filter_eq_self.mpr fun a ha => Option.isSome_iff_ne_none.mpr (h a ha)]
    by_cases hl : l = []
    · rw [hl]
      rfl
    · rw [pieces_of_tagged h hl, List.flatten_singleton]
  induction l using pieces_induction tag with
  | tagged l h => exact hfilter l h
  | append x a y hx ha ih =>
    rw [pieces_append_cons x y ha, List.flatten_append, hfilter x hx, ih, List.filter_append,
      List.filter_cons_of_neg (by simp [ha])]

/-- The pieces of a list in parts. -/
theorem flatten_flatMap_pieces (ls : List (List α)) :
    (ls.flatMap (pieces tag)).flatten = ls.flatten.filter fun a => (tag a).isSome := by
  induction ls with
  | nil => rfl
  | cons l ls ih =>
    rw [List.flatMap_cons, List.flatten_append, flatten_pieces, ih, List.flatten_cons,
      List.filter_append]

/-- What stands around an element that it does not have stands on one side of it. -/
theorem infix_append_cons (h : t <:+: x ++ a :: y) (ha : a ∉ t) : t <:+: x ∨ t <:+: y := by
  obtain ⟨p, q, hpq⟩ := h
  rw [List.append_assoc] at hpq
  obtain ⟨z, rfl, hz⟩ | ⟨z, rfl, hz⟩ := List.append_eq_append_iff.mp hpq
  · obtain ⟨w, rfl, -⟩ | ⟨w, rfl, hw⟩ := List.append_eq_append_iff.mp hz
    · exact .inl ⟨p, w, List.append_assoc _ _ _⟩
    · cases w with
      | nil => exact .inl ⟨p, [], by simp⟩
      | cons b w =>
        obtain ⟨rfl, -⟩ := List.cons.inj hw
        exact absurd (by simp) ha
  · cases z with
    | nil =>
      cases t with
      | nil => exact .inl List.nil_infix
      | cons b t =>
        obtain ⟨rfl, -⟩ := List.cons.inj hz
        exact absurd List.mem_cons_self ha
    | cons b z =>
      obtain ⟨-, rfl⟩ := List.cons.inj hz
      exact .inr ⟨z, q, List.append_assoc _ _ _⟩

/-- What is tagged and stands in a list stands in one of its pieces. -/
theorem exists_mem_pieces (ht : ∀ a ∈ t, tag a ≠ none) (hne : t ≠ []) (h : t <:+: l) :
    ∃ g ∈ pieces tag l, t <:+: g := by
  have hself (l : List α) (hl : ∀ a ∈ l, tag a ≠ none) (h : t <:+: l) :
      ∃ g ∈ pieces tag l, t <:+: g := by
    have hne' : l ≠ [] := fun hl => hne (List.infix_nil.mp (hl ▸ h))
    rw [pieces_of_tagged hl hne']
    exact ⟨l, List.mem_singleton.mpr rfl, h⟩
  induction l using pieces_induction tag with
  | tagged l hl => exact hself l hl h
  | append x a y hx ha ih =>
    rw [pieces_append_cons x y ha]
    obtain h | h := infix_append_cons h fun hmem => ht a hmem ha
    · obtain ⟨g, hg, hin⟩ := hself x hx h
      exact ⟨g, List.mem_append_left _ hg, hin⟩
    · obtain ⟨g, hg, hin⟩ := ih h
      exact ⟨g, List.mem_append_right _ hg, hin⟩

theorem infix_of_mem_pieces (hg : g ∈ pieces tag l) : g <:+: l := by
  have hself (l : List α) (hl : ∀ a ∈ l, tag a ≠ none) (hg : g ∈ pieces tag l) : g = l := by
    by_cases hne : l = []
    · rw [hne] at hg
      exact nomatch hg
    · rw [pieces_of_tagged hl hne] at hg
      exact List.mem_singleton.mp hg
  induction l using pieces_induction tag with
  | tagged l hl => exact hself l hl hg ▸ List.infix_rfl
  | append x a y hx ha ih =>
    rw [pieces_append_cons x y ha] at hg
    obtain hg | hg := List.mem_append.mp hg
    · rw [hself x hx hg]
      exact (List.prefix_append x _).isInfix
    · exact (ih hg).trans ((List.suffix_cons a y).trans (List.suffix_append x _)).isInfix

/-! ## Coherent streams -/

theorem coherent_of_tag {o : Option ι} (h : ∀ a ∈ l, tag a = o) : Coherent tag l := by
  induction l with
  | nil => exact List.isChain_nil
  | cons a l ih =>
    obtain ⟨ha, hl⟩ := List.forall_mem_cons.mp h
    refine List.isChain_cons.mpr ⟨fun b hb i j hi hj => ?_, ih hl⟩
    have hbl := hl b (List.mem_of_mem_head? hb)
    exact Option.some.inj (hi.symm.trans (ha.trans (hbl.symm.trans hj)))

theorem Coherent.part (hl : Coherent tag l) (h : x <:+: l) : Coherent tag x := by
  obtain ⟨p, q, rfl⟩ := h
  exact (List.IsChain.left_of_append hl).right_of_append

theorem Coherent.append (hx : Coherent tag x) (hy : Apart tag y) : Coherent tag (x ++ y) :=
  List.IsChain.append hx hy.coherent fun _ _ b hb _ _ _ hj => nomatch (hy.head b hb).symm.trans hj

theorem Apart.append (hx : Apart tag x) (hy : Apart tag y) : Apart tag (x ++ y) := by
  refine ⟨hx.coherent.append hy, ?_⟩
  cases x with
  | nil => exact hy.head
  | cons a x => exact hx.head

theorem apart_of_untagged (h : ∀ a ∈ l, tag a = none) : Apart tag l :=
  ⟨coherent_of_tag h, fun a ha => h a (List.mem_of_mem_head? ha)⟩

/-- What is tagged may follow what is not, if that is not empty. -/
theorem apart_append (hx : ∀ a ∈ x, tag a = none) (hne : x ≠ []) (hy : Coherent tag y) :
    Apart tag (x ++ y) := by
  constructor
  · refine List.IsChain.append (coherent_of_tag hx) hy fun a ha b _ i _ hi _ => ?_
    exact nomatch (hx a (List.mem_of_mem_getLast? ha)).symm.trans hi
  · cases x with
    | nil => exact absurd rfl hne
    | cons a x => exact fun b hb => hx b (List.mem_of_mem_head? (l := a :: x) hb)

theorem apart_flatMap {β : Type} {f : β → List α} {bs : List β} (h : ∀ b ∈ bs, Apart tag (f b)) :
    Apart tag (bs.flatMap f) := by
  induction bs with
  | nil => exact ⟨List.isChain_nil, nofun⟩
  | cons b bs ih =>
    obtain ⟨hb, hbs⟩ := List.forall_mem_cons.mp h
    exact hb.append (ih hbs)

/-- A tagged list without a change of the tag has one tag. -/
theorem Coherent.exists_tag (hg : Coherent tag (a :: g)) (htag : ∀ b ∈ a :: g, tag b ≠ none) :
    ∃ i, ∀ b ∈ a :: g, tag b = some i := by
  induction g generalizing a with
  | nil =>
    obtain ⟨i, hi⟩ := Option.ne_none_iff_exists'.mp (htag a List.mem_cons_self)
    exact ⟨i, fun b hb => List.mem_singleton.mp hb ▸ hi⟩
  | cons b g ih =>
    obtain ⟨hhead, htail⟩ := List.isChain_cons_cons.mp hg
    obtain ⟨i, hi⟩ := ih htail fun c hc => htag c (List.mem_cons_of_mem a hc)
    obtain ⟨j, hj⟩ := Option.ne_none_iff_exists'.mp (htag a List.mem_cons_self)
    obtain rfl := hhead j i hj (hi b List.mem_cons_self)
    exact ⟨j, List.forall_mem_cons.mpr ⟨hj, hi⟩⟩

/-- The pieces of a coherent stream have one tag each. -/
theorem isPiece_of_mem (hl : Coherent tag l) (hg : g ∈ pieces tag l) : IsPiece tag g := by
  have htag : ∀ a ∈ g, tag a ≠ none := fun a ha => by
    have hmem : a ∈ (pieces tag l).flatten := List.mem_flatten.mpr ⟨g, hg, ha⟩
    rw [flatten_pieces] at hmem
    exact Option.isSome_iff_ne_none.mp (List.mem_filter.mp hmem).2
  cases g with
  | nil => exact absurd hg (by simp [pieces])
  | cons a g =>
    refine ⟨List.cons_ne_nil a g, Coherent.exists_tag ?_ htag⟩
    exact hl.part (infix_of_mem_pieces hg)

/-- **Pieces are cut where the tag changes.** -/
theorem exists_append_of_flatten (hgs : ∀ g ∈ gs, IsPiece tag g) (h : gs.flatten = x ++ y)
    (hx : ∀ a ∈ x, tag a = some i) (hy : ∀ a ∈ y, tag a ≠ some i) :
    ∃ gs₁ gs₂, gs = gs₁ ++ gs₂ ∧ gs₁.flatten = x ∧ gs₂.flatten = y := by
  induction gs generalizing x with
  | nil =>
    obtain ⟨rfl, rfl⟩ := List.append_eq_nil_iff.mp h.symm
    exact ⟨[], [], rfl, rfl, rfl⟩
  | cons g gs ih =>
    obtain ⟨⟨hne, j, hj⟩, hgs⟩ := List.forall_mem_cons.mp hgs
    rw [List.flatten_cons] at h
    cases x with
    | nil => exact ⟨[], g :: gs, rfl, rfl, h⟩
    | cons b x =>
      obtain ⟨z, hz, hrest⟩ | ⟨z, hz, hrest⟩ := List.append_eq_append_iff.mp h
      · -- The piece ends before `x` does.
        obtain ⟨gs₁, gs₂, rfl, hx₁, hy₂⟩ :=
          ih hgs hrest fun a ha => hx a (hz ▸ List.mem_append_right g ha)
        exact ⟨g :: gs₁, gs₂, rfl, by rw [List.flatten_cons, hx₁, hz], hy₂⟩
      · -- The piece reaches beyond `x`, which its tag allows only if nothing is left there.
        obtain rfl : j = i := by
          have hb : b ∈ g := hz ▸ List.mem_append_left z List.mem_cons_self
          exact Option.some.inj ((hj b hb).symm.trans (hx b List.mem_cons_self))
        cases z with
        | nil => exact ⟨[g], gs, rfl, by simpa using hz, hrest.symm⟩
        | cons c z =>
          have hc : tag c = some j := hj c (hz ▸ List.mem_append_right _ List.mem_cons_self)
          exact absurd hc (hy c (hrest ▸ List.mem_cons_self))

/-- Pieces without an element are none. -/
theorem eq_nil_of_flatten (hgs : ∀ g ∈ gs, IsPiece tag g) (h : gs.flatten = []) : gs = [] := by
  cases gs with
  | nil => rfl
  | cons g gs =>
    have hempty : g = [] := List.flatten_eq_nil_iff.mp h g List.mem_cons_self
    exact absurd hempty (hgs g List.mem_cons_self).1

/-- **What stands in one piece** is that piece alone. -/
theorem eq_singleton_of_infix {gs₁ gs₂ : List (List α)}
    (hgs : ∀ g ∈ gs₁ ++ gs₂, IsPiece tag g) (hx : ∀ a ∈ gs₁.flatten, tag a = some i)
    (hy : ∀ a ∈ gs₂.flatten, tag a ≠ some i) (hne : gs₁.flatten ≠ []) (hg : g ∈ gs₁ ++ gs₂)
    (h : gs₁.flatten <:+: g) : gs₁ = [gs₁.flatten] := by
  have hmem : g ∈ gs₁ := by
    obtain hg₁ | hg₂ := List.mem_append.mp hg
    · exact hg₁
    · -- An element of the first pieces would stand among the others.
      obtain ⟨a, ha⟩ := List.exists_mem_of_ne_nil _ hne
      exact absurd (hx a ha) (hy a (List.mem_flatten.mpr ⟨g, hg₂, h.subset ha⟩))
  obtain ⟨p, q, rfl⟩ := List.append_of_mem hmem
  have hpieces : ∀ g' ∈ p ++ g :: q, IsPiece tag g' := fun g' hg' =>
    hgs g' (List.mem_append_left gs₂ hg')
  have hlen := h.length_le
  rw [List.flatten_append, List.flatten_cons, List.length_append, List.length_append] at hlen
  have hp : p = [] := by
    refine eq_nil_of_flatten (fun g' hg' => hpieces g' (List.mem_append_left _ hg')) ?_
    exact List.length_eq_zero_iff.mp (by omega)
  have hq : q = [] := by
    refine eq_nil_of_flatten (fun g' hg' => hpieces g' ?_) ?_
    · exact List.mem_append_right p (List.mem_cons_of_mem g hg')
    · exact List.length_eq_zero_iff.mp (by omega)
  rw [hp, hq]
  simp

end Foundations
