import ElectrumZ.Foundations.Dialog

/-!
# Dialogues that keep a discipline

A discipline follows a dialogue with a state of its own, a ghost: which questions may be put in it,
and what an answer makes of it. It may hold a lock, or the number of questions that are still
allowed. Only some answers are considered.

* `Obeys D Post d g`: from the ghost `g` on the dialogue puts only questions that are allowed, and
  ends with `Post`, whatever the answers considered are.
* `Obeys.bind` and `obeys_query_bind`: the rules of composition.
* `Answered P h d s`: a run against the handler `h` gets all its answers, and they are as `P` says.
* `Obeys.run`: a run whose answers are considered ends with `Post`.
-/

namespace Foundations

/-- What questions may be put, which may depend on the answers there have been. -/
structure Discipline (Q : Type) (A : Q → Type) (γ : Type) where
  /-- The question may be put. -/
  allows : γ → Q → Prop
  /-- The answer is considered. -/
  considers : (q : Q) → A q → Prop
  /-- What the answer makes of the ghost. -/
  next : γ → (q : Q) → A q → γ

namespace Dialog

variable {Q : Type} {A : Q → Type} {E R S γ σ : Type} (D : Discipline Q A γ)

/-- The dialogue keeps the discipline from `g` on, and ends with `Post`. -/
def Obeys (Post : Except E R → γ → Prop) : Dialog Q A E R → γ → Prop
  | done r, g => Post (.ok r) g
  | fail e, g => Post (.error e) g
  | ask q k, g => D.allows g q ∧ ∀ a, D.considers q a → Obeys Post (k a) (D.next g q a)

variable {D} {Post : Except E R → γ → Prop} {Post' : Except E S → γ → Prop} {d : Dialog Q A E R}
  {g : γ}

theorem Obeys.mono {Post₁ : Except E R → γ → Prop} (h : d.Obeys D Post g)
    (hPost : ∀ r g, Post r g → Post₁ r g) : d.Obeys D Post₁ g := by
  induction d generalizing g with
  | done r => exact hPost _ g h
  | fail e => exact hPost _ g h
  | ask q k ih => exact ⟨h.1, fun a ha => ih a (h.2 a ha)⟩

/-- Where the first dialogue ends the second begins. -/
theorem Obeys.bind {f : R → Dialog Q A E S} (h : d.Obeys D Post g)
    (hok : ∀ r g, Post (.ok r) g → (f r).Obeys D Post' g)
    (herror : ∀ e g, Post (.error e) g → Post' (.error e) g) : (d >>= f).Obeys D Post' g := by
  change (d.bind f).Obeys D Post' g
  induction d generalizing g with
  | done r => exact hok r g h
  | fail e => exact herror e g h
  | ask q k ih => exact ⟨h.1, fun a ha => ih a (h.2 a ha)⟩

/-- A question, and what follows its answer. -/
theorem obeys_query_bind {q : Q} {f : A q → Dialog Q A E S} (hq : D.allows g q)
    (hf : ∀ a, D.considers q a → (f a).Obeys D Post' (D.next g q a)) :
    (query q >>= f).Obeys D Post' g :=
  ⟨hq, hf⟩

/-! ## Runs -/

/-- Every question of the run is answered, and as `P` says. -/
def Answered (P : (q : Q) → A q → Prop) (h : Handler Q A E σ) : Dialog Q A E R → σ → Prop
  | done _, _ => True
  | fail _, _ => True
  | ask q k, s =>
    match h q s with
    | (.ok a, s') => P q a ∧ Answered P h (k a) s'
    | (.error _, _) => False

instance decidableAnswered {P : (q : Q) → A q → Prop} [∀ q a, Decidable (P q a)]
    (h : Handler Q A E σ) : (d : Dialog Q A E R) → (s : σ) → Decidable (d.Answered P h s)
  | done _, _ => .isTrue trivial
  | fail _, _ => .isTrue trivial
  | ask q k, s =>
    match hq : h q s with
    | (.ok a, s') =>
      have : Decidable ((k a).Answered P h s') := decidableAnswered h (k a) s'
      decidable_of_iff (P q a ∧ (k a).Answered P h s') (by rw [Answered, hq])
    | (.error _, _) => .isFalse (by rw [Answered, hq]; exact id)

/-- **A run whose answers are considered** ends as the discipline says. -/
theorem Obeys.run {h : Handler Q A E σ} {s : σ} (hd : d.Obeys D Post g)
    (hs : d.Answered D.considers h s) : ∃ g', Post (d.run h s).1 g' := by
  induction d generalizing g s with
  | done r => exact ⟨g, hd⟩
  | fail e => exact ⟨g, hd⟩
  | ask q k ih =>
    rw [Answered] at hs
    rw [run_ask]
    rcases hq : h q s with ⟨e | a, s'⟩ <;> rw [hq] at hs
    · exact hs.elim
    · exact ih a (hd.2 a hs.1) hs.2

end Dialog

end Foundations
