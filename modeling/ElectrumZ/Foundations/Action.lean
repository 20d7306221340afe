import ElectrumZ.Foundations.Dialog
import Mathlib.Control.Monad.Basic
import Mathlib.Tactic.SplitIfs

/-!
# Actions on a state that may fail

`Action E σ R` is a computation on a state of type `σ` that ends with a result or with a failure
in `E`; the state survives a failure. A run of a `Dialog` against a handler is one.

* `bind_of_ok` and `bind_of_error` run a sequence one action at a time.
* `Action.Keeps I x` says that `x` preserves `I` however it ends, `Action.Maintains I Err x` that it
  does unless it fails, and then as `Err` says, `Action.Avoids e x` that it does not fail with `e`,
  and `Action.Respects Rel x` that it ends alike in related states; they compose along `bind`.
-/

namespace Foundations

/-- A computation on a state, which may fail. -/
abbrev Action (E σ R : Type) := ExceptT E (StateM σ) R

namespace Action

variable {E σ τ R S : Type}

/-- Change the state. -/
def update (f : σ → σ) : Action E σ Unit := fun s => (.ok (), f s)

/-- Read off the state. -/
def look (f : σ → R) : Action E σ R := fun s => (.ok (f s), s)

/-- Fail, with the state as it is. -/
def fail (e : E) : Action E σ R := fun s => (.error e, s)

/-- Run an action on a component of the state. -/
def zoom (get : τ → σ) (set : σ → τ → τ) (x : Action E σ R) : Action E τ R := fun t =>
  ((x (get t)).1, set (x (get t)).2 t)

@[simp] theorem run_update (f : σ → σ) (s : σ) :
    (update f : Action E σ Unit) s = (.ok (), f s) := rfl

@[simp] theorem run_look (f : σ → R) (s : σ) : (look f : Action E σ R) s = (.ok (f s), s) := rfl

@[simp] theorem run_pure (r : R) (s : σ) : (pure r : Action E σ R) s = (.ok r, s) := rfl

theorem bind_eq (x : Action E σ R) (f : R → Action E σ S) (s : σ) :
    (x >>= f) s = match x s with
      | (.ok r, s') => f r s'
      | (.error e, s') => (.error e, s') := by
  change (match x s with
    | (r, s') => ExceptT.bindCont f r s') = _
  rcases x s with ⟨_ | _, _⟩ <;> rfl

variable {x : Action E σ R} {f : R → Action E σ S} {s s' : σ} {r : R}

theorem bind_of_ok (h : x s = (.ok r, s')) : (x >>= f) s = f r s' := by
  rw [bind_eq, h]

theorem bind_of_error {e : E} (h : x s = (.error e, s')) : (x >>= f) s = (.error e, s') := by
  rw [bind_eq, h]

/-- Dropping the result does not change the state. -/
theorem snd_bind_pure (x : Action E σ R) (y : S) (s : σ) :
    ((x >>= fun _ => pure y) s).2 = (x s).2 := by
  rw [bind_eq]
  rcases x s with ⟨_ | _, _⟩ <;> rfl

/-! ## Invariants -/

/-- `x` preserves `I`, whether it fails or not. -/
def Keeps (I : σ → Prop) (x : Action E σ R) : Prop := ∀ s, I s → I (x s).2

variable {I : σ → Prop}

theorem keeps_pure (r : R) : Keeps I (pure r : Action E σ R) := fun _ h => h

theorem keeps_fail (e : E) : Keeps I (fail e : Action E σ R) := fun _ h => h

theorem keeps_look (f : σ → R) : Keeps I (look f : Action E σ R) := fun _ h => h

theorem keeps_update {f : σ → σ} (h : ∀ s, I s → I (f s)) :
    Keeps I (update f : Action E σ Unit) := h

theorem Keeps.bind (hx : Keeps I x) (hf : ∀ r, Keeps I (f r)) : Keeps I (x >>= f) := by
  intro s hs
  have hs' := hx s hs
  rw [bind_eq]
  rcases hxs : x s with ⟨_ | r, s'⟩ <;> rw [hxs] at hs'
  · exact hs'
  · exact hf r s' hs'

theorem keeps_ite {c : Prop} [Decidable c] {y : Action E σ R} (hx : Keeps I x) (hy : Keeps I y) :
    Keeps I (if c then x else y) := by
  split_ifs
  · exact hx
  · exact hy

/-! ## Invariants and failures -/

/-- From a state with `I`, `x` ends in one with `I`, or fails as `Err` says. -/
def Maintains (I : σ → Prop) (Err : E → σ → Prop) (x : Action E σ R) : Prop :=
  ∀ s, I s → (∀ r, (x s).1 = .ok r → I (x s).2) ∧ ∀ e, (x s).1 = .error e → Err e (x s).2

section Maintains

variable {Err : E → σ → Prop}

theorem Keeps.maintains (hx : Keeps I x) (h : ∀ s e, I s → (x s).1 = .error e → Err e (x s).2) :
    Maintains I Err x := fun s hs => ⟨fun _ _ => hx s hs, fun e he => h s e hs he⟩

/-- An action that does not fail. -/
theorem Keeps.maintains_of_ok (hx : Keeps I x) (h : ∀ s, ∃ r, (x s).1 = .ok r) :
    Maintains I Err x := by
  refine hx.maintains fun s e _ he => ?_
  obtain ⟨r, hr⟩ := h s
  rw [hr] at he
  cases he

theorem Maintains.bind (hx : Maintains I Err x) (hf : ∀ r, Maintains I Err (f r)) :
    Maintains I Err (x >>= f) := by
  intro s hs
  obtain ⟨hok, herr⟩ := hx s hs
  rw [bind_eq]
  rcases hxs : x s with ⟨e | r, s'⟩ <;> rw [hxs] at hok herr
  · refine ⟨by simp, fun e' he => ?_⟩
    cases he
    exact herr e rfl
  · exact hf r s' (hok r rfl)

theorem maintains_ite {c : Prop} [Decidable c] {y : Action E σ R} (hx : Maintains I Err x)
    (hy : Maintains I Err y) : Maintains I Err (if c then x else y) := by
  split_ifs
  · exact hx
  · exact hy

/-- A dialogue that does not fail by itself maintains what its handler does. -/
theorem run_weaken_maintains {Q : Type} {A : Q → Type} {h : Dialog.Handler Q A E σ}
    (hh : ∀ q, Maintains I Err (h q : Action E σ (A q))) (d : Dialog Q A Empty R) :
    Maintains I Err (d.weaken.run h : Action E σ R) := by
  induction d with
  | done r => exact fun s hs => ⟨fun _ _ => hs, by simp [Dialog.weaken]⟩
  | fail e => exact e.elim
  | ask q k ih =>
    intro s hs
    obtain ⟨hok, herr⟩ := hh q s hs
    rw [Dialog.weaken, Dialog.run_ask]
    rcases hqs : h q s with ⟨e | a, s'⟩ <;> rw [hqs] at hok herr
    · refine ⟨by simp, fun e' he => ?_⟩
      cases he
      exact herr e rfl
    · exact ih a s' (hok a rfl)

end Maintains

/-! ## Related states -/

/-- `x` ends alike in related states, up to what it fails with, and keeps them related. -/
def Respects (Rel : σ → σ → Prop) (x : Action E σ R) : Prop :=
  ∀ s t, Rel s t → (x s).1.toOption = (x t).1.toOption ∧ Rel (x s).2 (x t).2

variable {Rel : σ → σ → Prop}

theorem respects_pure (r : R) : Respects Rel (pure r : Action E σ R) := fun _ _ h => ⟨rfl, h⟩

theorem Respects.bind (hx : Respects Rel x) (hf : ∀ r, Respects Rel (f r)) :
    Respects Rel (x >>= f) := by
  intro s t hst
  obtain ⟨h₁, h₂⟩ := hx s t hst
  rw [bind_eq, bind_eq]
  rcases hs : x s with ⟨_ | r, s'⟩ <;> rcases ht : x t with ⟨_ | r', t'⟩ <;> rw [hs, ht] at h₁ h₂
  · exact ⟨rfl, h₂⟩
  · exact nomatch h₁
  · exact nomatch h₁
  · obtain rfl := Option.some.inj h₁
    exact hf r s' t' h₂

theorem respects_ite {c : Prop} [Decidable c] {y : Action E σ R} (hx : Respects Rel x)
    (hy : Respects Rel y) : Respects Rel (if c then x else y) := by
  split_ifs
  · exact hx
  · exact hy

/-! ## Failures that cannot happen -/

/-- `x` does not fail with `e`. -/
def Avoids (e : E) (x : Action E σ R) : Prop := ∀ s, (x s).1 ≠ .error e

variable {e : E}

theorem avoids_pure (r : R) : Avoids e (pure r : Action E σ R) := fun _ => nofun

theorem avoids_look (f : σ → R) : Avoids e (look f : Action E σ R) := fun _ => nofun

theorem avoids_update (f : σ → σ) : Avoids e (update f : Action E σ Unit) := fun _ => nofun

theorem Avoids.bind (hx : Avoids e x) (hf : ∀ r, Avoids e (f r)) : Avoids e (x >>= f) := by
  intro s
  have hs := hx s
  rw [bind_eq]
  rcases hxs : x s with ⟨e' | r, s'⟩ <;> rw [hxs] at hs
  · exact fun h => hs (congrArg Except.error (Except.error.inj h))
  · exact hf r s'

theorem avoids_zoom {get : τ → σ} {set : σ → τ → τ} (hx : Avoids e x) :
    Avoids e (zoom get set x) := fun t => hx (get t)

theorem avoids_ite {c : Prop} [Decidable c] {y : Action E σ R} (hx : Avoids e x)
    (hy : Avoids e y) : Avoids e (if c then x else y) := by
  split_ifs
  · exact hx
  · exact hy

end Action

end Foundations
