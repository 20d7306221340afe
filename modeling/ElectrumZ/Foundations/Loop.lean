import Mathlib.Data.List.Basic
import Mathlib.Data.Nat.Basic
import Mathlib.Logic.Relation

/-!
# Loops with an exit

`while (1) { … break … }` as a step function `body : σ → σ ⊕ ρ`: `.inl` goes round again, `.inr`
leaves with a result. `loop body n` runs at most `n` rounds, and `Exits body s r` says that the
loop entered at `s` leaves, after however many rounds, with `r`. `loop_invariant` is the invariant
rule. `Rounds body s s'` says that the loop entered at `s` comes round to `s'`, with the rule
`rounds_invariant`, and `Diverges body s` that it goes round for ever.

`for (a : as) …` with an early exit is a `List.foldlM`; `foldlM_invariant` is its invariant rule.
-/

namespace Foundations

variable {σ ρ : Type}

/-- At most `n` rounds of the loop; `none` when they are used up. -/
def loop (body : σ → σ ⊕ ρ) : ℕ → σ → Option ρ
  | 0, _ => none
  | n + 1, s =>
    match body s with
    | .inl s' => loop body n s'
    | .inr r => some r

/-- The loop entered at `s` leaves with `r`. -/
def Exits (body : σ → σ ⊕ ρ) (s : σ) (r : ρ) : Prop := ∃ n, loop body n s = some r

variable {body : σ → σ ⊕ ρ} {s s' : σ} {r r' : ρ}

theorem loop_succ_inl (h : body s = .inl s') (n : ℕ) : loop body (n + 1) s = loop body n s' := by
  rw [loop, h]

theorem loop_succ_inr (h : body s = .inr r) (n : ℕ) : loop body (n + 1) s = some r := by
  rw [loop, h]

/-- More rounds than needed change nothing. -/
theorem loop_mono {m n : ℕ} (hmn : m ≤ n) (h : loop body m s = some r) :
    loop body n s = some r := by
  induction m generalizing n s with
  | zero => cases h
  | succ m ih =>
    obtain ⟨n, rfl⟩ : ∃ k, n = k + 1 := ⟨n - 1, by omega⟩
    cases hb : body s with
    | inl s' =>
      rw [loop_succ_inl hb] at h ⊢
      exact ih (by omega) h
    | inr r' =>
      rw [loop_succ_inr hb] at h ⊢
      exact h

/-- What holds at the entry and after every round that goes on, decides how the loop leaves. -/
theorem loop_invariant {I : σ → Prop} {J : ρ → Prop} (hgo : ∀ s s', I s → body s = .inl s' → I s')
    (hleave : ∀ s r, I s → body s = .inr r → J r) {n : ℕ} (h : loop body n s = some r)
    (hs : I s) : J r := by
  induction n generalizing s with
  | zero => cases h
  | succ n ih =>
    cases hb : body s with
    | inl s' =>
      rw [loop_succ_inl hb] at h
      exact ih h (hgo s s' hs hb)
    | inr r' =>
      rw [loop_succ_inr hb] at h
      obtain rfl := Option.some.inj h
      exact hleave s r' hs hb

/-- The loop entered at one state comes round to the other. -/
def Rounds (body : σ → σ ⊕ ρ) : σ → σ → Prop := Relation.ReflTransGen fun s s' => body s = .inl s'

/-- What every round preserves. -/
theorem rounds_invariant {I : σ → Prop} (hgo : ∀ s s', I s → body s = .inl s' → I s')
    (h : Rounds body s s') (hs : I s) : I s' := by
  induction h with
  | refl => exact hs
  | tail _ hstep ih => exact hgo _ _ ih hstep

/-- The loop entered at `s` goes round for ever. -/
def Diverges (body : σ → σ ⊕ ρ) (s : σ) : Prop := ∀ n, loop body n s = none

theorem Diverges.step (h : body s = .inl s') (h' : Diverges body s') : Diverges body s := by
  intro n
  cases n with
  | zero => rfl
  | succ n => rw [loop_succ_inl h, h' n]

/-- A round that changes nothing comes again. -/
theorem diverges_of_fixed (h : body s = .inl s) : Diverges body s := by
  intro n
  induction n with
  | zero => rfl
  | succ n ih => rw [loop_succ_inl h, ih]

namespace Exits

theorem stop (h : body s = .inr r) : Exits body s r := ⟨1, loop_succ_inr h 0⟩

theorem step (h : body s = .inl s') (h' : Exits body s' r) : Exits body s r := by
  obtain ⟨n, hn⟩ := h'
  exact ⟨n + 1, by rw [loop_succ_inl h, hn]⟩

/-- A loop leaves with one result only. -/
theorem unique (h : Exits body s r) (h' : Exits body s r') : r = r' := by
  obtain ⟨m, hm⟩ := h
  obtain ⟨n, hn⟩ := h'
  have h₁ := loop_mono (Nat.le_max_left m n) hm
  have h₂ := loop_mono (Nat.le_max_right m n) hn
  exact Option.some.inj (h₁.symm.trans h₂)

/-- From some number of rounds on, the bounded loop has left. -/
theorem eventually (h : Exits body s r) : ∃ n, ∀ m, n ≤ m → loop body m s = some r := by
  obtain ⟨n, hn⟩ := h
  exact ⟨n, fun m hm => loop_mono hm hn⟩

end Exits

/-- What one round of a `for` loop preserves, the loop preserves. -/
theorem foldlM_invariant {α : Type} {f : σ → α → Option σ} {I : σ → Prop}
    (hf : ∀ s a s', I s → f s a = some s' → I s') {as : List α} (h : as.foldlM f s = some s')
    (hs : I s) : I s' := by
  induction as generalizing s with
  | nil => exact Option.some.inj h ▸ hs
  | cons a as ih =>
    obtain ⟨s₁, h₁, h₂⟩ := Option.bind_eq_some_iff.mp (List.foldlM_cons.symm.trans h)
    exact ih h₂ (hf s a s₁ hs h₁)

end Foundations
