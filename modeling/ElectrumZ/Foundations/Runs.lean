import Mathlib.Data.List.Basic

/-!
# Runs of a machine

A machine is a partial function `step : α → σ → Option σ`: what an action makes of a state in which
it is possible. A run is a list of actions, each taken in the state the one before has left.

* `runs_invariant`: what every action preserves holds after a run.
* `always_iff_throughout`: the states of a run all satisfy a law exactly if its actions all satisfy
  a condition, when the condition is what an action needs to keep the law.

`Since A B log` says of what happened that an `A` has, and no `B` since, and `Each J log` that each
event is what its past allows.
-/

namespace Foundations

variable {α σ : Type} (step : α → σ → Option σ)

/-- The run leads from one state to the other. -/
def Runs : σ → List α → σ → Prop
  | s, [], s' => s = s'
  | s, a :: as, s' => ∃ t, step a s = some t ∧ Runs t as s'

/-- Every state of the run satisfies `P`. -/
def Always (P : σ → Prop) : σ → List α → Prop
  | s, [] => P s
  | s, a :: as => P s ∧ ∀ t, step a s = some t → Always P t as

/-- Every action of the run satisfies `C` in the state in which it is taken. -/
def Throughout (C : α → σ → Prop) : σ → List α → Prop
  | _, [] => True
  | s, a :: as => ∀ t, step a s = some t → C a s ∧ Throughout C t as

/-- A law that can be decided is decided for a run by taking it. -/
instance decidableAlways (P : σ → Prop) [DecidablePred P] :
    ∀ s as, Decidable (Always step P s as)
  | s, [] => inferInstanceAs (Decidable (P s))
  | s, a :: as =>
    match h : step a s with
    | none => decidable_of_iff (P s) ⟨fun hs => ⟨hs, fun _ ht => nomatch h.symm.trans ht⟩, And.left⟩
    | some t =>
      have := decidableAlways P t as
      decidable_of_iff (P s ∧ Always step P t as)
        ⟨fun hs => ⟨hs.1, fun _ ht => Option.some.inj (h.symm.trans ht) ▸ hs.2⟩,
          fun hs => ⟨hs.1, hs.2 t h⟩⟩

instance decidableThroughout (C : α → σ → Prop) [∀ a s, Decidable (C a s)] :
    ∀ s as, Decidable (Throughout step C s as)
  | _, [] => .isTrue trivial
  | s, a :: as =>
    match h : step a s with
    | none => .isTrue fun _ ht => nomatch h.symm.trans ht
    | some t =>
      have := decidableThroughout C t as
      decidable_of_iff (C a s ∧ Throughout step C t as)
        ⟨fun hs _ ht => Option.some.inj (h.symm.trans ht) ▸ hs, fun hs => hs t h⟩

variable {step} {s s' : σ} {as : List α} {I P A : σ → Prop} {C : α → σ → Prop}

/-- A run can be taken. -/
theorem runs_iff_foldlM : Runs step s as s' ↔ as.foldlM (fun s a => step a s) s = some s' := by
  induction as generalizing s with
  | nil => exact Option.some_inj.symm
  | cons a as ih =>
    rw [List.foldlM_cons, Option.bind_eq_bind, Option.bind_eq_some_iff]
    simp only [Runs, ih]

/-- The last action of a run. -/
theorem runs_concat_iff {a : α} :
    Runs step s (as ++ [a]) s' ↔ ∃ t, Runs step s as t ∧ step a t = some s' := by
  induction as generalizing s with
  | nil => simp [Runs]
  | cons b as ih =>
    simp only [List.cons_append, Runs, ih]
    constructor
    · rintro ⟨u, hu, t, hrun, ht⟩
      exact ⟨t, ⟨u, hu, hrun⟩, ht⟩
    · rintro ⟨t, ⟨u, hu, hrun⟩, ht⟩
      exact ⟨u, hu, t, hrun, ht⟩

theorem Always.head (h : Always step P s as) : P s := by
  cases as with
  | nil => exact h
  | cons a as => exact h.1

theorem Always.last (h : Always step P s as) (hrun : Runs step s as s') : P s' := by
  induction as generalizing s with
  | nil =>
    obtain rfl : s = s' := hrun
    exact h
  | cons a as ih =>
    obtain ⟨t, hstep, hrun⟩ := hrun
    exact ih (h.2 t hstep) hrun

theorem Always.mono {Q : σ → Prop} (hPQ : ∀ s, P s → Q s) (h : Always step P s as) :
    Always step Q s as := by
  induction as generalizing s with
  | nil => exact hPQ s h
  | cons a as ih => exact ⟨hPQ s h.1, fun t hstep => ih (h.2 t hstep)⟩

theorem always_of_forall (h : ∀ s, P s) : Always step P s as := by
  induction as generalizing s with
  | nil => exact h s
  | cons a as ih => exact ⟨h s, fun _ _ => ih⟩

theorem throughout_of_forall (h : ∀ a ∈ as, ∀ s, C a s) : Throughout step C s as := by
  induction as generalizing s with
  | nil => trivial
  | cons a as ih =>
    exact fun _ _ => ⟨h a List.mem_cons_self s, ih fun a' ha' => h a' (List.mem_cons_of_mem a ha')⟩

theorem Throughout.and {D : α → σ → Prop} (hC : Throughout step C s as)
    (hD : Throughout step D s as) : Throughout step (fun a s => C a s ∧ D a s) s as := by
  induction as generalizing s with
  | nil => trivial
  | cons a as ih =>
    intro t hstep
    exact ⟨⟨(hC t hstep).1, (hD t hstep).1⟩, ih (hC t hstep).2 (hD t hstep).2⟩

/-- What every action that meets the condition preserves holds in every state. -/
theorem always_of_throughout
    (hkeep : ∀ a s t, I s → A s → step a s = some t → C a s → A t → I t)
    (hA : Always step A s as) (hs : I s) (h : Throughout step C s as) : Always step I s as := by
  induction as generalizing s with
  | nil => exact hs
  | cons a as ih =>
    refine ⟨hs, fun t hstep => ?_⟩
    have hA' := hA.2 t hstep
    exact ih hA' (hkeep a s t hs hA.1 hstep (h t hstep).1 hA'.head) (h t hstep).2

/-- **A law and the condition that keeps it.** Assumed of all states of the run is `A`. -/
theorem always_iff_throughout (hI : ∀ s, I s → P s)
    (hkeep : ∀ a s t, I s → A s → step a s = some t → C a s → A t → I t)
    (hbreak : ∀ a s t, I s → step a s = some t → P t → C a s) (hA : Always step A s as)
    (hs : I s) : Always step P s as ↔ Throughout step C s as := by
  constructor
  · intro h
    induction as generalizing s with
    | nil => trivial
    | cons a as ih =>
      intro t hstep
      have hC := hbreak a s t hs hstep (h.2 t hstep).head
      have hA' := hA.2 t hstep
      exact ⟨hC, ih hA' (hkeep a s t hs hA.1 hstep hC hA'.head) (h.2 t hstep)⟩
  · exact fun h => (always_of_throughout hkeep hA hs h).mono hI

/-- What every action preserves holds after a run. -/
theorem runs_invariant (hstep : ∀ a s t, I s → step a s = some t → I t)
    (hrun : Runs step s as s') (hs : I s) : I s' := by
  induction as generalizing s with
  | nil =>
    obtain rfl : s = s' := hrun
    exact hs
  | cons a as ih =>
    obtain ⟨t, ht, hrun⟩ := hrun
    exact ih hrun (hstep a s t hs ht)

/-- Two conditions that agree in the states with an invariant. -/
theorem throughout_congr {D : α → σ → Prop} (hstep : ∀ a s t, I s → step a s = some t → I t)
    (h : ∀ a s, I s → (C a s ↔ D a s)) (hs : I s) :
    Throughout step C s as ↔ Throughout step D s as := by
  induction as generalizing s with
  | nil => exact Iff.rfl
  | cons a as ih =>
    refine forall_congr' fun t => forall_congr' fun ht => ?_
    rw [h a s hs, ih (hstep a s t hs ht)]

/-! ## Histories -/

variable {ε : Type} {A B : ε → Prop} {log : List ε} {e : ε}

/-- An `A` has happened, and no `B` since. -/
def Since (A B : ε → Prop) (log : List ε) : Prop :=
  ∃ pre e post, log = pre ++ e :: post ∧ A e ∧ ∀ e' ∈ post, ¬ B e'

theorem not_since_nil : ¬ Since A B [] := by
  rintro ⟨pre, e, post, h, -⟩
  simp at h

theorem since_concat : Since A B (log ++ [e]) ↔ A e ∨ Since A B log ∧ ¬ B e := by
  constructor
  · rintro ⟨pre, e', post, hlog, hA, hB⟩
    rcases List.eq_nil_or_concat post with rfl | ⟨post', e'', rfl⟩
    · obtain ⟨-, he⟩ := List.append_inj' hlog rfl
      obtain rfl := List.singleton_inj.mp he
      exact .inl hA
    · rw [List.concat_eq_append, ← List.cons_append, ← List.append_assoc] at hlog
      obtain ⟨rfl, he⟩ := List.append_inj' hlog rfl
      obtain rfl := List.singleton_inj.mp he
      exact .inr ⟨⟨pre, e', post', rfl, hA, fun x hx => hB x (by simp [hx])⟩, hB e (by simp)⟩
  · rintro (hA | ⟨⟨pre, e', post, rfl, hA, hB⟩, he⟩)
    · exact ⟨log, e, [], rfl, hA, by simp⟩
    · refine ⟨pre, e', post ++ [e], by simp, hA, fun x hx => ?_⟩
      obtain hx | hx := List.mem_append.mp hx
      · exact hB x hx
      · exact List.mem_singleton.mp hx ▸ he

/-- Each event is what its past allows. -/
def Each (J : List ε → ε → Prop) (log : List ε) : Prop :=
  ∀ pre e post, log = pre ++ e :: post → J pre e

variable {J : List ε → ε → Prop}

theorem each_nil : Each J [] := by
  intro pre e post h
  simp at h

theorem each_concat : Each J (log ++ [e]) ↔ Each J log ∧ J log e := by
  constructor
  · intro h
    exact ⟨fun pre e' post hlog => h pre e' (post ++ [e]) (by simp [hlog]), h log e [] rfl⟩
  · rintro ⟨hlog, he⟩ pre e' post h
    rcases List.eq_nil_or_concat post with rfl | ⟨post', e'', rfl⟩
    · obtain ⟨rfl, he'⟩ := List.append_inj' h rfl
      obtain rfl := List.singleton_inj.mp he'
      exact he
    · rw [List.concat_eq_append, ← List.cons_append, ← List.append_assoc] at h
      exact hlog pre e' post' (List.append_inj' h rfl).1

theorem Each.mono {J' : List ε → ε → Prop} (hJ : ∀ pre e, J pre e → J' pre e) (h : Each J log) :
    Each J' log :=
  fun pre e post hlog => hJ pre e (h pre e post hlog)

end Foundations
