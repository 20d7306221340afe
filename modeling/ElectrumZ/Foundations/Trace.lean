import ElectrumZ.Foundations.Dialog

/-!
# Traces of a dialogue

`Trace d tr res`: given the answers of `tr`, the dialogue `d` asks the questions of `tr`, in this
order, and ends with `res`. No handler is involved, so what holds of all traces holds in every
environment.

* `trace_bind_iff`: a trace of `d >>= f` is a trace of `d` followed by one of `f`.
* `run_recorded`: a run against answers that may depend on the whole past is a trace.
* `trace_transcript`: so is a run against a handler, as far as its questions are answered.
* `Dialog.Each P d`: however a trace of `d` goes, it satisfies `P`.
-/

namespace Foundations

/-- A question and its answer. -/
abbrev Exchange (Q : Type) (A : Q → Type) := (q : Q) × A q

namespace Dialog

variable {Q : Type} {A : Q → Type} {E R S : Type}

/-- With the answers of `tr` the dialogue asks its questions and ends with `res`. -/
inductive Trace : Dialog Q A E R → List (Exchange Q A) → Except E R → Prop
  | done (r : R) : Trace (done r) [] (.ok r)
  | fail (e : E) : Trace (fail e) [] (.error e)
  | ask {q : Q} {k : A q → Dialog Q A E R} {tr : List (Exchange Q A)} {res : Except E R} (a : A q)
    (h : Trace (k a) tr res) : Trace (ask q k) (⟨q, a⟩ :: tr) res

variable {d : Dialog Q A E R} {f : R → Dialog Q A E S} {tr : List (Exchange Q A)} {r : R} {e : E}
  {res : Except E R} {res' : Except E S}

theorem trace_pure_iff : Trace (pure r : Dialog Q A E R) tr res ↔ tr = [] ∧ res = .ok r := by
  constructor
  · intro h
    cases h
    exact ⟨rfl, rfl⟩
  · rintro ⟨rfl, rfl⟩
    exact .done r

theorem trace_fail_iff : Trace (fail e : Dialog Q A E R) tr res ↔ tr = [] ∧ res = .error e := by
  constructor
  · intro h
    cases h
    exact ⟨rfl, rfl⟩
  · rintro ⟨rfl, rfl⟩
    exact .fail e

theorem trace_ask_iff {q : Q} {k : A q → Dialog Q A E R} :
    Trace (ask q k) tr res ↔ ∃ a tr', tr = ⟨q, a⟩ :: tr' ∧ Trace (k a) tr' res := by
  constructor
  · intro h
    cases h with
    | ask a h => exact ⟨a, _, rfl, h⟩
  · rintro ⟨a, tr', rfl, h⟩
    exact .ask a h

/-- A first question. -/
theorem trace_query_bind_iff {q : Q} {f : A q → Dialog Q A E R} :
    Trace (query q >>= f) tr res ↔ ∃ a tr', tr = ⟨q, a⟩ :: tr' ∧ Trace (f a) tr' res :=
  trace_ask_iff

/-- **Traces compose.** A failure of the first dialogue is the failure of the whole. -/
theorem trace_bind_iff : Trace (d >>= f) tr res' ↔
    (∃ e, Trace d tr (.error e) ∧ res' = .error e) ∨
      ∃ tr₁ r tr₂, tr = tr₁ ++ tr₂ ∧ Trace d tr₁ (.ok r) ∧ Trace (f r) tr₂ res' := by
  show Trace (d.bind f) tr res' ↔ _
  induction d generalizing tr with
  | done r =>
    constructor
    · exact fun h => .inr ⟨[], r, tr, rfl, .done r, h⟩
    · rintro (⟨e, h, -⟩ | ⟨tr₁, r, tr₂, rfl, h₁, h₂⟩)
      · cases h
      · cases h₁
        exact h₂
  | fail e =>
    constructor
    · intro h
      obtain ⟨rfl, rfl⟩ := trace_fail_iff.mp h
      exact .inl ⟨e, .fail e, rfl⟩
    · rintro (⟨e', h, rfl⟩ | ⟨tr₁, r, tr₂, rfl, h₁, -⟩)
      · cases h
        exact .fail e
      · cases h₁
  | ask q k ih =>
    rw [Dialog.bind, trace_ask_iff]
    constructor
    · rintro ⟨a, tr', rfl, h⟩
      obtain ⟨e, hk, rfl⟩ | ⟨tr₁, r, tr₂, rfl, h₁, h₂⟩ := (ih a).mp h
      · exact .inl ⟨e, .ask a hk, rfl⟩
      · exact .inr ⟨⟨q, a⟩ :: tr₁, r, tr₂, rfl, .ask a h₁, h₂⟩
    · rintro (⟨e, h, rfl⟩ | ⟨tr₁, r, tr₂, rfl, h₁, h₂⟩)
      · obtain ⟨a, tr', rfl, hk⟩ := trace_ask_iff.mp h
        exact ⟨a, tr', rfl, (ih a).mpr (.inl ⟨e, hk, rfl⟩)⟩
      · obtain ⟨a, tr', rfl, hk⟩ := trace_ask_iff.mp h₁
        exact ⟨a, tr' ++ tr₂, rfl, (ih a).mpr (.inr ⟨tr', r, tr₂, rfl, hk, h₂⟩)⟩

/-! ## Recorded runs -/

/-- Answers that depend on all that has been exchanged before, which is recorded. -/
def recorded (answer : List (Exchange Q A) → (q : Q) → A q) :
    Handler Q A E (List (Exchange Q A)) :=
  fun q past => (.ok (answer past q), past ++ [⟨q, answer past q⟩])

/-- **A recorded run is a trace.** -/
theorem run_recorded (answer : List (Exchange Q A) → (q : Q) → A q) (d : Dialog Q A E R)
    (past : List (Exchange Q A)) : ∃ tr,
      (d.run (recorded answer) past).2 = past ++ tr ∧
        Trace d tr (d.run (recorded answer) past).1 := by
  induction d generalizing past with
  | done r => exact ⟨[], (List.append_nil past).symm, .done r⟩
  | fail e => exact ⟨[], (List.append_nil past).symm, .fail e⟩
  | ask q k ih =>
    obtain ⟨tr, hpast, htrace⟩ := ih (answer past q) (past ++ [⟨q, answer past q⟩])
    rw [run_ask]
    refine ⟨⟨q, answer past q⟩ :: tr, ?_, .ask _ htrace⟩
    rw [recorded, hpast, List.append_assoc, List.singleton_append]

/-! ## Transcripts -/

variable {σ : Type}

/-- The questions of a run that are answered, with their answers. -/
def transcript (h : Handler Q A E σ) : Dialog Q A E R → σ → List (Exchange Q A)
  | done _, _ => []
  | fail _, _ => []
  | ask q k, s =>
    match h q s with
    | (.ok a, s') => ⟨q, a⟩ :: transcript h (k a) s'
    | (.error _, _) => []

/-- **The transcript of a run is a trace**, unless the run ends with an error of the handler. -/
theorem trace_transcript {h : Handler Q A E σ} {s : σ}
    (hne : ∀ q t e t', h q t = (.error e, t') → (d.run h s).1 ≠ .error e) :
    Trace d (d.transcript h s) (d.run h s).1 := by
  induction d generalizing s with
  | done r => exact .done r
  | fail e => exact .fail e
  | ask q k ih =>
    simp only [run_ask, transcript] at hne ⊢
    rcases hq : h q s with ⟨e | a, s'⟩ <;> simp only [hq] at hne ⊢
    · exact absurd rfl (hne q s e s' hq)
    · exact .ask a (ih a hne)

/-! ## What every trace satisfies -/

/-- However a trace of the dialogue goes, it satisfies `P`. -/
def Each (P : List (Exchange Q A) → Except E R → Prop) (d : Dialog Q A E R) : Prop :=
  ∀ tr res, Trace d tr res → P tr res

end Dialog

end Foundations
