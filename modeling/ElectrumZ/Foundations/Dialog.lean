import ElectrumZ.Foundations.Bytes
import Mathlib.Logic.Function.Basic

/-!
# Dialogues with an environment

A program that talks to an environment it does not control (a byte source it reads from, a
socket behind callbacks) is a `Dialog`: a finite tree that ends with a result or a failure, or
puts a question `q` and goes on with the answer. `Dialog.run h` lets the handler `h`, which owns
a state, answer the questions.

* `run_bind`: a run of `d >>= f` is a run of `d` followed by a run of `f`.
* `run_invariant`: what every answer of the handler preserves, the run preserves.
* `run_sim`: two handlers that answer alike from related states give runs that end alike; for one
  handler, and up to what it fails with, this is `run_respects`.
* `run_weaken_sim`: the same for a dialogue that cannot fail and answers that are never refused
  (`Dialog.play`).

The second half is about readers, the dialogues whose questions are "the next `n` bytes".
`readBytes` answers them from a byte string, and `Reads d bs a` says that `d` takes exactly `bs`
off the front of whatever is there and yields `a`, which can be seen on `bs` alone (`reads_iff`).
`Reads` composes along `bind` (`Reads.bind`), and what is read determines the value
(`Reads.unique`).
-/

namespace Foundations

/-- A program that asks questions `q : Q`, answered in `A q`, and ends with a result in `R` or a
failure in `E`. -/
inductive Dialog (Q : Type) (A : Q → Type) (E R : Type) : Type
  | done (r : R)
  | fail (e : E)
  | ask (q : Q) (k : A q → Dialog Q A E R)

namespace Dialog

variable {Q : Type} {A : Q → Type} {E R S σ τ : Type}

/-- Sequencing: a failure of the first dialogue ends the whole. -/
def bind : Dialog Q A E R → (R → Dialog Q A E S) → Dialog Q A E S
  | done r, f => f r
  | fail e, _ => fail e
  | ask q k, f => ask q fun a => (k a).bind f

instance : Monad (Dialog Q A E) where
  pure := done
  bind := bind

/-- Put one question. -/
def query (q : Q) : Dialog Q A E (A q) := ask q done

/-- A handler answers questions, may refuse one with a failure, and keeps a state. -/
abbrev Handler (Q : Type) (A : Q → Type) (E σ : Type) := (q : Q) → σ → Except E (A q) × σ

/-- Run a dialogue against a handler. The state survives a failure. -/
def run (h : Handler Q A E σ) : Dialog Q A E R → σ → Except E R × σ
  | done r, s => (.ok r, s)
  | fail e, s => (.error e, s)
  | ask q k, s =>
    match h q s with
    | (.ok a, s') => run h (k a) s'
    | (.error e, s') => (.error e, s')

@[simp] theorem run_pure (h : Handler Q A E σ) (r : R) (s : σ) :
    (pure r : Dialog Q A E R).run h s = (.ok r, s) := rfl

@[simp] theorem run_done (h : Handler Q A E σ) (r : R) (s : σ) :
    (done r : Dialog Q A E R).run h s = (.ok r, s) := rfl

@[simp] theorem run_fail (h : Handler Q A E σ) (e : E) (s : σ) :
    (fail e : Dialog Q A E R).run h s = (.error e, s) := rfl

theorem run_ask (h : Handler Q A E σ) (q : Q) (k : A q → Dialog Q A E R) (s : σ) :
    (ask q k).run h s = match h q s with
      | (.ok a, s') => (k a).run h s'
      | (.error e, s') => (.error e, s') := by
  rw [run]

theorem run_query (h : Handler Q A E σ) (q : Q) (s : σ) : (query q).run h s = h q s := by
  rw [query, run_ask]
  rcases h q s with ⟨_ | _, _⟩ <;> rfl

theorem run_bind (h : Handler Q A E σ) (d : Dialog Q A E R) (f : R → Dialog Q A E S) (s : σ) :
    (d >>= f).run h s = match d.run h s with
      | (.ok r, s') => (f r).run h s'
      | (.error e, s') => (.error e, s') := by
  show (d.bind f).run h s = _
  induction d generalizing s with
  | done r => rfl
  | fail e => rfl
  | ask q k ih =>
    simp only [bind, run_ask]
    rcases h q s with ⟨_ | a, s'⟩
    · rfl
    · exact ih a s'

theorem run_bind_of_ok {h : Handler Q A E σ} {d : Dialog Q A E R} {s s' : σ} {r : R}
    (hd : d.run h s = (.ok r, s')) (f : R → Dialog Q A E S) :
    (d >>= f).run h s = (f r).run h s' := by
  rw [run_bind, hd]

theorem run_bind_of_error {h : Handler Q A E σ} {d : Dialog Q A E R} {s s' : σ} {e : E}
    (hd : d.run h s = (.error e, s')) (f : R → Dialog Q A E S) :
    (d >>= f).run h s = (.error e, s') := by
  rw [run_bind, hd]

theorem bind_assoc (d : Dialog Q A E R) (f : R → Dialog Q A E S) {T : Type}
    (g : S → Dialog Q A E T) : d >>= f >>= g = d >>= fun r => f r >>= g := by
  show (d.bind f).bind g = d.bind fun r => (f r).bind g
  induction d with
  | done r => rfl
  | fail e => rfl
  | ask q k ih =>
    simp only [bind]
    congr
    funext a
    exact ih a

/-- A dialogue that does not fail, as one that could. -/
def weaken : Dialog Q A Empty R → Dialog Q A E R
  | done r => done r
  | fail e => e.elim
  | ask q k => ask q fun a => (k a).weaken

/-- What every answer of the handler preserves, a run preserves. -/
theorem run_invariant {h : Handler Q A E σ} {I : σ → Prop} (hI : ∀ q s, I s → I (h q s).2)
    (d : Dialog Q A E R) {s : σ} (hs : I s) : I (d.run h s).2 := by
  induction d generalizing s with
  | done r => exact hs
  | fail e => exact hs
  | ask q k ih =>
    have hq := hI q s hs
    rw [run_ask]
    rcases hqs : h q s with ⟨_ | a, s'⟩ <;> rw [hqs] at hq
    · exact hq
    · exact ih a hq

/-- Handlers that answer alike from related states, and stay related, give runs that end alike
in related states. -/
theorem run_sim {h : Handler Q A E σ} {h' : Handler Q A E τ} (Rel : σ → τ → Prop)
    (hstep : ∀ q s t, Rel s t → (h q s).1 = (h' q t).1 ∧ Rel (h q s).2 (h' q t).2)
    (d : Dialog Q A E R) {s : σ} {t : τ} (hst : Rel s t) :
    (d.run h s).1 = (d.run h' t).1 ∧ Rel (d.run h s).2 (d.run h' t).2 := by
  induction d generalizing s t with
  | done r => exact ⟨rfl, hst⟩
  | fail e => exact ⟨rfl, hst⟩
  | ask q k ih =>
    obtain ⟨h₁, h₂⟩ := hstep q s t hst
    rw [run_ask, run_ask]
    rcases hs : h q s with ⟨_ | a, s'⟩ <;> rcases ht : h' q t with ⟨_ | a', t'⟩ <;>
      rw [hs, ht] at h₁ h₂ <;> simp only [Except.ok.injEq, Except.error.injEq,
        reduceCtorEq] at h₁
    · exact ⟨by rw [h₁], h₂⟩
    · subst h₁
      exact ih a h₂

/-- A handler that answers alike in related states, up to what it fails with, and keeps them
related, makes runs from related states end alike. -/
theorem run_respects {h : Handler Q A E σ} (Rel : σ → σ → Prop)
    (hstep : ∀ q s t, Rel s t →
      (h q s).1.toOption = (h q t).1.toOption ∧ Rel (h q s).2 (h q t).2)
    (d : Dialog Q A E R) {s t : σ} (hst : Rel s t) :
    (d.run h s).1.toOption = (d.run h t).1.toOption ∧ Rel (d.run h s).2 (d.run h t).2 := by
  induction d generalizing s t with
  | done r => exact ⟨rfl, hst⟩
  | fail e => exact ⟨rfl, hst⟩
  | ask q k ih =>
    obtain ⟨h₁, h₂⟩ := hstep q s t hst
    rw [run_ask, run_ask]
    rcases hs : h q s with ⟨_ | a, s'⟩ <;> rcases ht : h q t with ⟨_ | a', t'⟩ <;>
      rw [hs, ht] at h₁ h₂
    · exact ⟨rfl, h₂⟩
    · exact nomatch h₁
    · exact nomatch h₁
    · obtain rfl := Option.some.inj h₁
      exact ih a h₂

/-- A dialogue that cannot fail fails only where the handler does. -/
theorem run_weaken_ne {h : Handler Q A E σ} {e : E} (hne : ∀ q s, (h q s).1 ≠ .error e)
    (d : Dialog Q A Empty R) (s : σ) : (d.weaken.run h s).1 ≠ .error e := by
  induction d generalizing s with
  | done r => nofun
  | fail e' => exact e'.elim
  | ask q k ih =>
    have hq := hne q s
    rw [weaken, run_ask]
    rcases hqs : h q s with ⟨e' | a, s'⟩ <;> rw [hqs] at hq
    · exact fun heq => hq (congrArg Except.error (Except.error.inj heq))
    · exact ih a s'

/-! ### Answers that are never refused -/

/-- Run a dialogue that cannot fail, with answers that are not refused. -/
def play (h : (q : Q) → σ → A q × σ) : Dialog Q A Empty R → σ → R × σ
  | done r, s => (r, s)
  | fail e, _ => e.elim
  | ask q k, s => play h (k (h q s).1) (h q s).2

variable {h : (q : Q) → σ → A q × σ}

theorem play_done (r : R) (s : σ) : (done r : Dialog Q A Empty R).play h s = (r, s) := rfl

theorem play_ask (q : Q) (k : A q → Dialog Q A Empty R) (s : σ) :
    (ask q k).play h s = (k (h q s).1).play h (h q s).2 := by
  rw [play]

theorem play_bind (d : Dialog Q A Empty R) (f : R → Dialog Q A Empty S) (s : σ) :
    (d >>= f).play h s = (f (d.play h s).1).play h (d.play h s).2 := by
  show (d.bind f).play h s = _
  induction d generalizing s with
  | done r => rfl
  | fail e => exact e.elim
  | ask q k ih =>
    rw [bind, play_ask, play_ask]
    exact ih _ _

/-- What every answer preserves, a run preserves. -/
theorem play_invariant {I : σ → Prop} (hI : ∀ q s, I s → I (h q s).2) (d : Dialog Q A Empty R)
    {s : σ} (hs : I s) : I (d.play h s).2 := by
  induction d generalizing s with
  | done r => exact hs
  | fail e => exact e.elim
  | ask q k ih =>
    rw [play_ask]
    exact ih _ (hI q s hs)

/-- A handler that answers like `h'`, from related states to related states, runs like it. -/
theorem run_weaken_sim {g : Handler Q A E τ} (Rel : τ → σ → Prop)
    (hstep : ∀ q t s, Rel t s → ∃ t', g q t = (.ok (h q s).1, t') ∧ Rel t' (h q s).2)
    (d : Dialog Q A Empty R) {t : τ} {s : σ} (hst : Rel t s) :
    ∃ t', d.weaken.run g t = (.ok (d.play h s).1, t') ∧ Rel t' (d.play h s).2 := by
  induction d generalizing t s with
  | done r => exact ⟨t, rfl, hst⟩
  | fail e => exact e.elim
  | ask q k ih =>
    obtain ⟨t', hg, hst'⟩ := hstep q t s hst
    rw [weaken, run_ask, hg, play_ask]
    exact ih _ hst'

/-! ### What a dialogue yields -/

section Ensures

variable {P : R → Prop} {P' : S → Prop}

/-- Whatever the answers are, a result satisfies `P`. -/
def Ensures (P : R → Prop) : Dialog Q A E R → Prop
  | done r => P r
  | fail _ => True
  | ask _ k => ∀ a, Ensures P (k a)

theorem ensures_true (d : Dialog Q A E R) : d.Ensures fun _ => True := by
  induction d with
  | done r => trivial
  | fail e => trivial
  | ask q k ih => exact ih

theorem Ensures.mono {P₁ : R → Prop} {d : Dialog Q A E R} (hd : d.Ensures P)
    (h : ∀ r, P r → P₁ r) : d.Ensures P₁ := by
  induction d with
  | done r => exact h r hd
  | fail e => trivial
  | ask q k ih => exact fun a => ih a (hd a)

theorem Ensures.bind {d : Dialog Q A E R} {f : R → Dialog Q A E S} (hd : d.Ensures P)
    (hf : ∀ r, P r → (f r).Ensures P') : (d >>= f).Ensures P' := by
  change (d.bind f).Ensures P'
  induction d with
  | done r => exact hf r hd
  | fail e => trivial
  | ask q k ih => exact fun a => ih a (hd a)

/-- The last dialogue of a chain decides. -/
theorem ensures_bind {d : Dialog Q A E R} {f : R → Dialog Q A E S}
    (hf : ∀ r, (f r).Ensures P') : (d >>= f).Ensures P' :=
  (ensures_true d).bind fun r _ => hf r

theorem Ensures.run {h : Handler Q A E σ} {d : Dialog Q A E R} {s s' : σ} {r : R}
    (hd : d.Ensures P) (hrun : d.run h s = (.ok r, s')) : P r := by
  induction d generalizing s with
  | done r' =>
    rw [run_done] at hrun
    exact Except.ok.inj (Prod.mk.inj hrun).1 ▸ hd
  | fail e => exact absurd (Prod.mk.inj hrun).1 (by simp)
  | ask q k ih =>
    rw [run_ask] at hrun
    split at hrun
    · exact ih _ (hd _) hrun
    · exact absurd (Prod.mk.inj hrun).1 (by simp)

end Ensures

end Dialog

/-! ## Readers -/

/-- A reader asks for the next `n` bytes. -/
abbrev Reader (E R : Type) := Dialog ℕ (fun _ => Bytes) E R

section Reads

variable {E R S : Type} (eof tooLarge : E) (limit : ℕ)

/-- The next `n` bytes of a byte string. A request above the limit is refused at once; one that
the string is too short for uses it up. -/
def readBytes : Dialog.Handler ℕ (fun _ => Bytes) E Bytes := fun n bs =>
  if limit < n then (.error tooLarge, bs)
  else if n ≤ bs.length then (.ok (bs.take n), bs.drop n)
  else (.error eof, [])

/-- `Reads d bs a`: `d` takes exactly `bs` off the front of the input and yields `a`. -/
def Reads (d : Reader E R) (bs : Bytes) (a : R) : Prop :=
  ∀ rest, d.run (readBytes eof tooLarge limit) (bs ++ rest) = (.ok a, rest)

variable {eof tooLarge limit}

theorem reads_pure (a : R) : Reads eof tooLarge limit (pure a : Reader E R) [] a :=
  fun _ => rfl

theorem reads_query {bs : Bytes} {n : ℕ} (hn : bs.length = n) (hl : n ≤ limit) :
    Reads eof tooLarge limit (Dialog.query n : Reader E Bytes) bs bs := by
  intro rest
  rw [Dialog.run_query, readBytes, if_neg (by omega), if_pos (by simp [hn]),
    List.take_left' hn, List.drop_left' hn]

/-- Readers take bytes off the front. -/
theorem run_readBytes_suffix (d : Reader E R) (bs : Bytes) :
    (d.run (readBytes eof tooLarge limit) bs).2 <:+ bs := by
  refine d.run_invariant (I := fun bs' => bs' <:+ bs) (fun n bs' h => ?_) (List.suffix_refl bs)
  rw [readBytes]
  split_ifs
  · exact h
  · exact (List.drop_suffix n bs').trans h
  · exact List.nil_suffix

/-- What follows the bytes that are read does not matter. -/
theorem run_readBytes_append {d : Reader E R} {bs bs' : Bytes} {a : R}
    (h : d.run (readBytes eof tooLarge limit) bs = (.ok a, bs')) (rest : Bytes) :
    d.run (readBytes eof tooLarge limit) (bs ++ rest) = (.ok a, bs' ++ rest) := by
  induction d generalizing bs with
  | done r =>
    rw [Dialog.run_done, Prod.mk.injEq] at h
    rw [Dialog.run_done, h.1, h.2]
  | fail e => exact nomatch (Prod.mk.inj h).1
  | ask n k ih =>
    rw [Dialog.run_ask, readBytes] at h
    rw [Dialog.run_ask, readBytes]
    by_cases hl : limit < n
    · rw [if_pos hl] at h
      exact nomatch (Prod.mk.inj h).1
    · by_cases hn : n ≤ bs.length
      · have hn' : n ≤ (bs ++ rest).length := by
          rw [List.length_append]
          omega
        rw [if_neg hl, if_pos hn] at h
        rw [if_neg hl, if_pos hn', List.take_append_of_le_length hn,
          List.drop_append_of_le_length hn]
        exact ih _ h
      · rw [if_neg hl, if_neg hn] at h
        exact nomatch (Prod.mk.inj h).1

theorem reads_iff {d : Reader E R} {bs : Bytes} {a : R} :
    Reads eof tooLarge limit d bs a ↔ d.run (readBytes eof tooLarge limit) bs = (.ok a, []) := by
  constructor
  · intro h
    simpa using h []
  · intro h rest
    rw [run_readBytes_append h, List.nil_append]

/-- Readers compose: the second reads where the first stopped. -/
theorem Reads.bind {d : Reader E R} {f : R → Reader E S} {bs bs' : Bytes} {a : R} {b : S}
    (hd : Reads eof tooLarge limit d bs a) (hf : Reads eof tooLarge limit (f a) bs' b) :
    Reads eof tooLarge limit (d >>= f) (bs ++ bs') b := by
  intro rest
  rw [Dialog.run_bind, List.append_assoc, hd (bs' ++ rest)]
  exact hf rest

/-- The last reader of a chain only computes. -/
theorem Reads.bind_pure {d : Reader E R} {f : R → Reader E S} {bs : Bytes} {a : R} {b : S}
    (hd : Reads eof tooLarge limit d bs a) (hf : f a = pure b) :
    Reads eof tooLarge limit (d >>= f) bs b := by
  have hnil : Reads eof tooLarge limit (f a) [] b := hf ▸ reads_pure b
  have h := hd.bind hnil
  rwa [List.append_nil] at h

/-- The bytes read determine the value. -/
theorem Reads.unique {d : Reader E R} {bs : Bytes} {a a' : R} (h : Reads eof tooLarge limit d bs a)
    (h' : Reads eof tooLarge limit d bs a') : a = a' := by
  have := (h []).symm.trans (h' [])
  simpa using this

/-- Reading one element after another. -/
def readMany (elem : Reader E R) : ℕ → Reader E (List R)
  | 0 => pure []
  | n + 1 => do
    let a ← elem
    let as ← readMany elem n
    return a :: as

/-- As many elements are read as asked for. -/
theorem ensures_readMany {P : R → Prop} {elem : Reader E R} (h : elem.Ensures P) (n : ℕ) :
    (readMany elem n).Ensures fun as => as.length = n ∧ ∀ a ∈ as, P a := by
  induction n with
  | zero => exact ⟨rfl, by simp⟩
  | succ n ih =>
    refine h.bind fun a ha => ih.bind fun as has => ⟨?_, ?_⟩
    · rw [List.length_cons, has.1]
    · rw [List.forall_mem_cons]
      exact ⟨ha, has.2⟩

theorem reads_readMany {elem : Reader E R} {enc : R → Bytes} (as : List R)
    (h : ∀ a ∈ as, Reads eof tooLarge limit elem (enc a) a) :
    Reads eof tooLarge limit (readMany elem as.length) (as.flatMap enc) as := by
  induction as with
  | nil => exact reads_pure []
  | cons a as ih =>
    have has := ih fun b hb => h b (List.mem_cons_of_mem a hb)
    rw [List.flatMap_cons]
    exact (h a List.mem_cons_self).bind (has.bind_pure rfl)

end Reads

end Foundations
