import ElectrumZ.Foundations.Dialog
import Mathlib.Data.List.Forall2

/-!
# What a reader accepts

A reader accepts a format if what it reads, and what it yields for it, is what the format relates.
So a format says more than a round trip: which bytes are taken for a value, and that no others are.

* `reads_bind_iff`: what a chain of readers reads is what the first reads, followed by what the
  second does.
* `Reads.prefix_free`: no reader accepts two byte strings of which one begins with the other.
* `Admits.run_iff`: a run on any input takes what the format says off the front, or fails.
* `Admits.readMany`: a reader of many elements admits one piece for each of them.
-/

namespace Foundations

section Reads

variable {E R S : Type} {eof tooLarge : E} {limit : ℕ} {d : Reader E R} {f : R → Reader E S}
  {bs bs' rest : Bytes} {a a' : R} {b : S}

/-! ## Inversion -/

/-- A reader does not look at what follows the bytes it takes. -/
theorem reads_of_run (h : d.run (readBytes eof tooLarge limit) (bs ++ rest) = (.ok a, rest)) :
    Reads eof tooLarge limit d bs a := by
  rw [reads_iff]
  induction d generalizing bs with
  | done r =>
    rw [Dialog.run_done, Prod.mk.injEq, List.append_left_eq_self] at h
    rw [Dialog.run_done, h.1, h.2]
  | fail e => exact absurd (Prod.mk.inj h).1 (by simp)
  | ask n k ih =>
    rw [Dialog.run_ask, readBytes] at h ⊢
    split_ifs at h with hl hn
    · exact absurd (Prod.mk.inj h).1 (by simp)
    · -- what is left at the end was left after the first request
      change (k _).run (readBytes eof tooLarge limit) _ = _ at h
      have hsuffix : ((k _).run (readBytes eof tooLarge limit) _).2 <:+ _ :=
        run_readBytes_suffix (k ((bs ++ rest).take n)) ((bs ++ rest).drop n)
      rw [h] at hsuffix
      have hlen : rest.length ≤ _ := hsuffix.length_le
      rw [List.length_drop] at hlen
      rw [List.length_append] at hlen hn
      have hle : n ≤ bs.length := by omega
      rw [List.take_append_of_le_length hle, List.drop_append_of_le_length hle] at h
      rw [if_neg hl, if_pos hle]
      exact ih _ h
    · exact absurd (Prod.mk.inj h).1 (by simp)

/-- What is read has the length that was asked for. -/
theorem length_of_readBytes {n : ℕ} {s s' bs : Bytes}
    (h : readBytes eof tooLarge limit n s = (.ok bs, s')) : bs.length = n := by
  rw [readBytes] at h
  split_ifs at h with hl hn
  · exact absurd (Prod.mk.inj h).1 (by simp)
  · rw [← Except.ok.inj (Prod.mk.inj h).1, List.length_take, Nat.min_eq_left hn]
  · exact absurd (Prod.mk.inj h).1 (by simp)

/-- A run that returns has read what it has taken off the front. -/
theorem run_eq_ok_iff : d.run (readBytes eof tooLarge limit) bs = (.ok a, rest) ↔
    ∃ bs', bs = bs' ++ rest ∧ Reads eof tooLarge limit d bs' a := by
  constructor
  · intro h
    have hsuffix : (d.run (readBytes eof tooLarge limit) bs).2 <:+ bs := run_readBytes_suffix d bs
    rw [h] at hsuffix
    obtain ⟨bs', rfl⟩ := hsuffix
    exact ⟨bs', rfl, reads_of_run h⟩
  · rintro ⟨bs', rfl, h⟩
    exact h rest

theorem reads_pure_iff : Reads eof tooLarge limit (pure a : Reader E R) bs a' ↔
    bs = [] ∧ a = a' := by
  rw [reads_iff, Dialog.run_pure, Prod.mk.injEq, Except.ok.injEq, and_comm]

theorem not_reads_fail {e : E} : ¬ Reads eof tooLarge limit (.fail e : Reader E R) bs a := by
  rw [reads_iff, Dialog.run_fail]
  simp

theorem reads_query_iff {n : ℕ} :
    Reads eof tooLarge limit (Dialog.query n : Reader E Bytes) bs bs' ↔
      n ≤ limit ∧ bs.length = n ∧ bs' = bs := by
  constructor
  · intro h
    rw [reads_iff, Dialog.run_query, readBytes] at h
    split_ifs at h with hl hn
    · exact absurd (Prod.mk.inj h).1 (by simp)
    · obtain ⟨htake, hdrop⟩ := Prod.mk.inj h
      have hlen := List.drop_eq_nil_iff.mp hdrop
      obtain rfl := Except.ok.inj htake
      exact ⟨by omega, by omega, List.take_of_length_le hlen⟩
    · exact absurd (Prod.mk.inj h).1 (by simp)
  · rintro ⟨hl, hn, rfl⟩
    exact reads_query hn hl

/-- **Readers are composed, and taken apart.** -/
theorem reads_bind_iff : Reads eof tooLarge limit (d >>= f) bs b ↔
    ∃ a bs₁ bs₂, bs = bs₁ ++ bs₂ ∧ Reads eof tooLarge limit d bs₁ a ∧
      Reads eof tooLarge limit (f a) bs₂ b := by
  constructor
  · intro h
    rw [reads_iff, Dialog.run_bind] at h
    rcases hd : d.run (readBytes eof tooLarge limit) bs with ⟨e | a, bs₂⟩
    · rw [hd] at h
      exact absurd (Prod.mk.inj h).1 (by simp)
    · rw [hd] at h
      obtain ⟨bs₁, rfl, hread⟩ := run_eq_ok_iff.mp hd
      exact ⟨a, bs₁, bs₂, rfl, hread, reads_iff.mpr h⟩
  · rintro ⟨a, bs₁, bs₂, rfl, hd, hf⟩
    exact hd.bind hf

/-- **What is read tells where it ends.** -/
theorem Reads.prefix_free (h : Reads eof tooLarge limit d bs a)
    (h' : Reads eof tooLarge limit d (bs ++ rest) a') : rest = [] ∧ a = a' := by
  have hrun := (h rest).symm.trans (reads_iff.mp h')
  rw [Prod.mk.injEq, Except.ok.injEq] at hrun
  exact hrun.symm

/-! ## Formats -/

/-- The reader accepts the format: it reads what the format relates to a value, and nothing else. -/
def Admits (eof tooLarge : E) (limit : ℕ) (d : Reader E R) (F : R → Bytes → Prop) : Prop :=
  ∀ bs a, Reads eof tooLarge limit d bs a ↔ F a bs

/-- The format with one form for each value that it has. -/
def Written (Q : R → Prop) (enc : R → Bytes) : R → Bytes → Prop := fun a bs => Q a ∧ bs = enc a

variable {F : R → Bytes → Prop} {Q : R → Prop} {enc : R → Bytes}

theorem Admits.run_iff (h : Admits eof tooLarge limit d F) :
    d.run (readBytes eof tooLarge limit) bs = (.ok a, rest) ↔
      ∃ bs', bs = bs' ++ rest ∧ F a bs' := by
  simp only [run_eq_ok_iff, h _ _]

/-- A value computed from one that is read. -/
theorem Admits.bind_pure {g : R → S} {G : S → Bytes → Prop}
    (h : Admits eof tooLarge limit d F) (hG : ∀ b bs, G b bs ↔ ∃ a, F a bs ∧ g a = b) :
    Admits eof tooLarge limit (d >>= fun a => pure (g a)) G := by
  intro bs b
  rw [reads_bind_iff, hG]
  simp only [reads_pure_iff, h _ _]
  constructor
  · rintro ⟨a, bs₁, bs₂, rfl, ha, rfl, hb⟩
    exact ⟨a, by rwa [List.append_nil], hb⟩
  · rintro ⟨a, ha, hb⟩
    exact ⟨a, bs, [], (List.append_nil bs).symm, ha, rfl, hb⟩

/-- **Many elements** are read from one piece each. -/
theorem Admits.readMany (h : Admits eof tooLarge limit d F) (n : ℕ) :
    Admits eof tooLarge limit (readMany d n) fun as bs =>
      as.length = n ∧ ∃ pieces : List Bytes, bs = pieces.flatten ∧ List.Forall₂ F as pieces := by
  induction n with
  | zero =>
    intro bs as
    rw [Foundations.readMany, reads_pure_iff]
    constructor
    · rintro ⟨rfl, rfl⟩
      exact ⟨rfl, [], rfl, .nil⟩
    · rintro ⟨hlen, pieces, rfl, hpieces⟩
      obtain rfl := List.length_eq_zero_iff.mp hlen
      cases hpieces
      exact ⟨rfl, rfl⟩
  | succ n ih =>
    intro bs as
    rw [Foundations.readMany, reads_bind_iff]
    constructor
    · rintro ⟨a, bs₁, bs₂, rfl, ha, hrest⟩
      obtain ⟨as', bs₃, bs₄, rfl, has, hpure⟩ := reads_bind_iff.mp hrest
      obtain ⟨rfl, rfl⟩ := reads_pure_iff.mp hpure
      obtain ⟨hlen, pieces, rfl, hpieces⟩ := (ih _ _).mp has
      refine ⟨by rw [List.length_cons, hlen], bs₁ :: pieces, ?_, .cons ((h _ _).mp ha) hpieces⟩
      rw [List.append_nil, List.flatten_cons]
    · rintro ⟨hlen, pieces, rfl, hpieces⟩
      cases hpieces with
      | nil => simp at hlen
      | @cons a bs₁ as' pieces ha hpieces =>
        have has := (ih pieces.flatten as').mpr ⟨by simpa using hlen, pieces, rfl, hpieces⟩
        exact ⟨a, bs₁, pieces.flatten, rfl, (h _ _).mpr ha, has.bind_pure rfl⟩

theorem forall₂_written_iff {as : List R} {pieces : List Bytes} :
    List.Forall₂ (Written Q enc) as pieces ↔ (∀ a ∈ as, Q a) ∧ pieces = as.map enc := by
  induction as generalizing pieces with
  | nil => simp
  | cons a as ih =>
    cases pieces with
    | nil => simp
    | cons bs pieces =>
      simp only [List.forall₂_cons, ih, Written, List.forall_mem_cons, List.map_cons,
        List.cons.injEq]
      tauto

end Reads

end Foundations
