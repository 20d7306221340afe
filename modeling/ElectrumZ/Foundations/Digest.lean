import ElectrumZ.Foundations.Bytes

/-!
# Digests computed piece by piece

A hash function the way C libraries offer it: a context is started, absorbs bytes in chunks and
gives the digest.

* `Digest.Holds`: what a context has absorbed since it was started; `Holds.finish`: its digest.
* `Digest.iterated`: a hash function that goes on from a chaining value. A context that is not
  started goes on from the value it happens to have.
-/

namespace Foundations

/-- A hash function with a digest of `size` bytes. -/
structure Digest (size : ℕ) where
  Context : Type
  /-- The context whose bytes are all zero. -/
  zero : Context
  /-- Load the initial state. -/
  starts : Context → Context
  update : Context → Bytes → Context
  /-- The digest, and what is left of the context. -/
  finish : Context → Bytes × Context
  /-- The function that is computed. -/
  hash : Bytes → Bytes
  length_finish : ∀ c, (finish c).1.length = size
  /-- It does not matter in which chunks the bytes come. -/
  finish_update : ∀ c (chunks : List Bytes),
    (finish (chunks.foldl update (starts c))).1 = hash chunks.flatten

namespace Digest

variable {size : ℕ} (d : Digest size)

/-- A context that is set to zero. -/
def init : d.Context := d.zero

/-- The whole context is set to zero. -/
def free (_ : d.Context) : d.Context := d.zero

/-- The context has been started, and has absorbed some bytes since. -/
inductive Holds : d.Context → Bytes → Prop
  | starts (c : d.Context) : Holds (d.starts c) []
  | update {c : d.Context} {data : Bytes} (h : Holds c data) (bs : Bytes) :
      Holds (d.update c bs) (data ++ bs)

variable {d} {c : d.Context} {data : Bytes}

theorem Holds.exists_chunks (h : d.Holds c data) : ∃ c₀, ∃ chunks : List Bytes,
    c = chunks.foldl d.update (d.starts c₀) ∧ data = chunks.flatten := by
  induction h with
  | starts c => exact ⟨c, [], rfl, rfl⟩
  | update _ bs ih =>
    obtain ⟨c₀, chunks, rfl, rfl⟩ := ih
    refine ⟨c₀, chunks ++ [bs], ?_, ?_⟩
    · rw [List.foldl_append, List.foldl_cons, List.foldl_nil]
    · rw [List.flatten_append, List.flatten_singleton]

/-- **The digest of what the context has absorbed.** -/
theorem Holds.finish (h : d.Holds c data) : (d.finish c).1 = d.hash data := by
  obtain ⟨c₀, chunks, rfl, rfl⟩ := h.exists_chunks
  exact d.finish_update c₀ chunks

theorem length_hash (d : Digest size) (data : Bytes) : (d.hash data).length = size := by
  have hfinish := ((Holds.starts d.zero).update data).finish
  rw [List.nil_append] at hfinish
  rw [← hfinish]
  exact d.length_finish _

/-! ## Chaining values -/

section Iterated

variable {σ : Type} (iv zero : σ) (output : σ → Bytes → Bytes)
  (length_output : ∀ s data, (output s data).length = size)

theorem foldl_append_chunks (s : σ) (data : Bytes) (chunks : List Bytes) :
    chunks.foldl (fun c bs => (c.1, c.2 ++ bs)) (s, data) = (s, data ++ chunks.flatten) := by
  induction chunks generalizing data with
  | nil => rw [List.foldl_nil, List.flatten_nil, List.append_nil]
  | cons bs chunks ih => rw [List.foldl_cons, ih, List.flatten_cons, List.append_assoc]

/-- The hash function whose digest is what the absorbed bytes make of a chaining value. -/
def iterated : Digest size where
  Context := σ × Bytes
  zero := (zero, [])
  starts _ := (iv, [])
  update c bs := (c.1, c.2 ++ bs)
  finish c := (output c.1 c.2, c)
  hash := output iv
  length_finish c := length_output c.1 c.2
  finish_update _ chunks := by rw [foldl_append_chunks, List.nil_append]

end Iterated

end Digest

end Foundations
