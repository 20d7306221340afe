import ElectrumZ.Bitcoin.Hash
import ElectrumZ.Bitcoin.Sha256
import ElectrumZ.Foundations.Digest
import Mathlib.Data.List.Induction

/-!
# The hasher classes

`CSHash256`, `CHash256` and `CHash160` of `hash.h`, over the SHA-256 and the RIPEMD-160 of a
library, which are parameters. `Reset` frees the contexts and does not start them again.

* `HasherClass` is what the classes have in common: an object is constructed, written to and reset,
  and gives a digest.
* `cSHash256_digest`, `cHash256_digest`, `cHash160_digest`: without a `Reset` the digest is the one
  of the data that was written.
* `digest_iterated`: after a `Reset` the library goes on from a chaining value that is zero.
* `hashers_iff`: **the digest is the one of the data since the last `Reset`**, with any library,
  exactly if there is no `Reset`.
-/

namespace ElectrumZ.Bitcoin

open Foundations

/-! ## Objects and calls -/

/-- What the three classes have in common. -/
structure HasherClass where
  Object : Type
  construct : Object
  write : Object → Bytes → Object
  reset : Object → Object
  /-- The digest, and what is left of the object. -/
  finalize : Object → Bytes × Object

/-- The calls that lead to a digest. -/
inductive HasherCall
  | write (data : Bytes)
  | reset
  deriving DecidableEq, Repr

namespace HasherClass

variable (H : HasherClass)

/-- The object after one call. -/
def call (o : H.Object) : HasherCall → H.Object
  | .write data => H.write o data
  | .reset => H.reset o

/-- The object after some calls. -/
def run (calls : List HasherCall) : H.Object := calls.foldl H.call H.construct

/-- The digest after some calls. -/
def digest (calls : List HasherCall) : Bytes := (H.finalize (H.run calls)).1

@[simp] theorem run_nil : H.run [] = H.construct := rfl

@[simp] theorem run_concat (calls : List HasherCall) (c : HasherCall) :
    H.run (calls ++ [c]) = H.call (H.run calls) c := by
  rw [run, run, List.foldl_append, List.foldl_cons, List.foldl_nil]

end HasherClass

/-- The data since the last reset, after one more call. -/
def HasherCall.extend (data : Bytes) : HasherCall → Bytes
  | .write bs => data ++ bs
  | .reset => []

/-- The data that was written since the last reset, or since the construction. -/
def sinceReset (calls : List HasherCall) : Bytes := calls.foldl HasherCall.extend []

@[simp] theorem sinceReset_nil : sinceReset [] = [] := rfl

@[simp] theorem sinceReset_concat (calls : List HasherCall) (c : HasherCall) :
    sinceReset (calls ++ [c]) = c.extend (sinceReset calls) := by
  rw [sinceReset, sinceReset, List.foldl_append, List.foldl_cons, List.foldl_nil]

theorem sinceReset_writes (pieces : List Bytes) :
    sinceReset (pieces.map .write) = pieces.flatten := by
  induction pieces using List.reverseRecOn with
  | nil => rfl
  | append_singleton pieces bs ih =>
    rw [List.map_append, List.map_singleton, sinceReset_concat, ih, List.flatten_append,
      List.flatten_singleton]
    rfl

/-! ## The classes -/

section Classes

variable (sha : Digest 32) (ripemd : Digest 20)

/-- The single SHA-256. -/
def CSHash256 : HasherClass where
  Object := sha.Context
  construct := sha.starts sha.init
  write c data := sha.update c data
  reset c := sha.free c
  finalize c := sha.finish c

/-- The double SHA-256. -/
def CHash256 : HasherClass where
  Object := sha.Context
  construct := sha.starts sha.init
  write c data := sha.update c data
  reset c := sha.free c
  finalize c :=
    let (buf, c) := sha.finish c
    -- second round, on the same context
    sha.finish (sha.update (sha.starts (sha.free c)) buf)

/-- The RIPEMD-160 of the SHA-256. -/
def CHash160 : HasherClass where
  Object := sha.Context × ripemd.Context
  construct := (sha.starts sha.init, ripemd.starts ripemd.init)
  write o data := (sha.update o.1 data, o.2)
  reset o := (sha.free o.1, ripemd.free o.2)
  finalize o :=
    let (buf, sha_ctx) := sha.finish o.1
    let (hash, ctx) := ripemd.finish (ripemd.update o.2 buf)
    (hash, sha_ctx, ctx)

/-- The two classes over SHA-256 differ in `Finalize` alone. -/
theorem cHash256_run (calls : List HasherCall) :
    (CHash256 sha).run calls = (CSHash256 sha).run calls := rfl

/-- What `CHash160` does to its first context. -/
theorem cHash160_run_fst (calls : List HasherCall) :
    ((CHash160 sha ripemd).run calls).1 = (CSHash256 sha).run calls := by
  induction calls using List.reverseRecOn with
  | nil => rfl
  | append_singleton calls c ih =>
    rw [HasherClass.run_concat, HasherClass.run_concat, ← ih]
    cases c <;> rfl

/-- The second context is not touched before `Finalize`, unless it is freed. -/
theorem cHash160_run_snd (calls : List HasherCall) :
    ((CHash160 sha ripemd).run calls).2 =
      if .reset ∈ calls then ripemd.zero else ripemd.starts ripemd.init := by
  induction calls using List.reverseRecOn with
  | nil => rfl
  | append_singleton calls c ih =>
    rw [HasherClass.run_concat]
    cases c with
    | write data =>
      have hmem : .reset ∈ calls ↔ .reset ∈ calls ++ [.write data] := by simp
      exact ih.trans (if_congr hmem rfl rfl)
    | reset =>
      have hmem : .reset ∈ calls ++ [.reset] := by simp
      exact (if_pos hmem).symm

/-! ## Without a reset -/

variable {sha ripemd} {calls : List HasherCall}

/-- The context holds what was written. -/
theorem cSHash256_holds (h : .reset ∉ calls) :
    sha.Holds ((CSHash256 sha).run calls) (sinceReset calls) := by
  induction calls using List.reverseRecOn with
  | nil => exact .starts sha.init
  | append_singleton calls c ih =>
    rw [List.mem_append, not_or, List.mem_singleton] at h
    rw [HasherClass.run_concat, sinceReset_concat]
    cases c with
    | write data => exact (ih h.1).update data
    | reset => exact absurd rfl h.2

theorem cSHash256_digest (h : .reset ∉ calls) :
    (CSHash256 sha).digest calls = sha.hash (sinceReset calls) :=
  (cSHash256_holds h).finish

theorem cHash256_digest (h : .reset ∉ calls) :
    (CHash256 sha).digest calls = sha.hash (sha.hash (sinceReset calls)) := by
  have hfirst : (sha.finish ((CHash256 sha).run calls)).1 = sha.hash (sinceReset calls) :=
    (cSHash256_holds h).finish
  have hsecond := ((Digest.Holds.starts (sha.free (sha.finish ((CHash256 sha).run calls)).2)).update
    (sha.finish ((CHash256 sha).run calls)).1).finish
  rw [List.nil_append, hfirst] at hsecond
  rw [← hsecond, ← hfirst]
  rfl

theorem cHash160_digest (h : .reset ∉ calls) :
    (CHash160 sha ripemd).digest calls = ripemd.hash (sha.hash (sinceReset calls)) := by
  have hsha : (sha.finish ((CHash160 sha ripemd).run calls).1).1 = sha.hash (sinceReset calls) := by
    rw [cHash160_run_fst]
    exact (cSHash256_holds h).finish
  have hripemd := ((Digest.Holds.starts ripemd.init).update (sha.hash (sinceReset calls))).finish
  rw [List.nil_append] at hripemd
  rw [← hripemd, ← hsha, HasherClass.digest]
  change (ripemd.finish (ripemd.update ((CHash160 sha ripemd).run calls).2 _)).1 = _
  rw [cHash160_run_snd, if_neg h]

/-! ## After a reset -/

section Iterated

variable {σ : Type} {iv zero : σ} {output : σ → Bytes → Bytes}
  {length_output : ∀ s data, (output s data).length = 32}

/-- After a reset the context holds the data as well, but on a chaining value that is zero. -/
theorem run_iterated (calls : List HasherCall) :
    (CSHash256 (.iterated iv zero output length_output)).run calls =
      (if .reset ∈ calls then zero else iv, sinceReset calls) := by
  induction calls using List.reverseRecOn with
  | nil => rfl
  | append_singleton calls c ih =>
    rw [HasherClass.run_concat, ih, sinceReset_concat]
    cases c with
    | write data =>
      have hmem : .reset ∈ calls ↔ .reset ∈ calls ++ [.write data] := by simp
      exact Prod.ext (if_congr hmem rfl rfl) rfl
    | reset =>
      have hmem : .reset ∈ calls ++ [.reset] := by simp
      exact Prod.ext (if_pos hmem).symm rfl

/-- **The digest** of the chaining value that the first context is left with. -/
theorem digest_iterated (calls : List HasherCall) :
    (CSHash256 (.iterated iv zero output length_output)).digest calls =
      output (if .reset ∈ calls then zero else iv) (sinceReset calls) := by
  rw [HasherClass.digest, run_iterated]
  rfl

theorem digest_iterated_cHash256 (calls : List HasherCall) :
    (CHash256 (.iterated iv zero output length_output)).digest calls =
      output iv (output (if .reset ∈ calls then zero else iv) (sinceReset calls)) := by
  rw [HasherClass.digest, cHash256_run, run_iterated]
  rfl

variable {τ : Type} {iv' zero' : τ} {output' : τ → Bytes → Bytes}
  {length_output' : ∀ s data, (output' s data).length = 20}

theorem digest_iterated_cHash160 (calls : List HasherCall) :
    (CHash160 (.iterated iv zero output length_output)
        (.iterated iv' zero' output' length_output')).digest calls =
      output' (if .reset ∈ calls then zero' else iv')
        (output (if .reset ∈ calls then zero else iv) (sinceReset calls)) := by
  have hfst := cHash160_run_fst (.iterated iv zero output length_output)
    (.iterated iv' zero' output' length_output') calls
  have hsnd := cHash160_run_snd (.iterated iv zero output length_output)
    (.iterated iv' zero' output' length_output') calls
  rw [run_iterated] at hfst
  rw [HasherClass.digest]
  change output' (_ : τ × Bytes).1
    ((_ : τ × Bytes).2 ++ output (_ : σ × Bytes).1 (_ : σ × Bytes).2) = _
  rw [hfst, hsnd]
  split_ifs <;> rfl

end Iterated

/-! ## Any library -/

/-- The last byte of the data, one more if the context was started. -/
def mark (started : Bool) (data : Bytes) : UInt8 := data.getLastD 0 + if started then 1 else 0

/-- A library that tells whether its contexts were started. -/
def marked (n : ℕ) : Digest (n + 1) :=
  .iterated true false (fun started data => List.replicate n 0 ++ [mark started data])
    fun _ _ => by rw [List.length_append, List.length_replicate, List.length_singleton]

theorem marked_hash (n : ℕ) (data : Bytes) :
    (marked n).hash data = List.replicate n 0 ++ [mark true data] := rfl

theorem mark_replicate (started started' : Bool) (n : ℕ) (data : Bytes) :
    mark started (List.replicate n 0 ++ [mark started' data]) =
      data.getLastD 0 + (if started' then 1 else 0) + if started then 1 else 0 := by
  rw [mark, List.getLastD_concat, mark]

/-- Digests that are equal end with the same mark. -/
theorem mark_eq_of_replicate {n : ℕ} {x y : UInt8}
    (h : List.replicate n 0 ++ [x] = List.replicate n 0 ++ [y]) : x = y :=
  List.singleton_inj.mp (List.append_cancel_left h)

/-- **A hasher gives the digest of the data since the last reset**, whatever library it uses, if
there is no reset, and only then. -/
theorem hashers_iff (calls : List HasherCall) :
    ((∀ sha : Digest 32, (CSHash256 sha).digest calls = sha.hash (sinceReset calls)) ↔
      .reset ∉ calls) ∧
    ((∀ sha : Digest 32, (CHash256 sha).digest calls = sha.hash (sha.hash (sinceReset calls))) ↔
      .reset ∉ calls) ∧
    ((∀ (sha : Digest 32) (ripemd : Digest 20), (CHash160 sha ripemd).digest calls =
      ripemd.hash (sha.hash (sinceReset calls))) ↔ .reset ∉ calls) := by
  refine ⟨⟨fun h hreset => ?_, fun h sha => cSHash256_digest h⟩,
    ⟨fun h hreset => ?_, fun h sha => cHash256_digest h⟩,
    ⟨fun h hreset => ?_, fun h sha ripemd => cHash160_digest h⟩⟩
  · have hmark := (digest_iterated calls).symm.trans (h (marked 31))
    rw [if_pos hreset, marked_hash] at hmark
    replace hmark := mark_eq_of_replicate hmark
    simp [mark] at hmark
  · have hmark := (digest_iterated_cHash256 calls).symm.trans (h (marked 31))
    rw [if_pos hreset, marked_hash, marked_hash] at hmark
    replace hmark := mark_eq_of_replicate hmark
    rw [mark_replicate, mark_replicate] at hmark
    simp at hmark
  · have hmark := (digest_iterated_cHash160 calls).symm.trans (h (marked 31) (marked 19))
    simp only [if_pos hreset, marked_hash] at hmark
    replace hmark := mark_eq_of_replicate hmark
    rw [mark_replicate, mark_replicate] at hmark
    grind

end Classes

/-! ### SHA-256 -/

/-- The digest that goes on from a state. -/
def Sha256.digestFrom (s : Sha256.State) (data : Bytes) : UInt256 :=
  let s := Sha256.blocks ((data.length + 72) / 64) (Sha256.pad data) s
  ⟨[s.a, s.b, s.c, s.d, s.e, s.f, s.g, s.h].flatMap Sha256.wordBytes, by simp [Sha256.wordBytes]⟩

/-- SHA-256 as the library computes it. -/
def Sha256.library : Digest 32 :=
  .iterated Sha256.State.init ⟨0, 0, 0, 0, 0, 0, 0, 0⟩
    (fun s data => (Sha256.digestFrom s data).data) fun s data => (Sha256.digestFrom s data).size_eq

/-- A hasher that is reset and written to again does not give the digest of the new data. -/
theorem not_hashers : ¬ ∀ (sha : Digest 32) (ripemd : Digest 20) (calls : List HasherCall),
    (CSHash256 sha).digest calls = sha.hash (sinceReset calls) ∧
    (CHash256 sha).digest calls = sha.hash (sha.hash (sinceReset calls)) ∧
    (CHash160 sha ripemd).digest calls = ripemd.hash (sha.hash (sinceReset calls)) := by
  intro h
  have hdigest := (h Sha256.library (marked 19)
    [.write (ascii "abc"), .reset, .write (ascii "abc")]).1
  exact absurd hdigest (by decide +kernel)

/-! ## The hash functions of the header -/

section Functions

variable (sha : Digest 32)

/-- The function that the library computes. -/
def ofLibrary (data : Bytes) : UInt256 := ⟨sha.hash data, sha.length_hash data⟩

/-- The function that SHA-256 as the library computes it is. -/
theorem ofLibrary_library : ofLibrary Sha256.library = Sha256.digest := by
  funext data
  apply UInt256.ext
  rfl

theorem not_reset_writes (pieces : List Bytes) :
    HasherCall.reset ∉ pieces.map HasherCall.write := by
  simp

/-- `SHash` writes its data to a `CSHash256`, and a writer of several pieces does the same. -/
theorem sHash_eq (pieces : List Bytes) :
    (CSHash256 sha).digest (pieces.map .write) = (SHash (ofLibrary sha) pieces.flatten).data := by
  rw [cSHash256_digest (not_reset_writes pieces), sinceReset_writes]
  rfl

/-- `Hash`, of one object or of two, and `CHashWriter` write to a `CHash256`. -/
theorem hash_eq (pieces : List Bytes) :
    (CHash256 sha).digest (pieces.map .write) = (Hash (ofLibrary sha) pieces.flatten).data := by
  rw [cHash256_digest (not_reset_writes pieces), sinceReset_writes]
  rfl

end Functions

end ElectrumZ.Bitcoin
