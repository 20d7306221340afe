import ElectrumZ.Bitcoin.Sha256
import ElectrumZ.Electrum.Commands
import Mathlib

/-!
# The status of a script

`ScriptStatus` against the status of the Electrum protocol: `null` for an empty history, and
otherwise the single SHA-256 of hash, `:`, height, `:` for each transaction.

* `toJson_ne_electrumStatus`: the two never agree. What is hashed lacks the second colon, it is
  hashed twice, and an empty history has a hash, too.
* `status_determines`: what is hashed determines the hashes and heights of the history, though
  nothing separates a height from the hash behind it.

That decimal digits determine an integer (`Int.repr_injective`) needs the whole of Mathlib: none of
its modules imports that part of the standard library.
-/

namespace ElectrumZ.Commands.ScriptStatus

open Foundations Bitcoin

/-- A transaction hash, in 64 hex digits. -/
def IsTxHash (s : String) : Prop :=
  s.toList.length = 64 ∧ ∀ c ∈ s.toList, c.toLower ∈ "0123456789abcdef".toList

theorem isTxHash_replicate {c : Char} (h : c.toLower ∈ "0123456789abcdef".toList) :
    IsTxHash (String.ofList (List.replicate 64 c)) := by
  constructor
  · rw [String.toList_ofList, List.length_replicate]
  · intro c' hc'
    rw [String.toList_ofList] at hc'
    exact List.eq_of_mem_replicate hc' ▸ h

/-! ## The status of the protocol -/

/-- What the protocol hashes. -/
def preimage (r : ScriptStatus) : String :=
  String.join (r.txn.map fun tx => tx.hash ++ ":" ++ toString tx.height ++ ":")

/-- The status of the protocol. -/
def electrumStatus (sha256 : Bytes → UInt256) (r : ScriptStatus) : Json :=
  if r.txn = [] then .null else .str (hexStr (sha256 (utf8 r.preimage)).data)

variable {sha256 : Bytes → UInt256} {r r' : ScriptStatus}

theorem length_le_utf8 (s : String) : s.toList.length ≤ (utf8 s).length := by
  rw [utf8, List.length_flatMap, ← List.length_map (fun c => (String.utf8EncodeChar c).length)]
  apply List.length_le_sum_of_one_le
  intro n hn
  obtain ⟨c, -, rfl⟩ := List.mem_map.mp hn
  exact List.length_pos_iff.mpr String.utf8EncodeChar_ne_nil

/-- With proper hashes, what the protocol hashes is longer than a digest. -/
theorem digest_ne_preimage (h : ∀ tx ∈ r.txn, IsTxHash tx.hash) (hne : r.txn ≠ [])
    (digest : UInt256) : digest.data ≠ utf8 r.preimage := by
  obtain ⟨tx, txn, htxn⟩ := List.exists_cons_of_ne_nil hne
  have htx := (h tx (htxn ▸ List.mem_cons_self)).1
  have hlength : 64 ≤ r.preimage.toList.length := by
    simp only [preimage, htxn, String.toList_join, List.map_cons, List.flatMap_cons,
      String.toList_append, List.length_append]
    omega
  intro heq
  have hdigest := digest.size_eq
  rw [heq] at hdigest
  have := length_le_utf8 r.preimage
  omega

/-- **The status is never that of the protocol**, as long as the digest of the string that is
hashed is not itself what the protocol hashes, and does not collide with it. -/
theorem toJson_ne_electrumStatus
    (hdigest : r.txn ≠ [] → (sha256 (utf8 r.statusString)).data ≠ utf8 r.preimage)
    (hcollision : sha256 (sha256 (utf8 r.statusString)).data = sha256 (utf8 r.preimage) →
      (sha256 (utf8 r.statusString)).data = utf8 r.preimage) :
    r.toJson sha256 ≠ r.electrumStatus sha256 := by
  intro h
  unfold toJson electrumStatus at h
  by_cases hnil : r.txn = []
  · rw [if_pos hnil] at h
    exact nomatch h
  · rw [if_neg hnil] at h
    have hdata := hexStr_inj (Json.str.inj h)
    exact hdigest hnil (hcollision (UInt256.ext hdata))

/-- A history of one transaction. -/
def oneTx : ScriptStatus := ⟨[⟨0, 100, String.ofList (List.replicate 64 'a')⟩]⟩

theorem isTxHash_oneTx : ∀ tx ∈ oneTx.txn, IsTxHash tx.hash := by
  intro tx htx
  obtain rfl := List.mem_singleton.mp htx
  exact isTxHash_replicate (by decide)

theorem oneTx_ne_electrumStatus : oneTx.toJson Sha256.digest ≠ oneTx.electrumStatus Sha256.digest :=
  toJson_ne_electrumStatus (fun hne => digest_ne_preimage isTxHash_oneTx hne _) fun h =>
    absurd h (by decide +kernel)

theorem not_electrumStatus : ¬ ∀ (r : ScriptStatus),
    r.toJson Sha256.digest = r.electrumStatus Sha256.digest := by
  intro h
  have hdigest := UInt256.ext (hexStr_inj (Json.str.inj (h oneTx)))
  exact absurd hdigest (by decide +kernel)

theorem IsTxHash.colon_notMem {s : String} (h : IsTxHash s) : ':' ∉ s.toList :=
  fun hc => absurd (h.2 ':' hc) (by decide)

theorem colon_notMem_toString (n : ℤ) : ':' ∉ (toString n).toList := by
  have hdigits (m : ℕ) : ':' ∉ m.repr.toList := by
    rw [Nat.toList_repr]
    intro hc
    exact absurd (Nat.isDigit_of_mem_toDigits (by decide) (by decide) hc) (by decide)
  rw [Int.toString_eq_repr, Int.repr_eq_if]
  split_ifs
  · exact hdigits _
  · rw [String.toList_append, List.mem_append, not_or]
    exact ⟨by decide, hdigits _⟩

/-! ## What is hashed determines the history -/

/-- What the status is about. -/
def history (r : ScriptStatus) : List (String × ℤ) := r.txn.map fun tx => (tx.hash, tx.height)

/-- What a transaction adds to the string that is hashed. -/
def entry (tx : TxInfo) : List Char := tx.hash.toList ++ ':' :: (toString tx.height).toList

theorem toList_statusString (r : ScriptStatus) :
    r.statusString.toList = r.txn.flatMap entry := by
  simp only [statusString, String.toList_join, List.map_map, List.flatMap_def]
  congr 2
  funext tx
  simp [entry]

variable {txn txn' : List TxInfo}

/-- What comes behind a height is nothing, or 64 characters and a colon. -/
theorem flatMap_entry_cases (h : ∀ tx ∈ txn, IsTxHash tx.hash) : txn.flatMap entry = [] ∨
    ∃ hash rest, txn.flatMap entry = hash ++ ':' :: rest ∧ hash.length = 64 ∧ ':' ∉ hash := by
  cases txn with
  | nil => exact .inl rfl
  | cons tx txn =>
    have htx := h tx List.mem_cons_self
    refine .inr ⟨tx.hash.toList, (toString tx.height).toList ++ txn.flatMap entry, ?_, htx.1,
      htx.colon_notMem⟩
    rw [List.flatMap_cons, entry, List.append_assoc, List.cons_append]

/-- Where a height ends is known from what comes behind it. -/
theorem height_inj {n n' : ℤ} (h : ∀ tx ∈ txn, IsTxHash tx.hash)
    (h' : ∀ tx ∈ txn', IsTxHash tx.hash)
    (heq : (toString n).toList ++ txn.flatMap entry = (toString n').toList ++ txn'.flatMap entry) :
    n = n' ∧ txn.flatMap entry = txn'.flatMap entry := by
  have hn := colon_notMem_toString n
  have hn' := colon_notMem_toString n'
  suffices hsplit : (toString n).toList = (toString n').toList ∧
      txn.flatMap entry = txn'.flatMap entry by
    refine ⟨Int.repr_injective ?_, hsplit.2⟩
    rw [← Int.toString_eq_repr, ← Int.toString_eq_repr]
    exact String.toList_inj.mp hsplit.1
  obtain hnil | ⟨hash, rest, hrest, hlength, hcolon⟩ := flatMap_entry_cases h <;>
    obtain hnil' | ⟨hash', rest', hrest', hlength', hcolon'⟩ := flatMap_entry_cases h'
  · rw [hnil, hnil', List.append_nil, List.append_nil] at heq
    exact ⟨heq, hnil.trans hnil'.symm⟩
  · rw [hnil, hrest', List.append_nil] at heq
    rw [heq] at hn
    simp at hn
  · rw [hrest, hnil', List.append_nil] at heq
    rw [← heq] at hn'
    simp at hn'
  · -- the first colon stands 64 characters behind the height
    rw [hrest, hrest', ← List.append_assoc, ← List.append_assoc] at heq
    obtain ⟨hleft, rfl⟩ := cut_inj (fun hc => (List.mem_append.mp hc).elim hn hcolon)
      (fun hc => (List.mem_append.mp hc).elim hn' hcolon') heq
    obtain ⟨hheight, rfl⟩ := List.append_inj' hleft (hlength.trans hlength'.symm)
    exact ⟨hheight, hrest.trans hrest'.symm⟩

theorem flatMap_entry_inj (h : ∀ tx ∈ txn, IsTxHash tx.hash)
    (h' : ∀ tx ∈ txn', IsTxHash tx.hash) (heq : txn.flatMap entry = txn'.flatMap entry) :
    (ScriptStatus.mk txn).history = (ScriptStatus.mk txn').history := by
  induction txn generalizing txn' with
  | nil =>
    cases txn' with
    | nil => rfl
    | cons tx' txn' => simp [entry] at heq
  | cons tx txn ih =>
    cases txn' with
    | nil => simp [entry] at heq
    | cons tx' txn' =>
      obtain ⟨htx, h⟩ := List.forall_mem_cons.mp h
      obtain ⟨htx', h'⟩ := List.forall_mem_cons.mp h'
      rw [List.flatMap_cons, List.flatMap_cons, entry, entry, List.append_assoc, List.append_assoc,
        List.cons_append, List.cons_append] at heq
      obtain ⟨hhash, hrest⟩ := cut_inj htx.colon_notMem htx'.colon_notMem heq
      obtain ⟨hheight, hrest⟩ := height_inj h h' hrest
      have hpair : (tx.hash, tx.height) = (tx'.hash, tx'.height) := by
        rw [String.toList_inj.mp hhash, hheight]
      exact congrArg₂ List.cons hpair (ih h h' hrest)

/-- **What is hashed determines the history**; so does the status, if no two strings collide. -/
theorem status_determines (h : ∀ tx ∈ r.txn, IsTxHash tx.hash)
    (h' : ∀ tx ∈ r'.txn, IsTxHash tx.hash) :
    (utf8 r.statusString = utf8 r'.statusString → r.history = r'.history) ∧
      ((r.getStatusHash sha256 = r'.getStatusHash sha256 →
          utf8 r.statusString = utf8 r'.statusString) →
        r.toJson sha256 = r'.toJson sha256 → r.history = r'.history) := by
  have hpreimage : utf8 r.statusString = utf8 r'.statusString → r.history = r'.history := by
    intro heq
    have hlist := congrArg String.toList (utf8_inj heq)
    rw [toList_statusString, toList_statusString] at hlist
    exact flatMap_entry_inj h h' hlist
  refine ⟨hpreimage, fun hcollision hjson => hpreimage (hcollision ?_)⟩
  exact UInt256.ext (hexStr_inj (Json.str.inj hjson))

/-- Two transactions, of which the first is not in a block yet. -/
def twoTx : ScriptStatus :=
  ⟨[⟨0, -1, String.ofList (List.replicate 64 'a')⟩, ⟨5, 10, String.ofList (List.replicate 64 '0')⟩]⟩

theorem isTxHash_twoTx : ∀ tx ∈ twoTx.txn, IsTxHash tx.hash := by
  intro tx htx
  obtain rfl | htx := List.mem_cons.mp htx
  · exact isTxHash_replicate (by decide)
  · obtain rfl := List.mem_singleton.mp htx
    exact isTxHash_replicate (by decide)

theorem status_determines_twoTx :
    (utf8 oneTx.statusString = utf8 twoTx.statusString → oneTx.history = twoTx.history) ∧
      ((oneTx.getStatusHash Sha256.digest = twoTx.getStatusHash Sha256.digest →
          utf8 oneTx.statusString = utf8 twoTx.statusString) →
        oneTx.toJson Sha256.digest = twoTx.toJson Sha256.digest →
          oneTx.history = twoTx.history) :=
  status_determines isTxHash_oneTx isTxHash_twoTx

end ElectrumZ.Commands.ScriptStatus
