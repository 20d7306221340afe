import ElectrumZ.Blockchain.ReturnCodes
import ElectrumZ.Net.Answers

/-!
# The key of a subscription

`blockchain.scripthash.subscribe` takes the hash of a script in hex digits, last byte first, and
looks it up in `addr`; `PreLoadBlocks` stores the outputs of the script there.

* `storedKeys_indexOutput`, `searchedKeys_getTXOs`: the one key under which an output is stored, and
  the one that is searched, whatever the database answers.
* `Searches`: what the handler does on a session, with one key searched.
* `subscription_key`: they are the same, for every spelling of the hash, and those of two scripts
  are the same only if the scripts have the same digest.
-/

namespace ElectrumZ.Net

open Foundations Bitcoin Blockchain Commands Dialog

/-! ## Keys -/

/-- The key a call stores something under in `addr`. -/
def putKey : Call → Option Bytes
  | .put .addr key _ => some key
  | _ => none

/-- The key a call searches in `addr`. -/
def getKey : Call → Option Bytes
  | .get .addr key => some key
  | _ => none

/-- The keys something is stored under in `addr`, in the order of the calls. -/
def storedKeys (tr : Calls) : List Bytes := tr.filterMap fun e => putKey e.1

/-- The keys that are searched in `addr`. -/
def searchedKeys (tr : Calls) : List Bytes := tr.filterMap fun e => getKey e.1

variable {tr : Calls}

theorem storedKeys_of_resizing (h : ∀ e ∈ tr, e.1.resizing = true) : storedKeys tr = [] := by
  apply List.filterMap_eq_nil_iff.mpr
  intro e he
  have hresizing := h e he
  cases hcall : e.1 <;> rw [hcall] at hresizing <;> first | rfl | exact nomatch hresizing

theorem searchedKeys_of_not_onStarted (h : ∀ e ∈ tr, e.1.onStarted = false) :
    searchedKeys tr = [] := by
  apply List.filterMap_eq_nil_iff.mpr
  intro e he
  have hstarted := h e he
  cases hcall : e.1 <;> rw [hcall] at hstarted <;> first | rfl | exact nomatch hstarted

theorem storedKeys_tryBlockAgain {res : Except Stop Unit} (h : Trace tryBlockAgain tr res) :
    storedKeys tr = [] := by
  obtain ⟨a, tr', rfl, hgrow⟩ := trace_call_bind_iff.mp h
  obtain ⟨e, hgrow, -⟩ | ⟨tr₁, err, tr₂, rfl, hgrow, hend⟩ := trace_bind_iff.mp hgrow
  · obtain ⟨err, hres, -⟩ := increaseMapSize_spec hgrow
    exact nomatch hres
  · obtain ⟨err', -, -, hresizing, -⟩ := increaseMapSize_spec hgrow
    have hnil : tr₂ = [] := by
      split_ifs at hend
      · exact (trace_fail_iff.mp hend).1
      · exact (trace_fail_iff.mp hend).1
    rw [hnil, List.append_nil]
    suffices hkeys : storedKeys tr₁ = [] from hkeys
    exact storedKeys_of_resizing hresizing

/-- An output is stored under its key and no other. -/
theorem storedKeys_indexOutput (sha256 : Bytes → UInt256) (txHash : UInt256) (n : ℕ)
    (o : CTxOut) :
    Each (fun tr _ => storedKeys tr = [addrKey sha256 o]) (indexOutput sha256 txHash n o) := by
  intro tr res h
  obtain ⟨r, tr₁, rfl, hput⟩ := trace_call_bind_iff.mp h
  suffices hrest : storedKeys tr₁ = [] from congrArg (addrKey sha256 o :: ·) hrest
  split_ifs at hput with hfailed hfull hexists
  · exact storedKeys_tryBlockAgain hput
  · rw [(trace_pure_iff.mp hput).1]
    rfl
  · rw [(trace_fail_iff.mp hput).1]
    rfl
  · obtain ⟨r', tr₂, rfl, hcursor⟩ := trace_call_bind_iff.mp hput
    suffices hrest : storedKeys tr₂ = [] from hrest
    unfold putFailed at hcursor
    split_ifs at hcursor with hcode hfull
    · exact storedKeys_tryBlockAgain hcursor
    · rw [(trace_fail_iff.mp hcursor).1]
      rfl
    · rw [(trace_pure_iff.mp hcursor).1]
      rfl

/-- A lookup searches the key it is given and no other. -/
theorem searchedKeys_getTXOs (scriptHash : UInt256) (ntx : List TXO) :
    Each (fun tr _ => searchedKeys tr = [scriptHash.serialize]) (getTXOs scriptHash ntx) := by
  intro tr res h
  rw [getTXOs_eq] at h
  obtain ⟨tr₁, err, r, tr₂, rfl, hstart, hanswer⟩ := trace_getTXOsWith.mp h
  obtain ⟨-, -, -, hstarted, -⟩ := startTXOTxn_spec hstart
  have hafter : searchedKeys tr₂ = [] := by
    obtain ⟨-, ⟨a, rfl⟩, -⟩ | ⟨-, ⟨a, rfl⟩, -⟩ | ⟨-, ⟨-, ⟨a, rfl⟩, -⟩ | ⟨-, rfl, -⟩⟩ :=
      trace_answerLookup hanswer <;> rfl
  have hbefore := searchedKeys_of_not_onStarted hstarted
  unfold searchedKeys at hbefore hafter ⊢
  rw [List.filterMap_append, hbefore, List.nil_append, List.filterMap_cons, hafter]
  rfl

/-! ## The handler -/

variable {env : Env} {o : CTxOut} {digits : String}

/-- The digits name the script of the output: its digest in hex, last byte first. -/
def Names (env : Env) (digits : String) (o : CTxOut) : Prop :=
  Spells digits (SHash env.sha256 o.scriptPubKey).data.reverse

theorem scriptHashBytes_of_names (h : Names env digits o) :
    scriptHashBytes digits = (SHash env.sha256 o.scriptPubKey).data := by
  rw [scriptHashBytes, parseHex_of_spells h, List.reverse_reverse]

/-- With such a parameter the handler looks up the digest of the script. -/
theorem shSubscribe_of_names (h : Names env digits o) {cmd : Json} {rest : List Json}
    (hp : cmd.member "params" = some (.arr (.str digits :: rest))) (id : ℤ) :
    shSubscribe env cmd id = (do
      let _ ← onStore (getTXOs (SHash env.sha256 o.scriptPubKey) [])
      succeed env id (SHSubscribeResponse.toJson env.sha256 ⟨⟨[]⟩⟩)) := by
  funext s
  have hbytes : hashParam (.arr (.str digits :: rest)) = (SHash env.sha256 o.scriptPubKey).data :=
    scriptHashBytes_of_names h
  have hblob : blob (hashParam (.arr (.str digits :: rest))) s =
      (.ok (SHash env.sha256 o.scriptPubKey), s) := by
    rw [hbytes]
    exact run_blob (UInt256.size_eq _)
  rw [run_shSubscribe_of_array hp rfl, Action.bind_of_ok hblob]

/-- On this session the handler does a lookup of the output's script hash, which searches that one
key, and answers. -/
def Searches (env : Env) (o : CTxOut) (cmd : Json) (id : ℤ) (s : Session) : Prop :=
  searchedKeys ((getTXOs (SHash env.sha256 o.scriptPubKey) []).transcript lmdb s.store) =
      [addrKey env.sha256 o] ∧
    shSubscribe env cmd id s =
      match (getTXOs (SHash env.sha256 o.scriptPubKey) []).run lmdb s.store with
      | (.ok _, store) =>
        succeed env id (SHSubscribeResponse.toJson env.sha256 ⟨⟨[]⟩⟩) { s with store }
      | (.error stop, store) => (.error (.ofStop stop), { s with store })

theorem searches_of_names (h : Names env digits o) {cmd : Json} {rest : List Json}
    (hp : cmd.member "params" = some (.arr (.str digits :: rest))) (id : ℤ) {s : Session}
    (hs : s.store.txn = none) : Searches env o cmd id s := by
  constructor
  · refine searchedKeys_getTXOs _ _ _ _ (trace_transcript fun c t e t' hc => ?_)
    obtain rfl := lmdb_blocked hc
    exact run_getTXOs_ne_blocked _ _ hs
  · rw [shSubscribe_of_names h hp, Action.bind_eq, onStore]
    rcases (getTXOs (SHash env.sha256 o.scriptPubKey) []).run lmdb s.store with
      ⟨stop | r, store⟩ <;> rfl

/-- **The key that is searched is the key that is stored.** Two scripts are looked up under one key
only if they have one digest. -/
theorem subscription_key (h : Names env digits o) {cmd : Json} {rest : List Json}
    (hp : cmd.member "params" = some (.arr (.str digits :: rest))) (id : ℤ) :
    shSubscribe env cmd id = (do
        let _ ← onStore (getTXOs (SHash env.sha256 o.scriptPubKey) [])
        succeed env id (SHSubscribeResponse.toJson env.sha256 ⟨⟨[]⟩⟩)) ∧
      Each (fun tr _ => searchedKeys tr = [addrKey env.sha256 o])
        (getTXOs (SHash env.sha256 o.scriptPubKey) []) ∧
      (∀ txHash n, Each (fun tr _ => storedKeys tr = [addrKey env.sha256 o])
        (indexOutput env.sha256 txHash n o)) ∧
      (∀ o' digits', Names env digits' o' → scriptHashBytes digits' = scriptHashBytes digits →
        SHash env.sha256 o'.scriptPubKey = SHash env.sha256 o.scriptPubKey) ∧
      ∀ s : Session, s.store.txn = none → Searches env o cmd id s := by
  refine ⟨shSubscribe_of_names h hp id, searchedKeys_getTXOs _ _,
    fun txHash n => storedKeys_indexOutput _ _ _ _, fun o' digits' h' hkey => ?_,
    fun s hs => searches_of_names h hp id hs⟩
  rw [scriptHashBytes_of_names h, scriptHashBytes_of_names h'] at hkey
  exact UInt256.ext hkey

/-- The hash of the script `OP_1` in hex, last byte first. -/
def trueDigits : String := hexStr (Sha256.digest [0x51]).data.reverse

theorem subscription_key_true :
    shSubscribe pingEnv (.obj [("params", .arr [.str trueDigits])]) 1 = (do
        let _ ← onStore (getTXOs (SHash pingEnv.sha256 [0x51]) [])
        succeed pingEnv 1 (SHSubscribeResponse.toJson pingEnv.sha256 ⟨⟨[]⟩⟩)) ∧
      Each (fun tr _ => searchedKeys tr = [addrKey pingEnv.sha256 ⟨50, [0x51]⟩])
        (getTXOs (SHash pingEnv.sha256 [0x51]) []) ∧
      (∀ txHash n, Each (fun tr _ => storedKeys tr = [addrKey pingEnv.sha256 ⟨50, [0x51]⟩])
        (indexOutput pingEnv.sha256 txHash n ⟨50, [0x51]⟩)) ∧
      (∀ o' digits', Names pingEnv digits' o' →
        scriptHashBytes digits' = scriptHashBytes trueDigits →
          SHash pingEnv.sha256 o'.scriptPubKey = SHash pingEnv.sha256 [0x51]) ∧
      ∀ s : Session, s.store.txn = none →
        Searches pingEnv ⟨50, [0x51]⟩ (.obj [("params", .arr [.str trueDigits])]) 1 s :=
  subscription_key (o := ⟨50, [0x51]⟩) (spells_hexStr _) rfl 1

end ElectrumZ.Net
