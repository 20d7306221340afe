import ElectrumZ.Blockchain.Interleaving

/-!
# No block is lost

What the workers have committed, together with what they still owe, is what is in the files they
have taken.

* `Inv.moves` and `Inv.join`: a step of a worker and the end of a phase keep the account.
* `complete_of_undisturbed`: **no block is lost** in a run whose resizes are undisturbed.
* `not_complete`: a resize that meets a transaction costs the rest of a file.
-/

namespace ElectrumZ.Blockchain

open Foundations Bitcoin

namespace Pool

variable {sha256 : Bytes → UInt256} {files : List Bytes} {tables : Tables} {s s' : Pool} {k : ℕ}
  {w w' : Position}

/-- How many files have been taken in a phase. -/
def through (files : List Bytes) (s : Pool) (mode : ℕ) : ℕ :=
  if mode = s.mode then s.pos_txo else if mode < s.mode then files.length else 0

/-- The blocks that the workers have still to commit in a phase. -/
def owed (s : Pool) (mode : ℕ) : List CBlock :=
  if mode = s.mode then s.workers.flatMap Position.owes else []

/-- The tables hold what has been committed. -/
def Stored (sha256 : Bytes → UInt256) (tables : Tables) (s : Pool) : Prop :=
  ∃ v, s.committed.foldlM (fun v b => addBlock sha256 b.1 v b.2) tables.opened = some v ∧
    s.store.tables.opened = v

/-- The account of the files and of the blocks in a phase. -/
structure Accounted (files : List Bytes) (s : Pool) (mode : ℕ) : Prop where
  taken : s.takenIn mode = List.range (s.through files mode)
  blocks : (s.committedIn mode ++ s.owed mode).Perm
    ((files.take (s.through files mode)).flatMap blocksOf)

/-- What holds in every order of the steps. -/
structure Inv (sha256 : Bytes → UInt256) (files : List Bytes) (tables : Tables) (s : Pool) :
    Prop where
  size : s.workers ≠ []
  pos : s.pos_txo ≤ files.length
  mode : s.mode ≤ 1
  owned : Owned s
  stands : ∀ k w, s.workers[k]? = some w → Stands sha256 s k w
  finished : .finished ∈ s.workers → s.pos_txo = files.length
  accounted : ∀ mode, Accounted files s mode
  returned : s.returned = true → s.mode = 1 ∧ ∀ w ∈ s.workers, w = .finished
  stored : Stored sha256 tables s

/-! ## A step of a worker -/

/-- What the other workers owe stays. -/
theorem flatMap_owes_set (hw : s.workers[k]? = some w) (w' : Position) : ∃ before after,
    s.workers.flatMap Position.owes = before ++ w.owes ++ after ∧
      (s.workers.set k w').flatMap Position.owes = before ++ w'.owes ++ after := by
  obtain ⟨hk, rfl⟩ := List.getElem?_eq_some_iff.mp hw
  obtain ⟨before, after, heq, -, hset⟩ := List.exists_of_set hk
  refine ⟨before.flatMap Position.owes, after.flatMap Position.owes, ?_, ?_⟩
  · conv_lhs => rw [heq]
    rw [List.flatMap_append, List.flatMap_cons, List.append_assoc]
  · rw [hset, List.flatMap_append, List.flatMap_cons, List.append_assoc]

/-- What belongs to a phase, after one more entry. -/
theorem filter_concat_map {α β : Type} (phase : α → ℕ) (f : α → β) (l : List α) (a : α)
    (mode : ℕ) : ((l ++ [a]).filter fun x => phase x = mode).map f =
      (l.filter fun x => phase x = mode).map f ++ if phase a = mode then [f a] else [] := by
  rw [List.filter_append, List.map_append]
  split_ifs with hmode
  · rw [List.filter_cons_of_pos (by simpa using hmode)]
    rfl
  · rw [List.filter_cons_of_neg (by simpa using hmode)]
    rfl

theorem takenIn_concat (htaken : s'.taken = s.taken ++ [⟨s.mode, s.pos_txo, k⟩]) (mode : ℕ) :
    s'.takenIn mode = s.takenIn mode ++ if s.mode = mode then [s.pos_txo] else [] := by
  rw [takenIn, htaken]
  exact filter_concat_map Take.mode Take.file s.taken _ mode

theorem committedIn_concat {blk : CBlock} (hcommitted : s'.committed = s.committed ++
    [(s.mode, blk)]) (mode : ℕ) :
    s'.committedIn mode = s.committedIn mode ++ if s.mode = mode then [blk] else [] := by
  rw [committedIn, hcommitted]
  exact filter_concat_map Prod.fst Prod.snd s.committed _ mode

/-- The account of another phase is not touched. -/
theorem Accounted.other {mode : ℕ} (h : Accounted files s mode)
    (hm : Moves sha256 files s s' k w w') (hmode : mode ≠ s.mode) : Accounted files s' mode := by
  have hmode' : mode ≠ s'.mode := hm.mode ▸ hmode
  have hthrough : s'.through files mode = s.through files mode := by
    rw [through, through, if_neg hmode, if_neg hmode', hm.mode]
  have howed : s'.owed mode = s.owed mode := by
    rw [owed, owed, if_neg hmode, if_neg hmode']
  have htaken : s'.takenIn mode = s.takenIn mode := by
    cases hm.effect with
    | quiet _ taken | commit _ taken => rw [takenIn, takenIn, taken]
    | took _ _ taken => rw [takenIn_concat taken, if_neg hmode.symm, List.append_nil]
  have hcommitted : s'.committedIn mode = s.committedIn mode := by
    cases hm.effect with
    | quiet _ _ committed | took _ _ _ committed => rw [committedIn, committedIn, committed]
    | commit _ _ committed =>
      rw [committedIn_concat committed, if_neg hmode.symm, List.append_nil]
  exact ⟨by rw [htaken, hthrough, h.taken], by rw [hcommitted, howed, hthrough]; exact h.blocks⟩

theorem through_mode (s : Pool) : s.through files s.mode = s.pos_txo := if_pos rfl

theorem owed_mode (s : Pool) : s.owed s.mode = s.workers.flatMap Position.owes := if_pos rfl

/-- The account of the phase that the workers are in. -/
theorem Accounted.same (h : Accounted files s s.mode) (hw : s.workers[k]? = some w)
    (hm : Moves sha256 files s s' k w w') : Accounted files s' s'.mode := by
  obtain ⟨htaken, hblocks⟩ := h
  obtain ⟨before, after, howes, howes'⟩ := flatMap_owes_set hw w'
  rw [through_mode] at htaken hblocks
  rw [owed_mode, howes] at hblocks
  rw [← hm.workers] at howes'
  constructor
  · rw [through_mode, hm.mode]
    cases hm.effect with
    | quiet pos taken | commit pos taken => rw [pos, takenIn, taken]; exact htaken
    | took _ pos taken => rw [takenIn_concat taken, if_pos rfl, htaken, pos, List.range_succ]
  · rw [through_mode, owed_mode, howes', hm.mode]
    cases hm.effect with
    | quiet pos _ committed _ owes =>
      rw [pos, committedIn, committed, ← owes]
      exact hblocks
    | @took content file pos _ committed _ owed owes =>
      obtain ⟨hpos, rfl⟩ := List.getElem?_eq_some_iff.mp file
      rw [pos, committedIn, committed, owes, List.take_add_one, file, List.flatMap_append,
        Option.toList_some, List.flatMap_singleton]
      rw [owed, List.append_nil] at hblocks
      refine List.Perm.trans ?_ (hblocks.append_right (blocksOf files[s.pos_txo]))
      simp only [committedIn, List.append_assoc]
      exact ((List.perm_append_comm).append_left _).append_left _
    | @commit blk v pos _ committed _ _ owes =>
      rw [pos, committedIn_concat committed, if_pos rfl]
      refine List.Perm.trans ?_ hblocks
      rw [owes, List.append_assoc]
      refine List.Perm.append_left _ ?_
      simp only [List.cons_append, List.nil_append, List.append_assoc]
      exact List.perm_middle.symm

/-- A block that is committed is added to the tables. -/
theorem Stored.moves (h : Stored sha256 tables s) (hm : Moves sha256 files s s' k w w') :
    Stored sha256 tables s' := by
  obtain ⟨v, hfold, hv⟩ := h
  cases hm.effect with
  | quiet _ _ committed htables | took _ _ _ committed htables =>
    exact ⟨v, committed ▸ hfold, htables ▸ hv⟩
  | @commit blk v' _ _ committed added htables =>
    refine ⟨v', ?_, ?_⟩
    · rw [committed, List.foldlM_append, hfold]
      rw [hv] at added
      change (do let v'' ← addBlock sha256 s.mode v blk; some v'') = some v'
      rw [added]
      rfl
    · rw [htables]
      exact opened_tables (addBlock_dcmp added)

/-- **A step of a worker** keeps the account. -/
theorem Inv.moves (h : Inv sha256 files tables s) (hw : s.workers[k]? = some w)
    (hm : Moves sha256 files s s' k w w') : Inv sha256 files tables s' := by
  have hk : k < s.workers.length := (List.getElem?_eq_some_iff.mp hw).1
  have hpos : s'.pos_txo = s.pos_txo ∨ s'.pos_txo = s.pos_txo + 1 ∧ s.pos_txo < files.length := by
    cases hm.effect with
    | quiet pos | commit pos => exact .inl pos
    | took file pos => exact .inr ⟨pos, (List.getElem?_eq_some_iff.mp file).1⟩
  have hle := h.pos
  constructor
  case size =>
    intro hnil
    rw [hm.workers, List.set_eq_nil_iff] at hnil
    exact h.size hnil
  case pos => omega
  case mode => exact hm.mode ▸ h.mode
  case owned => exact hm.owned
  case stands =>
    intro j wj hj
    rw [hm.workers] at hj
    by_cases hjk : j = k
    · subst hjk
      rw [List.getElem?_set_self hk] at hj
      exact Option.some.inj hj ▸ hm.stands
    · rw [List.getElem?_set_ne (Ne.symm hjk)] at hj
      exact (h.stands j wj hj).untouched (hm.others j hjk)
  case finished =>
    intro hmem
    rw [hm.workers] at hmem
    obtain hmem | heq := List.mem_or_eq_of_mem_set hmem
    · have := h.finished hmem
      omega
    · obtain ⟨heq', hend⟩ := hm.finished heq.symm
      omega
  case accounted =>
    intro mode
    by_cases hmode : mode = s.mode
    · rw [hmode, ← hm.mode]
      exact (h.accounted s.mode).same hw hm
    · exact (h.accounted mode).other hm hmode
  case returned =>
    intro hreturned
    exact absurd ((h.returned (hm.returned ▸ hreturned)).2 w (List.mem_of_getElem? hw)) hm.busy
  case stored => exact h.stored.moves hm

/-- The step of an action by a worker. -/
theorem Inv.moves_step {a : PoolAction} (h : Inv sha256 files tables s)
    (hfine : Fine a s) (hundisturbed : Undisturbed a s) (hstep : step sha256 files a s = some s') :
    a = .join ∨ ∃ k w w', s.workers[k]? = some w ∧ Moves sha256 files s s' k w w' := by
  cases a with
  | join => exact .inl rfl
  | take k =>
    obtain ⟨w, hw, hw'⟩ : ∃ w, s.workers[k]? = some w ∧ w = .idle := by
      rw [step] at hstep
      split at hstep
      · exact ⟨_, ‹_›, rfl⟩
      · cases hstep
    subst hw'
    obtain ⟨w', hm⟩ := moves_take h.owned hw (h.stands k _ hw) hstep
    exact .inr ⟨k, _, w', hw, hm⟩
  | pass k =>
    obtain ⟨bf, hw⟩ : ∃ bf, s.workers[k]? = some (.reading bf) := by
      rw [step] at hstep
      split at hstep
      · exact ⟨_, ‹_›⟩
      · cases hstep
    obtain ⟨w', hm⟩ := moves_pass h.owned hw (h.stands k _ hw) hstep
    exact .inr ⟨k, _, w', hw, hm⟩
  | call k full =>
    obtain ⟨bf, blk, p, hw⟩ : ∃ bf blk p, s.workers[k]? = some (.indexing bf blk p) := by
      rw [step] at hstep
      split at hstep
      · exact ⟨_, _, _, ‹_›⟩
      · cases hstep
    obtain ⟨w', hm⟩ := moves_call h.owned hw (h.stands k _ hw) hfine hundisturbed hstep
    exact .inr ⟨k, _, w', hw, hm⟩

/-! ## The end of a phase -/

/-- When all have ended, all have found the list at its end. -/
theorem Inv.all_finished (h : Inv sha256 files tables s) (hall : s.workers.all Position.ended) :
    (∀ w ∈ s.workers, w = .finished) ∧ s.pos_txo = files.length := by
  have hfinished : ∀ w ∈ s.workers, w = .finished := by
    intro w hmem
    have hended := List.all_eq_true.mp hall w hmem
    obtain ⟨k, hk⟩ := List.getElem?_of_mem hmem
    cases w with
    | finished => rfl
    | gaveUp stop => exact (h.stands k _ hk).elim
    | idle | reading | indexing => exact nomatch hended
  obtain ⟨w, hmem⟩ := List.exists_mem_of_ne_nil _ h.size
  exact ⟨hfinished, h.finished (hfinished w hmem ▸ hmem)⟩

theorem owed_of_none (h : ∀ w ∈ s.workers, w.owes = []) (mode : ℕ) : s.owed mode = [] := by
  rw [owed]
  split_ifs
  · exact List.flatMap_eq_nil_iff.mpr h
  · rfl

/-- A phase that is over has taken every file and committed every block. -/
theorem Accounted.all {mode : ℕ} (h : Accounted files s mode)
    (hthrough : s.through files mode = files.length) (howed : s.owed mode = []) :
    s.takenIn mode = List.range files.length ∧
      (s.committedIn mode).Perm (files.flatMap blocksOf) := by
  obtain ⟨htaken, hblocks⟩ := h
  rw [hthrough] at htaken hblocks
  rw [howed, List.append_nil, List.take_length] at hblocks
  exact ⟨htaken, hblocks⟩

/-- **The end of a phase** keeps the account. -/
theorem Inv.join (h : Inv sha256 files tables s) (hstep : step sha256 files .join s = some s') :
    Inv sha256 files tables s' := by
  simp only [step] at hstep
  split_ifs at hstep with hall hmode
  · obtain rfl := Option.some.inj hstep
    obtain ⟨hfinished, hend⟩ := h.all_finished hall
    have hidle {w : Position} (hmem : w ∈ s.workers.map fun _ => Position.idle) : w = .idle := by
      obtain ⟨_, -, rfl⟩ := List.mem_map.mp hmem
      rfl
    constructor
    case size => exact fun hnil => h.size (List.map_eq_nil_iff.mp hnil)
    case pos => exact Nat.zero_le _
    case mode => exact le_refl 1
    case owned => exact h.owned
    case stands =>
      intro k w hk
      rw [List.getElem?_map] at hk
      obtain ⟨w₀, hw₀, rfl⟩ := Option.map_eq_some_iff.mp hk
      have hstands := h.stands k w₀ hw₀
      rw [hfinished w₀ (List.mem_of_getElem? hw₀)] at hstands
      exact hstands
    case finished => exact fun hmem => absurd (hidle hmem) (by simp)
    case accounted =>
      intro mode
      obtain ⟨htaken, hblocks⟩ := h.accounted mode
      have hthrough : through files { s with
          mode := 1, pos_txo := 0, workers := s.workers.map fun _ => .idle } mode =
          s.through files mode := by
        rw [through.eq_1 files s, hmode, hend]
        change (if mode = 1 then 0 else if mode < 1 then files.length else 0) = _
        split_ifs <;> omega
      rw [owed_of_none fun w hw => by rw [hfinished w hw]; rfl] at hblocks
      constructor
      · rw [hthrough]
        exact htaken
      · rw [hthrough, owed_of_none fun w hw => by rw [hidle hw]; rfl]
        exact hblocks
    case returned =>
      intro hreturned
      cases hmode.symm.trans (h.returned hreturned).1
    case stored => exact h.stored
  · obtain rfl := Option.some.inj hstep
    exact { h with
      stands := fun k w hk => (h.stands k w hk).untouched ⟨rfl, Iff.rfl, fun _ => ⟨rfl, rfl⟩⟩
      accounted := fun mode => ⟨(h.accounted mode).taken, (h.accounted mode).blocks⟩
      returned := fun _ =>
        ⟨le_antisymm h.mode (Nat.pos_of_ne_zero hmode), (h.all_finished hall).1⟩ }

/-! ## Block files -/

theorem Complete.allBlocks {files : List BlockFile}
    (h : Complete sha256 (files.map BlockFile.content) tables s) (hmode : 0 < s.mode) :
    (s.committedIn 0).Perm (allBlocks files) := by
  have hblocks := (h.outputs hmode).2
  rw [List.flatMap_map] at hblocks
  simp only [blocksOf_content] at hblocks
  exact hblocks

/-! ## Every run -/

theorem start_inv (sha256 : Bytes → UInt256) (files : List Bytes) (n : ℕ) (tables : Tables)
    (mapsize : ℕ) : Inv sha256 files tables (start (n + 1) tables mapsize) := by
  have hidle {w : Position} (hmem : w ∈ List.replicate (n + 1) Position.idle) : w = .idle :=
    List.eq_of_mem_replicate hmem
  constructor
  case size => exact List.replicate_succ_ne_nil
  case pos => exact Nat.zero_le _
  case mode => exact Nat.zero_le _
  case owned => exact fun _ => rfl
  case stands =>
    intro k w hk
    rw [hidle (List.mem_of_getElem? hk)]
    exact nofun
  case finished => exact fun hmem => nomatch hidle hmem
  case accounted =>
    intro mode
    have hthrough : (start (n + 1) tables mapsize).through files mode = 0 := by
      rw [through]
      split_ifs with _ hmode
      · rfl
      · exact absurd hmode (Nat.not_lt_zero mode)
      · rfl
    constructor
    · rw [hthrough]
      rfl
    · rw [hthrough, owed_of_none fun w hw => by rw [hidle hw]; rfl]
      exact .refl _
  case returned => exact nofun
  case stored => exact ⟨_, rfl, rfl⟩

theorem Inv.complete (h : Inv sha256 files tables s) : Complete sha256 files tables s := by
  constructor
  case goesOn => exact fun k stop hk => h.stands k _ hk
  case once =>
    intro mode
    rw [(h.accounted mode).taken, List.prefix_iff_eq_take, List.length_range, List.take_range]
    have hle := h.pos
    rw [Nat.min_eq_left]
    rw [through]
    split_ifs <;> omega
  case outputs =>
    intro hmode
    refine (h.accounted 0).all ?_ ?_
    · rw [through, if_neg (by omega), if_pos hmode]
    · rw [owed, if_neg (by omega)]
  case inputs =>
    intro hreturned
    obtain ⟨hmode, hfinished⟩ := h.returned hreturned
    obtain ⟨w, hmem⟩ := List.exists_mem_of_ne_nil _ h.size
    refine (h.accounted 1).all ?_ (owed_of_none (fun w hw => by rw [hfinished w hw]; rfl) 1)
    rw [through, if_pos hmode.symm]
    exact h.finished (hfinished w hmem ▸ hmem)
  case stored => exact h.stored

/-- **No block is lost** if no resize meets a transaction: in any order of the workers' steps, with
any puts finding the map full. -/
theorem complete_of_undisturbed (sha256 : Bytes → UInt256) (files : List Bytes) (n : ℕ)
    (tables : Tables) (mapsize : ℕ) (as : List PoolAction)
    (hfine : Throughout (step sha256 files) Fine (start (n + 1) tables mapsize) as)
    (hundisturbed : Throughout (step sha256 files) Undisturbed (start (n + 1) tables mapsize) as) :
    Always (step sha256 files) (Complete sha256 files tables) (start (n + 1) tables mapsize)
      as := by
  have hinv := always_of_throughout (I := Inv sha256 files tables) (A := fun _ => True)
    (C := fun a s => Fine a s ∧ Undisturbed a s) ?_ (always_of_forall fun _ => trivial)
    (start_inv sha256 files n tables mapsize) (hfine.and hundisturbed)
  · exact hinv.mono fun _ => Inv.complete
  · intro a s s' h _ hstep ⟨hfine, hundisturbed⟩ _
    obtain rfl | ⟨k, w, w', hw, hm⟩ := h.moves_step hfine hundisturbed hstep
    · exact h.join hstep
    · exact h.moves hw hm

/-- Two workers with a file each. The first finds the map full at its first put, and resizes it
before the other begins. -/
def resizeFirst : List PoolAction :=
  [.take 0, .take 1, .pass 0, .pass 1] ++ List.replicate 5 (.call 0 false) ++ [.call 0 true] ++
    List.replicate 5 (.call 0 false) ++ List.replicate 15 (.call 0 false) ++
    List.replicate 13 (.call 1 false) ++ [.pass 0, .pass 1, .take 0, .take 1, .join]

/-- The other worker begins between the abort and the resize. -/
def beginFirst : List PoolAction :=
  [.take 0, .take 1, .pass 0, .pass 1] ++ List.replicate 5 (.call 0 false) ++
    [.call 0 true, .call 0 false, .call 1 false] ++ List.replicate 4 (.call 0 false)

/-- The workers get to the second phase. -/
theorem complete_of_resizeFirst :
    Always (step (fun _ => .zero) [twoOutputs.content, twoOutputs.content])
        (Complete (fun _ => .zero) [twoOutputs.content, twoOutputs.content] .none)
        (start 2 .none Store.DEFAULT_MAPSIZE) resizeFirst ∧
      ¬ Always (step (fun _ => .zero) [twoOutputs.content, twoOutputs.content])
        (fun s => s.mode = 0) (start 2 .none Store.DEFAULT_MAPSIZE) resizeFirst :=
  ⟨complete_of_undisturbed _ _ 1 _ _ _ (by decide +kernel) (by decide +kernel), by decide +kernel⟩

/-- No worker has given up. -/
def going (s : Pool) : Bool := s.workers.all fun
  | .gaveUp _ => false
  | _ => true

/-- A block may be lost: the worker whose resize meets the other's transaction gives up, and with it
the rest of its file. -/
theorem not_complete : ¬ ∀ sha256 files n tables mapsize as,
    Throughout (step sha256 files) Fine (start (n + 1) tables mapsize) as →
      Always (step sha256 files) (Complete sha256 files tables) (start (n + 1) tables mapsize)
      as := by
  intro h
  have hrun := h (fun _ => .zero) [twoOutputs.content, twoOutputs.content] 1 .none
    Store.DEFAULT_MAPSIZE beginFirst (by decide +kernel)
  have hgoing := hrun.mono (Q := fun s => s.going) fun s hs => ?_
  · exact absurd hgoing (by decide +kernel)
  · refine List.all_eq_true.mpr fun w hmem => ?_
    obtain ⟨k, hk⟩ := List.getElem?_of_mem hmem
    cases w with
    | gaveUp stop => exact absurd hk (hs.goesOn k stop)
    | _ => rfl

end Pool

end ElectrumZ.Blockchain
