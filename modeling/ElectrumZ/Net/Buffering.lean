import ElectrumZ.Net.Plaintext

/-!
# The internal buffer

A read of a plain connection keeps what it leaves unterminated. The limit is tested when the
allocation grows, and the allocation grows beyond the limit.

* `parseAgain_leaves`: the loop over the lines ends in `AppendBuffer` with what it leaves, or keeps
  nothing.
* `appendBuffer_limits_iff`: there the limit holds unless more than the limit fits the allocation.
* `bounded_iff`: so a run stays within the limit if and only if no read of it leaves such a rest.
-/

namespace ElectrumZ.Net

open Foundations Blockchain JsonRPCServer

variable {lib : Mbedtls} {env : Env} {r : Read} {srv srv' : JsonRPCServer lib} {reads : List Read}
  {buf_len : ℤ} {mem text rest out : Bytes}

/-! ## What a read leaves -/

/-- Behind the lines that are handled, the loop finds an unterminated rest. -/
inductive Leaves (env : Env) (r : Read) : ℤ → Bytes → Bytes → Prop
  | tail {buf_len : ℤ} {mem : Bytes} (hstr : strchr JSONRPC_DELIM mem = none) (hpos : 0 < buf_len) :
    Leaves env r buf_len mem (mem.take buf_len.toNat)
  | line {buf_len : ℤ} {mem text rest out : Bytes} {v : Json}
    (hstr : strchr JSONRPC_DELIM mem = some (text, rest)) (hparse : env.parse text = some v)
    (hv : Answerable env (.opened r.store r.rpc) v) (hlt : (text.length : ℤ) < r.base.length - 1)
    (h : Leaves env r (buf_len - (text.length + 1)) rest out) : Leaves env r buf_len mem out

/-- A line changes the session and the record of the commands. -/
theorem handleLine_frame (env : Env) (text : Bytes) (srv : JsonRPCServer lib) :
    ∃ commands session, (handleLine env text srv).2 = { srv with commands, session } := by
  rw [handleLine]
  cases env.parse text with
  | none => exact ⟨_, _, rfl⟩
  | some v =>
    refine ⟨srv.commands ++ [v], (handleCommand env v srv.session).2, ?_⟩
    rcases hrun : handleCommand env v srv.session with ⟨e | ⟨⟩, s'⟩
    · simp only [onSession, Action.zoom, hrun]
      cases e <;> rfl
    · simp only [onSession, Action.zoom, hrun]

theorem strchr_eq_append {c : UInt8} (h : strchr c mem = some (text, rest)) :
    mem = text ++ c :: rest := by
  induction mem generalizing text with
  | nil => exact nomatch h
  | cons b mem ih =>
    rw [strchr] at h
    split_ifs at h with hb
    · obtain ⟨rfl, rfl⟩ := Prod.mk.inj (Option.some.inj h)
      rw [hb, List.nil_append]
    · obtain ⟨⟨text', rest'⟩, h', heq⟩ := Option.map_eq_some_iff.mp h
      obtain ⟨rfl, rfl⟩ := Prod.mk.inj heq
      rw [ih h', List.cons_append]

theorem not_leaves_of_strchr (hstr : strchr JSONRPC_DELIM mem = some (text, rest))
    (h : ¬ ∃ v, env.parse text = some v ∧ Answerable env (.opened r.store r.rpc) v ∧
      (text.length : ℤ) < r.base.length - 1) : ¬ Leaves env r buf_len mem out := by
  intro hleaves
  cases hleaves with
  | tail hnone => exact nomatch hnone.symm.trans hstr
  | line hstr' hparse hv hlt =>
    obtain ⟨rfl, rfl⟩ := Prod.mk.inj (Option.some.inj (hstr'.symm.trans hstr))
    exact h ⟨_, hparse, hv, hlt⟩

/-- The loop keeps nothing. -/
def Drops (srv : JsonRPCServer lib) (res : Except Fault ℤ × JsonRPCServer lib) : Prop :=
  res.2.state = srv.state ∧ res.2.offset = srv.offset

/-- **The loop ends in `AppendBuffer`** with what the read leaves, or keeps nothing. -/
theorem parseAgain_leaves (env : Env) (hmet : MetBy r srv.session) (hlen : buf_len ≤ mem.length) :
    (∃ out srv₁, Leaves env r buf_len mem out ∧ 0 < out.length ∧ srv₁.state = srv.state ∧
      srv₁.offset = srv.offset ∧ srv₁.len = srv.len ∧
      parseAgain env r.base.length buf_len mem srv = appendBuffer out.length out srv₁) ∨
    (∀ out, ¬ Leaves env r buf_len mem out) ∧
      Drops srv (parseAgain env r.base.length buf_len mem srv) := by
  induction hn : mem.length using Nat.strong_induction_on generalizing mem buf_len srv with
  | _ n ih =>
    cases hstr : strchr JSONRPC_DELIM mem with
    | none =>
      rw [parseAgain_none hstr]
      by_cases hpos : 0 < buf_len
      · have hout : (mem.take buf_len.toNat).length = buf_len.toNat := by
          rw [List.length_take, min_eq_left (by omega)]
        refine .inl ⟨_, srv.searched mem buf_len, .tail hstr hpos, by omega, rfl, rfl, rfl, ?_⟩
        rw [hout, Int.toNat_of_nonneg hpos.le]
      · refine .inr ⟨fun out h => ?_, ?_⟩
        · cases h with
          | tail _ hpos' => exact hpos hpos'
          | line hstr' => cases hstr.symm.trans hstr'
        · rw [appendBuffer, if_pos (by omega)]
          exact ⟨rfl, rfl⟩
    | some found =>
      obtain ⟨text, rest⟩ := found
      rw [parseAgain_some hstr]
      obtain ⟨commands, session, hframe⟩ :=
        handleLine_frame env text (srv.searched mem buf_len)
      by_cases hv : ∃ v, env.parse text = some v ∧ Answerable env (.opened r.store r.rpc) v
      · obtain ⟨v, hparse, hv⟩ := hv
        obtain ⟨s', hmet', hline⟩ := handleLine_run hparse (handles_of_answerable hv)
          (show MetBy r (srv.searched mem buf_len).session from hmet)
        set srv₂ : JsonRPCServer lib := { srv.searched mem buf_len with
          commands := (srv.searched mem buf_len).commands ++ [v]
          session := s' } with hsrv₂
        rw [Action.bind_of_ok hline, if_neg (by decide)]
        split_ifs with hlt
        · -- the loop goes on behind the line
          have hmem := congrArg List.length (strchr_eq_append hstr)
          rw [List.length_append, List.length_cons] at hmem
          obtain ⟨out, srv₁, hleaves, hpos, hstate, hoffset, hlen₁, hrun⟩ | ⟨hleaves, hdrops⟩ :=
            ih rest.length (by omega) (show MetBy r srv₂.session from hmet')
              (show buf_len - (text.length + 1) ≤ rest.length by omega) rfl
          · exact .inl ⟨out, srv₁, .line hstr hparse hv hlt hleaves, hpos, hstate, hoffset, hlen₁,
              hrun⟩
          · refine .inr ⟨fun out h => ?_, hdrops⟩
            cases h with
            | tail hnone => cases hnone.symm.trans hstr
            | line hstr' _ _ _ h =>
              obtain ⟨rfl, rfl⟩ := Prod.mk.inj (Option.some.inj (hstr'.symm.trans hstr))
              exact hleaves out h
        · refine .inr ⟨fun out => not_leaves_of_strchr hstr ?_, rfl, rfl⟩
          rintro ⟨v', -, -, h⟩
          exact hlt h
      · refine .inr ⟨fun out => not_leaves_of_strchr hstr ?_, ?_⟩
        · rintro ⟨v, hparse, h, -⟩
          exact hv ⟨v, hparse, h⟩
        have hfirst (v : Json) (hparse : env.parse text = some v) :
            ¬ Answerable env (srv.searched mem buf_len).session v :=
          fun h => hv ⟨v, hparse, (answerable_congr hmet).mp h⟩
        obtain ⟨hok, -⟩ := handleLine_unanswered hfirst
        rcases hline : handleLine env text (srv.searched mem buf_len) with ⟨e | handled, srv₁⟩ <;>
          rw [hline] at hok hframe <;> obtain rfl : srv₁ = _ := hframe
        · rw [Action.bind_of_error hline]
          exact ⟨rfl, rfl⟩
        · obtain rfl : handled = false := Bool.eq_false_iff.mpr fun h => hok (congrArg _ h)
          rw [Action.bind_of_ok hline, if_pos rfl]
          exact ⟨rfl, rfl⟩

/-! ## The limit -/

/-- Appending to an empty buffer. -/
theorem appendBuffer_empty (h0 : srv.offset = 0) (hpos : 0 < out.length) :
    appendBuffer out.length out srv =
      if srv.len < out.length then
        if JSONRPC_MAX_BUFFER < out.length + 1 then (.ok 0, srv)
        else (.ok 1, { srv with
          buf := out, offset := out.length,
          len := out.length + 1 + (out.length + 1) % JSONRPC_BUFF_LEN })
      else (.ok 1, { srv with buf := out, offset := out.length }) := by
  have hmin : ((0 : ℤ) + out.length + 1).toNat = out.length + 1 := by omega
  simp only [appendBuffer, h0, append, List.take_zero, List.nil_append, Nat.zero_add, hmin,
    if_neg (show ¬ (out.length : ℤ) ≤ 0 by omega), Nat.cast_zero, add_zero, Nat.cast_lt]

/-- What is kept is within the limit, and the connection is closed when it would not be. -/
def Limits (size : ℕ) (res : Except Fault ℤ × JsonRPCServer lib) : Prop :=
  res.2.offset ≤ JSONRPC_MAX_BUFFER ∧ (JSONRPC_MAX_BUFFER < size → res.1 = .ok 0)

/-- **The limit holds unless more than that fits the allocation.** -/
theorem appendBuffer_limits_iff (h0 : srv.offset = 0) (hpos : 0 < out.length) :
    Limits out.length (appendBuffer out.length out srv) ↔
      ¬ (JSONRPC_MAX_BUFFER < out.length ∧ out.length ≤ srv.len) := by
  rw [appendBuffer_empty h0 hpos]
  split_ifs with hlen hmax
  · refine iff_of_true ⟨?_, fun _ => rfl⟩ fun h => absurd h.2 (by omega)
    rw [h0]
    exact Nat.zero_le _
  · exact iff_of_true ⟨by simp only; omega, fun h => absurd h (by omega)⟩ fun h => by omega
  · rw [Limits, not_and]
    constructor
    · intro h hmax
      exact absurd h.1 (by simp only; omega)
    · intro h
      have hle : out.length ≤ JSONRPC_MAX_BUFFER := by
        by_contra hlt
        exact h (by omega) (by omega)
      exact ⟨hle, fun h => absurd h (by omega)⟩

/-! ## One read -/

theorem Leaves.unique {out' : Bytes} (h : Leaves env r buf_len mem out)
    (h' : Leaves env r buf_len mem out') : out = out' := by
  induction h with
  | tail hstr =>
    cases h' with
    | tail => rfl
    | line hstr' => exact nomatch hstr.symm.trans hstr'
  | line hstr _ _ _ _ ih =>
    cases h' with
    | tail hstr' => exact nomatch hstr'.symm.trans hstr
    | line hstr' _ _ _ h' =>
      obtain ⟨rfl, rfl⟩ := Prod.mk.inj (Option.some.inj (hstr'.symm.trans hstr))
      exact ih h'

/-- A read of a plain connection that leaves a rest unterminated, of what was kept and what it
brings. -/
def LeavesRest (env : Env) (r : Read) (srv : JsonRPCServer lib) (rest : Bytes) : Prop :=
  r.base ≠ [] ∧ ¬ GET <+: srv.kept ++ r.base ++ r.after ∧
    Leaves env r (srv.kept ++ r.base).length (srv.kept ++ r.base ++ r.after) rest

/-- It leaves more than the limit, and that fits the allocation. -/
def Overshoots (env : Env) (r : Read) (srv : JsonRPCServer lib) : Prop :=
  ∃ rest, LeavesRest env r srv rest ∧ JSONRPC_MAX_BUFFER < rest.length ∧ rest.length ≤ srv.len

/-- After the read no more than the limit is buffered, and if more than that is left unterminated
then the connection is closed. -/
def Limited (env : Env) (r : Read) (srv : JsonRPCServer lib) : Prop :=
  (handleRead env r srv).2.offset ≤ JSONRPC_MAX_BUFFER ∧
    ∀ rest, LeavesRest env r srv rest → JSONRPC_MAX_BUFFER < rest.length →
      (handleRead env r srv).1 = .ok 0

/-- A read that brings bytes appends what it leaves to the empty buffer, or keeps nothing. -/
theorem handleRead_leaves (env : Env) (hplain : PlainRead r srv) (hsound : srv.Sound)
    (hr : r.base ≠ []) :
    (∃ out srv₁, LeavesRest env r srv out ∧ 0 < out.length ∧
      srv₁.state = JsonRPCState.NORMAL ∧ srv₁.offset = 0 ∧ srv₁.len = srv.len ∧
      handleRead env r srv = appendBuffer out.length out srv₁) ∨
    (∀ out, ¬ LeavesRest env r srv out) ∧
      (handleRead env r srv).2.state = JsonRPCState.NORMAL ∧
      (handleRead env r srv).2.offset = 0 := by
  have hsound' : (srv.plain r).Sound := hsound
  have hkept : (srv.plain r).kept = srv.kept := rfl
  have hread : handleRead env r srv = _ :=
    (handleRead_plain hplain hr).trans (handleBytes_eq hsound' r.base)
  rw [hkept] at hread
  set srv₀ : JsonRPCServer lib := { srv.plain r with
    offset := 0
    overread := (srv.plain r).overread || decide (((srv.kept ++ r.base).length : ℤ) <
      strstrScan (srv.kept ++ r.base ++ r.after)) } with hsrv₀
  have hstate₀ : srv₀.state = JsonRPCState.NORMAL := rfl
  by_cases hget : GET <+: srv.kept ++ r.base ++ r.after
  · refine .inr ⟨fun out h => h.2.1 hget, ?_⟩
    have hwrite : write env http_rsp srv₀ = onSession (writeInternal env .plain http_rsp) srv₀ := by
      rw [write, Action.bind_of_ok (Action.run_look _ _), id, has_eq hstate₀ rfl,
        has_eq hstate₀ rfl, if_neg (by decide), if_pos (by decide)]
    rw [hread, if_pos hget, Action.bind_of_ok (hwrite.trans rfl)]
    exact ⟨rfl, rfl⟩
  · rw [if_neg hget] at hread
    have hmet : MetBy r srv₀.session := ⟨rfl, rfl⟩
    obtain ⟨out, srv₁, hleaves, hpos, hstate, hoffset, hlen, hrun⟩ | ⟨hleaves, hstate, hoffset⟩ :=
      parseAgain_leaves env hmet
        (show ((srv.kept ++ r.base).length : ℤ) ≤ (srv.kept ++ r.base ++ r.after).length from
          Int.ofNat_le.mpr (List.prefix_append _ _).length_le)
    · exact .inl ⟨out, srv₁, ⟨hr, hget, hleaves⟩, hpos, hstate, hoffset, hlen, hread.trans hrun⟩
    · rw [hread]
      exact .inr ⟨fun out h => hleaves out h.2.2, hstate, hoffset⟩

/-- **A read of a plain connection stays within the limit** unless it overshoots it. -/
theorem handleRead_limited_iff (hplain : PlainRead r srv) (hsound : srv.Sound) (hr : r.base ≠ []) :
    Limited env r srv ↔ ¬ Overshoots env r srv := by
  obtain ⟨out, srv₁, hleaves, hpos, hstate, hoffset, hlen, hrun⟩ | ⟨hleaves, hstate, hoffset⟩ :=
    handleRead_leaves env hplain hsound hr
  · have hlimits := appendBuffer_limits_iff hoffset hpos
    rw [← hrun, hlen] at hlimits
    constructor
    · rintro ⟨hbound, hcloses⟩ ⟨rest, hrest, hover⟩
      obtain rfl := hleaves.2.2.unique hrest.2.2
      exact hlimits.mp ⟨hbound, hcloses _ hleaves⟩ hover
    · intro h
      obtain ⟨hbound, hcloses⟩ := hlimits.mpr fun hover => h ⟨out, hleaves, hover⟩
      refine ⟨hbound, fun rest hrest => ?_⟩
      obtain rfl := hleaves.2.2.unique hrest.2.2
      exact hcloses
  · refine iff_of_true ⟨?_, fun rest h => absurd h (hleaves rest)⟩ ?_
    · rw [hoffset]
      exact Nat.zero_le _
    · rintro ⟨rest, h, -⟩
      exact hleaves rest h

/-- The buffer stays sound. -/
theorem handleRead_sound (env : Env) (hplain : PlainRead r srv) (hsound : srv.Sound)
    (hr : r.base ≠ []) :
    (handleRead env r srv).2.state = JsonRPCState.NORMAL ∧ (handleRead env r srv).2.Sound := by
  obtain ⟨out, srv₁, -, hpos, hstate, hoffset, -, hrun⟩ | ⟨-, hstate, hoffset⟩ :=
    handleRead_leaves env hplain hsound hr
  · rw [hrun, appendBuffer_empty hoffset hpos]
    split_ifs
    · exact ⟨hstate, by rw [Sound, hoffset]; exact Nat.zero_le _⟩
    · exact ⟨hstate, le_refl _⟩
    · exact ⟨hstate, le_refl _⟩
  · exact ⟨hstate, by rw [Sound, hoffset]; exact Nat.zero_le _⟩

/-! ## Whole runs -/

/-- Throughout a run the buffer is within its limit, and the connection is closed by the read that
would leave more. -/
def Bounded (env : Env) (reads : List Read) (srv : JsonRPCServer lib) : Prop :=
  ∀ pre r post srv', reads = pre ++ r :: post → serve env pre srv = (.ok true, srv') →
    Limited env r srv'

theorem plain_of_serve (hplain : ∀ r ∈ reads.head?, PlainRead r srv) (hsound : srv.Sound)
    (hne : ∀ r ∈ reads, r.base ≠ []) (hserve : serve env reads srv = (.ok true, srv')) :
    (reads = [] ∧ srv = srv' ∨ srv'.state = JsonRPCState.NORMAL) ∧ srv'.Sound := by
  induction reads generalizing srv with
  | nil =>
    obtain rfl := serve_nil_iff.mp hserve
    exact ⟨.inl ⟨rfl, rfl⟩, hsound⟩
  | cons r reads ih =>
    obtain ⟨hr, hne⟩ := List.forall_mem_cons.mp hne
    obtain ⟨ret, srv₁, hread, hret, hserve⟩ := serve_cons_iff.mp hserve
    obtain ⟨hstate, hsound₁⟩ := handleRead_sound env (hplain r rfl) hsound hr
    rw [hread] at hstate hsound₁
    obtain ⟨⟨-, rfl⟩ | h, hsound'⟩ := ih (fun _ _ => .inl hstate) hsound₁ hne hserve
    · exact ⟨.inr hstate, hsound'⟩
    · exact ⟨.inr h, hsound'⟩

/-- **The buffer of a plain connection is bounded if and only if** no read of the run leaves more
than the limit where the allocation has room for it. -/
theorem bounded_iff (env : Env) (lib : Mbedtls) (ssl_config : Bool) (session : Session)
    (hne : ∀ r ∈ reads, r.base ≠ [])
    (hhello : ∀ r ∈ reads.head?, isTLSClientHello r.base = false) :
    Bounded env reads (accepted lib ssl_config session) ↔ ∀ pre r post srv,
      reads = pre ++ r :: post →
      serve env pre (accepted lib ssl_config session) = (.ok true, srv) →
      ¬ Overshoots env r srv := by
  refine forall₄_congr fun pre r post srv => forall₂_congr fun heq hserve => ?_
  subst heq
  have hr : r.base ≠ [] := hne r (by simp)
  have hplain₀ : ∀ r' ∈ (pre ++ r :: post).head?, PlainRead r' (accepted lib ssl_config session) :=
    fun r' hr' => .inr ⟨rfl, hhello r' hr'⟩
  obtain ⟨hstate, hsound⟩ := plain_of_serve (fun r' hr' => hplain₀ r' (by cases pre <;> simp_all))
    (show Sound _ from le_refl _) (fun r' hr' => hne r' (by simp [hr'])) hserve
  refine handleRead_limited_iff ?_ hsound hr
  obtain ⟨rfl, rfl⟩ | hstate := hstate
  · exact hplain₀ r rfl
  · exact .inl hstate

/-! ## A client that sends no newline -/

theorem strchr_eq_none {c : UInt8} (h : c ∉ mem) : strchr c mem = none := by
  induction mem with
  | nil => rfl
  | cons b mem ih =>
    obtain ⟨hb, hmem⟩ := not_or.mp (List.mem_cons.not.mp h)
    rw [strchr, if_neg (Ne.symm hb), ih hmem]
    split_ifs <;> rfl

/-- The size of the allocation after so many bytes have been put into it. -/
def grow (len size : ℕ) : ℕ := if len < size then size + 1 + (size + 1) % JSONRPC_BUFF_LEN else len

/-- What the server has kept, and how far its allocation has grown. -/
structure Buffered (srv : JsonRPCServer lib) (kept : Bytes) (len : ℕ) : Prop where
  state : srv.state = JsonRPCState.START ∨ srv.state = JsonRPCState.NORMAL
  kept : srv.kept = kept
  sound : srv.Sound
  len : srv.len = len

/-- What a read without a newline leaves. -/
theorem Buffered.leavesRest {kept : Bytes} {len : ℕ} (h : Buffered srv kept len) (hr : r.base ≠ [])
    (hafter : r.after = []) (hdelim : JSONRPC_DELIM ∉ kept ++ r.base)
    (hget : ¬ GET <+: kept ++ r.base) : LeavesRest env r srv (kept ++ r.base) := by
  have hpos : 0 < (kept ++ r.base).length :=
    List.length_pos_of_ne_nil fun hnil => hr (List.append_eq_nil_iff.mp hnil).2
  rw [LeavesRest, h.kept, hafter, List.append_nil]
  have htail : Leaves env r _ _ _ :=
    .tail (strchr_eq_none hdelim) (Int.natCast_pos.mpr hpos)
  rw [Int.toNat_natCast, List.take_length] at htail
  exact ⟨hr, hget, htail⟩

/-- The server keeps an unterminated buffer for which there is room. -/
theorem handleRead_buffered (env : Env) {kept : Bytes} {len : ℕ} (h : Buffered srv kept len)
    (hr : r.base ≠ []) (hhello : isTLSClientHello r.base = false) (hafter : r.after = [])
    (hdelim : JSONRPC_DELIM ∉ kept ++ r.base) (hget : ¬ GET <+: kept ++ r.base)
    (hfits : (kept ++ r.base).length < JSONRPC_MAX_BUFFER ∨ (kept ++ r.base).length ≤ len) :
    ∃ srv', handleRead env r srv = (.ok 1, srv') ∧
      Buffered srv' (kept ++ r.base) (grow len (kept ++ r.base).length) := by
  have hplain : PlainRead r srv := h.state.elim (fun hs => .inr ⟨hs, hhello⟩) .inl
  have hpos : 0 < (kept ++ r.base).length :=
    List.length_pos_of_ne_nil fun hnil => hr (List.append_eq_nil_iff.mp hnil).2
  have hleaves : LeavesRest env r srv (kept ++ r.base) := h.leavesRest hr hafter hdelim hget
  obtain ⟨out, srv₁, hout, -, hstate, hoffset, hlen, hrun⟩ | ⟨hnone, -⟩ :=
    handleRead_leaves env hplain h.sound hr
  · obtain rfl := hleaves.2.2.unique hout.2.2
    rw [hrun, appendBuffer_empty hoffset hpos, hlen, h.len, grow]
    split_ifs with hgrow hmax
    · exact absurd hfits (by omega)
    · exact ⟨_, rfl, .inr hstate, List.take_length, le_refl _, rfl⟩
    · exact ⟨_, rfl, .inr hstate, List.take_length, le_refl _, rfl⟩
  · exact absurd hleaves (hnone _)

/-- The sizes of the buffer and of the allocation after reads of the given sizes, as long as none
of them closes the connection. -/
def growth : ℕ → ℕ → List ℕ → Option (ℕ × ℕ)
  | kept, len, [] => some (kept, len)
  | kept, len, n :: sizes =>
    if kept + n < JSONRPC_MAX_BUFFER ∨ kept + n ≤ len then
      growth (kept + n) (grow len (kept + n)) sizes
    else none

/-- A part of a message that never ends. -/
def endless (n : ℕ) : Read := .ofBytes (List.replicate n 0x78)

theorem replicate_ne_delim (n : ℕ) : JSONRPC_DELIM ∉ List.replicate n (0x78 : UInt8) :=
  fun h => absurd (List.eq_of_mem_replicate h) (by decide)

theorem replicate_ne_get (n : ℕ) : ¬ GET <+: List.replicate n (0x78 : UInt8) := by
  intro h
  have hmem : (0x47 : UInt8) ∈ List.replicate n (0x78 : UInt8) := h.subset (by decide)
  exact absurd (List.eq_of_mem_replicate hmem) (by decide)

theorem isTLSClientHello_endless (n : ℕ) : isTLSClientHello (endless n).base = false := by
  rw [isTLSClientHello, Bool.and_assoc, Bool.and_assoc, Bool.and_eq_false_iff]
  by_cases hn : n = 0
  · subst hn
    exact .inl rfl
  · right
    obtain ⟨m, rfl⟩ := Nat.exists_eq_succ_of_ne_zero hn
    rfl

theorem append_endless (kept n : ℕ) : List.replicate kept (0x78 : UInt8) ++ (endless n).base =
    List.replicate (kept + n) 0x78 := List.replicate_append_replicate

theorem endless_ne_nil {n : ℕ} (hn : 0 < n) : (endless n).base ≠ [] := by
  rw [endless, Read.ofBytes, ne_eq, List.replicate_eq_nil_iff]
  exact hn.ne'

theorem leavesRest_endless (env : Env) {kept len n : ℕ} (hn : 0 < n)
    (h : Buffered srv (List.replicate kept 0x78) len) :
    LeavesRest env (endless n) srv (List.replicate (kept + n) 0x78) := by
  have hrest : LeavesRest env (endless n) srv _ := h.leavesRest (endless_ne_nil hn) rfl
    (append_endless kept n ▸ replicate_ne_delim _) (append_endless kept n ▸ replicate_ne_get _)
  rwa [append_endless] at hrest

/-- An endless message overshoots where it goes on above the limit without growing. -/
theorem overshoots_endless (env : Env) {kept len n : ℕ} (hn : 0 < n)
    (h : Buffered srv (List.replicate kept 0x78) len) :
    Overshoots env (endless n) srv ↔ JSONRPC_MAX_BUFFER < kept + n ∧ kept + n ≤ len := by
  have hleaves := leavesRest_endless env hn h
  constructor
  · rintro ⟨rest, hrest, hover, hfits⟩
    obtain rfl := hleaves.2.2.unique hrest.2.2
    rw [List.length_replicate] at hover hfits
    exact ⟨hover, h.len ▸ hfits⟩
  · rintro ⟨hover, hfits⟩
    exact ⟨_, hleaves, by rwa [List.length_replicate], by rwa [List.length_replicate, h.len]⟩

/-- **An endless message is kept as its growth says.** -/
theorem serve_endless (env : Env) {kept len kept' len' : ℕ} {sizes : List ℕ}
    (hpos : ∀ n ∈ sizes, 0 < n)
    (h : Buffered srv (List.replicate kept 0x78) len)
    (hgrowth : growth kept len sizes = some (kept', len')) :
    ∃ srv', serve env (sizes.map endless) srv = (.ok true, srv') ∧
      Buffered srv' (List.replicate kept' 0x78) len' := by
  induction sizes generalizing srv kept len with
  | nil =>
    obtain ⟨rfl, rfl⟩ := Prod.mk.inj (Option.some.inj hgrowth)
    exact ⟨srv, rfl, h⟩
  | cons n sizes ih =>
    obtain ⟨hn, hpos⟩ := List.forall_mem_cons.mp hpos
    rw [growth] at hgrowth
    split_ifs at hgrowth with hfits
    have happend := append_endless kept n
    obtain ⟨srv₁, hread, h₁⟩ := handleRead_buffered env h (endless_ne_nil hn)
      (isTLSClientHello_endless n) rfl (happend ▸ replicate_ne_delim _)
      (happend ▸ replicate_ne_get _) (by rw [happend, List.length_replicate]; exact hfits)
    rw [happend, List.length_replicate] at h₁
    obtain ⟨srv', hserve, h'⟩ := ih hpos h₁ hgrowth
    exact ⟨srv', serve_cons_iff.mpr ⟨1, srv₁, hread, one_ne_zero, hserve⟩, h'⟩

/-- Sixteen reads make an allocation for more than the limit. -/
def overshooting : List ℕ := List.replicate 15 1024 ++ [900]

theorem growth_overshooting : growth 0 0 overshooting = some (16260, 17162) := by
  decide +kernel

theorem accepted_buffered (lib : Mbedtls) (ssl_config : Bool) (session : Session) :
    Buffered (accepted lib ssl_config session) (List.replicate 0 0x78) 0 :=
  ⟨.inl rfl, rfl, le_refl _, rfl⟩

/-- Seventeen reads fill the buffer up to the limit, and one byte more is too many. -/
def fillingUp : List ℕ := List.replicate 15 1024 ++ [1023, 1, 1]

theorem pos_of_mem_fillingUp : ∀ n ∈ fillingUp, 0 < n := by decide +kernel

/-- Before each read there is room for the others, and the read is not one that overshoots. -/
theorem growth_fillingUp {sizes rest : List ℕ} {n : ℕ} (h : fillingUp = sizes ++ n :: rest) :
    ∃ kept len, growth 0 0 sizes = some (kept, len) ∧
      ¬ (JSONRPC_MAX_BUFFER < kept + n ∧ kept + n ≤ len) := by
  have hall : ∀ i < fillingUp.length, (growth 0 0 (fillingUp.take i)).any (fun g => decide ¬
      (JSONRPC_MAX_BUFFER < g.1 + fillingUp.getD i 0 ∧ g.1 + fillingUp.getD i 0 ≤ g.2)) = true := by
    decide +kernel
  have hlt : sizes.length < fillingUp.length := by
    rw [h, List.length_append, List.length_cons]
    omega
  have hany := hall sizes.length hlt
  have hget : fillingUp.getD sizes.length 0 = n := by
    rw [h, List.getD_eq_getElem?_getD, List.getElem?_append_right le_rfl, Nat.sub_self]
    rfl
  rw [hget, h, List.take_left] at hany
  obtain ⟨⟨kept, len⟩, hgrowth, hover⟩ := (Option.any_eq_true _ _).mp hany
  exact ⟨kept, len, hgrowth, of_decide_eq_true hover⟩

/-- So no read of the run overshoots. -/
theorem not_overshoots_fillingUp (env : Env) {pre post : List Read} {srv : JsonRPCServer nullCipher}
    (h : fillingUp.map endless = pre ++ r :: post)
    (hserve : serve env pre (accepted nullCipher false .fresh) = (.ok true, srv)) :
    ¬ Overshoots env r srv := by
  obtain ⟨sizes, rest, hsizes, rfl, hrest⟩ := List.map_eq_append_iff.mp h
  obtain ⟨n, rest, rfl, rfl, rfl⟩ := List.map_eq_cons_iff.mp hrest
  have hpos := pos_of_mem_fillingUp
  rw [hsizes, List.forall_mem_append, List.forall_mem_cons] at hpos
  obtain ⟨kept, len, hgrowth, hover⟩ := growth_fillingUp hsizes
  obtain ⟨srv', hserve', hbuf⟩ := serve_endless env hpos.1
    (accepted_buffered nullCipher false .fresh) hgrowth
  obtain rfl := (Prod.mk.inj (hserve.symm.trans hserve')).2
  exact fun hovershoots => hover ((overshoots_endless env hpos.2.1 hbuf).mp hovershoots)

/-- The buffer is filled up to the limit, and the connection closed by the byte after that. -/
theorem bounded_endless :
    Bounded pingEnv (fillingUp.map endless) (accepted nullCipher false .fresh) ∧
    ∃ srv, serve pingEnv (fillingUp.dropLast.map endless) (accepted nullCipher false .fresh) =
        (.ok true, srv) ∧
      srv.offset = JSONRPC_MAX_BUFFER ∧ (handleRead pingEnv (endless 1) srv).1 = .ok 0 := by
  have hbounded : Bounded pingEnv (fillingUp.map endless) (accepted nullCipher false .fresh) := by
    refine (bounded_iff pingEnv nullCipher false .fresh ?_ ?_).mpr ?_
    · intro r hr
      obtain ⟨n, hn, rfl⟩ := List.mem_map.mp hr
      exact endless_ne_nil (pos_of_mem_fillingUp n hn)
    · intro r hr
      rw [← Option.some.inj hr]
      exact isTLSClientHello_endless _
    · exact fun pre r post srv h hserve => not_overshoots_fillingUp pingEnv h hserve
  obtain ⟨srv, hserve, hbuf⟩ := serve_endless pingEnv
    (fun n hn => pos_of_mem_fillingUp n (List.dropLast_subset _ hn))
    (accepted_buffered nullCipher false .fresh)
    (show growth 0 0 fillingUp.dropLast = some (16384, 16384) by decide +kernel)
  have hlimited := hbounded (fillingUp.dropLast.map endless) (endless 1) [] srv rfl hserve
  refine ⟨hbounded, srv, hserve, ?_, ?_⟩
  · rw [← length_kept hbuf.sound, hbuf.kept, List.length_replicate]
    rfl
  · refine hlimited.2 _ (leavesRest_endless pingEnv one_pos hbuf) ?_
    rw [List.length_replicate]
    decide

/-- The read after the sixteen fits the allocation, and so more than the limit is buffered. -/
theorem not_bounded : ¬ ∀ (reads : List Read), (∀ r ∈ reads, 0 < r.base.length ∧
      r.base.length ≤ 1024) → (∀ r ∈ reads.head?, isTLSClientHello r.base = false) →
    Bounded pingEnv reads (accepted nullCipher false .fresh) := by
  intro h
  have hpos : ∀ n ∈ overshooting ++ [800], 0 < n := by decide +kernel
  have hempty := accepted_buffered nullCipher false .fresh
  obtain ⟨srv, hserve, hbuf⟩ := serve_endless pingEnv
    (fun n hn => hpos n (List.mem_append_left _ hn)) hempty growth_overshooting
  obtain ⟨srv', hserve', hbuf'⟩ := serve_endless pingEnv hpos hempty
    (show growth 0 0 (overshooting ++ [800]) = some (17060, 17162) by decide +kernel)
  rw [List.map_append, List.map_singleton, serve_concat_iff] at hserve'
  obtain ⟨srv₁, ret, hserve₁, hread, -⟩ := hserve'
  obtain rfl := (Prod.mk.inj (hserve.symm.trans hserve₁)).2
  have hsizes : ∀ n ∈ overshooting ++ [800], 0 < n ∧ n ≤ 1024 := by decide +kernel
  have hsize : ∀ r ∈ (overshooting ++ [800]).map endless,
      0 < r.base.length ∧ r.base.length ≤ 1024 := by
    intro r hr
    obtain ⟨n, hn, rfl⟩ := List.mem_map.mp hr
    rw [endless, Read.ofBytes, List.length_replicate]
    exact hsizes n hn
  have hfirst : ∀ r ∈ ((overshooting ++ [800]).map endless).head?,
      isTLSClientHello r.base = false := by
    intro r hr
    rw [← Option.some.inj hr]
    exact isTLSClientHello_endless _
  have hlimited := h _ hsize hfirst (overshooting.map endless) (endless 800) [] srv
    List.map_append hserve
  have hoffset : srv'.offset = 17060 := by
    rw [← length_kept hbuf'.sound, hbuf'.kept, List.length_replicate]
  rw [Limited, hread, hoffset] at hlimited
  exact absurd hlimited.1 (by decide)

end ElectrumZ.Net
