import ElectrumZ.Net.Lines

/-!
# Framing

A client of a plain connection sends terminated lines, cut into reads in any way
(`PlainClient`), and the server should hand them to `HandleCommand` one by one (`Frames`).

* `handleRead_line`, `handleRead_tail`: the reads that are handled well. In both the search for
  `GET` ends inside what has been received.
* `handleRead_overread`: any other read makes `strstr` or `strchr`, which know no length, look at
  the memory behind it.
* `serve_frames_iff`: so the run is framed if and only if all reads are of those two kinds.
-/

namespace ElectrumZ.Net

open Foundations Blockchain

variable {lib : Mbedtls} {env : Env} {r : Read} {srv : JsonRPCServer lib} {v : Json}
  {values : List Json} {lines : List Bytes} {l tail later : Bytes}

/-! ## Looking too far -/

/-- The connection is plain, and a byte that was not received has been looked at. -/
def Overread (srv : JsonRPCServer lib) : Prop :=
  srv.state = JsonRPCState.NORMAL ∧ srv.overread = true

theorem overread_keptByParsing : KeptByParsing (Overread : JsonRPCServer lib → Prop) where
  session _ _ _ h := h
  commands _ _ h := h
  searched srv b h := ⟨h.1, by rw [h.2, Bool.true_or]⟩
  buffer _ _ _ _ h := h
  ssl _ _ h := h

/-- It stays so. -/
theorem keeps_serve_overread (env : Env) (reads : List Read) :
    Action.Keeps Overread (serve env reads : ServerM lib Bool) := by
  induction reads with
  | nil => exact Action.keeps_pure _
  | cons r reads ih =>
    refine Action.Keeps.bind ?_ fun ret => Action.keeps_ite (Action.keeps_pure _) ih
    intro srv h
    by_cases hr : r.base = []
    · rw [handleRead_eof hr]
      exact h
    · rw [handleRead_plain (.inl h.1) hr]
      exact overread_keptByParsing.handleBytes _ _ _ _ _ ⟨rfl, h.2⟩

/-- An empty buffer takes what is not too long. -/
theorem appendBuffer_run {data : Bytes} (h0 : srv.offset = 0) (hne : data ≠ [])
    (hle : data.length < JSONRPC_MAX_BUFFER) : ∃ len, appendBuffer data.length data srv =
      (.ok 1, { srv with buf := data, offset := data.length, len }) := by
  obtain ⟨state, ssl_config, ssl, ssl_buf, ssl_buf_len, ssl_buf_offset, buf, offset, len, session,
    commands, overread, pulled⟩ := srv
  obtain rfl : offset = 0 := h0
  have hpos := List.length_pos_of_ne_nil hne
  have hsmall : ¬ JSONRPC_MAX_BUFFER < (((0 : ℕ) : ℤ) + data.length + 1).toNat := by omega
  simp only [appendBuffer, if_neg (show ¬ (data.length : ℤ) ≤ 0 by omega), if_neg hsmall,
    JsonRPCServer.append, List.take_zero, List.nil_append, Nat.zero_add]
  split_ifs
  · exact ⟨_, rfl⟩
  · exact ⟨len, rfl⟩

/-- A buffer that does not begin like an HTTP request does not become one with what memory holds
behind it, if the search for `GET` stays inside. -/
theorem get_not_prefix_append (h : ¬ GET <+: l) (hin : 0 ∈ l ∨ GET <:+: l) (after : Bytes) :
    ¬ GET <+: l ++ after := by
  intro hpre
  obtain hpre | ⟨hlt, hsub⟩ := get_prefix_cases hpre
  · exact h hpre
  · obtain h0 | hinf := hin
    · exact absurd (hsub.subset h0) (by decide)
    · have := hinf.length_le
      rw [length_GET] at this
      omega

/-- Such a buffer goes to the loop over the lines. -/
theorem handleRead_parses (env : Env) (hplain : PlainRead r srv) (hr : r.base ≠ [])
    (hsound : srv.Sound) (h : ¬ GET <+: srv.kept ++ r.base)
    (hin : 0 ∈ srv.kept ++ r.base ∨ GET <:+: srv.kept ++ r.base) : handleRead env r srv =
      parseAgain env r.base.length (srv.kept ++ r.base).length (srv.kept ++ r.base ++ r.after)
        { srv.plain r with offset := 0 } := by
  have hsound' : (srv.plain r).Sound := hsound
  have hkept : (srv.plain r).kept = srv.kept := rfl
  have hscan := strstrScan_le r.after hin
  rw [handleRead_plain hplain hr, handleBytes_eq hsound', hkept,
    if_neg (get_not_prefix_append h hin r.after), decide_eq_false (by omega), Bool.or_false]

/-! ## Good reads -/

/-- The connection has handled some commands, looked at nothing it should not have, and keeps some
bytes. -/
structure Stands (srv : JsonRPCServer lib) (values : List Json) (kept : Bytes) : Prop where
  commands : srv.commands = values
  overread : srv.overread = false
  kept : srv.kept = kept
  sound : srv.Sound

variable {done : List Json} {kept t : Bytes} {reads : List Read}

/-- **A read of one line** that has `GET` in it is handled well. -/
theorem handleRead_line (hsrv : Stands srv done []) (hplain : PlainRead r srv) (hl : IsLine l)
    (hbase : r.base = l ++ [JSONRPC_DELIM]) (hget : GET <:+: l) (hv : env.parse l = some v)
    (h : Handles env r v) : ∃ srv', handleRead env r srv = (.ok 1, srv') ∧
      srv'.state = JsonRPCState.NORMAL ∧ Stands srv' (done ++ [v]) [] := by
  have hlen : r.base.length = l.length + 1 := by rw [hbase]; simp
  have hnot : ¬ GET <+: r.base := by
    rw [hbase]
    exact get_not_prefix_append hl.get (.inr hget) _
  have hin : GET <:+: r.base := hbase ▸ hget.trans (List.infix_append' [] l [JSONRPC_DELIM])
  set srv₀ : JsonRPCServer lib := { srv.plain r with offset := 0 } with hsrv₀
  obtain ⟨s', -, hrun⟩ := parseAgain_last r.after hl hv h
    (show MetBy r srv₀.session from ⟨rfl, rfl⟩)
    (show (r.base.length : ℤ) - 1 ≤ l.length by omega)
    (show (l.length : ℤ) + 1 ≤ r.base.length by omega)
  have hmem : r.base ++ r.after = l ++ JSONRPC_DELIM :: r.after := by rw [hbase]; simp
  have hparses := handleRead_parses env hplain (by rw [hbase]; simp) hsrv.sound
  rw [hsrv.kept, List.nil_append, hmem, hrun] at hparses
  exact ⟨_, hparses hnot (.inr hin), rfl,
    ⟨congrArg (· ++ [v]) hsrv.commands, hsrv.overread, rfl, Nat.zero_le _⟩⟩

/-- **A read that brings the zero byte** of the tail is handled well, and so is any later one: its
lines are handled, and the tail is kept. -/
theorem handleRead_tail (env : Env) (hsrv : Stands srv done kept) (hplain : PlainRead r srv)
    (hr : r.base ≠ []) (heq : kept ++ r.base = stream lines t) (hl : ∀ l ∈ lines, IsLine l)
    (hlt : ∀ l ∈ lines, (l.length : ℤ) < r.base.length - 1)
    (hv : List.Forall₂ (fun l v => env.parse l = some v) lines values)
    (h : ∀ v ∈ values, Handles env r v) (h0 : 0 ∈ t) (hdelim : JSONRPC_DELIM ∉ t)
    (hget : ¬ GET <+: t) (hle : t.length < JSONRPC_MAX_BUFFER) :
    ∃ srv', handleRead env r srv = (.ok 1, srv') ∧
      srv'.state = JsonRPCState.NORMAL ∧ Stands srv' (done ++ values) t := by
  have hne : t ≠ [] := List.ne_nil_of_mem h0
  have hlen := length_stream lines t
  have hin : 0 ∈ stream lines t := List.mem_append_right _ h0
  obtain ⟨hstr, hscan⟩ := strchr_of_zero r.after hdelim h0
  set srv₀ : JsonRPCServer lib := { srv.plain r with offset := 0 } with hsrv₀
  obtain ⟨s', -, hlines⟩ := parseAgain_lines (t ++ r.after) hl hv h
    (show MetBy r srv₀.session from ⟨rfl, rfl⟩) hlt
    (show ((stream lines []).length : ℤ) ≤ (stream lines t).length by omega)
  set srv₁ : JsonRPCServer lib :=
    { srv₀ with commands := srv₀.commands ++ values, session := s' } with hsrv₁
  obtain ⟨len, happend⟩ := appendBuffer_run (show srv₁.offset = 0 from rfl) hne hle
  have hrest : ((stream lines t).length : ℤ) - (stream lines []).length = t.length := by
    rw [hlen]
    push_cast
    omega
  have hrun : parseAgain env r.base.length (stream lines t).length (stream lines t ++ r.after)
      srv₀ = (.ok 1, { srv₁ with buf := t, offset := t.length, len }) := by
    rw [stream_append, hlines, hrest, parseAgain_none hstr, searched_eq (by omega),
      Int.toNat_natCast, List.take_left', happend]
    rfl
  have hparses := handleRead_parses env hplain hr hsrv.sound
  rw [hsrv.kept, heq, hrun] at hparses
  refine ⟨_, hparses (get_not_prefix_stream hl hget) (.inl hin), rfl,
    ⟨congrArg (· ++ values) hsrv.commands, hsrv.overread, List.take_length, le_refl _⟩⟩

/-! ## Bad reads -/

/-- The read is one whole line that has `GET` in it. -/
def IsGetLine (bs : Bytes) : Prop :=
  ∃ l, bs = l ++ [JSONRPC_DELIM] ∧ JSONRPC_DELIM ∉ l ∧ GET <:+: l

theorem get_infix_of_line (h : GET <:+: l ++ [JSONRPC_DELIM]) : GET <:+: l := by
  obtain hsuf | hinf := List.infix_concat_iff.mp h
  · obtain ⟨pre, hpre⟩ := hsuf
    have hconcat : (pre ++ ascii "GE") ++ ascii "T" = l ++ [JSONRPC_DELIM] := by
      rw [← hpre, List.append_assoc]
      rfl
    exact absurd (List.append_inj' hconcat rfl).2 (by decide)
  · exact hinf

/-- **Any other read** without a zero byte, on a connection that keeps nothing, makes the server
look behind it. -/
theorem handleRead_overread (hsrv : Stands srv done []) (hplain : PlainRead r srv)
    (hr : r.base ≠ []) (hbase : r.base = stream lines t) (hl : ∀ l ∈ lines, IsLine l)
    (hv : List.Forall₂ (fun l v => env.parse l = some v) lines values)
    (h : ∀ v ∈ values, Handles env r v) (h0 : 0 ∉ r.base) (hdelim : JSONRPC_DELIM ∉ t)
    (hget : ¬ GET <+: r.base) (hbad : ¬ IsGetLine r.base) :
    Overread (handleRead env r srv).2 := by
  have hkept : (srv.plain r).kept = [] := hsrv.kept
  by_cases hin : GET <:+: r.base
  · have hlt : ∀ l ∈ lines, (l.length : ℤ) < r.base.length - 1 := by
      intro l hmem
      have hne : stream lines t ≠ l ++ [JSONRPC_DELIM] := by
        intro heq
        rw [hbase, heq] at hin hbad
        exact hbad ⟨l, rfl, (hl l hmem).delim, get_infix_of_line hin⟩
      have := line_length_lt hmem hne
      rw [hbase]
      omega
    have h0t : 0 ∉ t := fun ht => h0 (hbase ▸ List.mem_append_right _ ht)
    have hlen := length_stream lines t
    have hscan := lt_strchrScan r.after hdelim h0t
    set srv₀ : JsonRPCServer lib := { srv.plain r with offset := 0 } with hsrv₀
    obtain ⟨s', -, hlines⟩ := parseAgain_lines (t ++ r.after) hl hv h
      (show MetBy r srv₀.session from ⟨rfl, rfl⟩) hlt
      (show ((stream lines []).length : ℤ) ≤ (stream lines t).length by omega)
    have hrest : ((stream lines t).length : ℤ) - (stream lines []).length = t.length := by
      rw [hlen]
      push_cast
      omega
    have hparses := handleRead_parses env hplain hr hsrv.sound
    rw [hsrv.kept, List.nil_append] at hparses
    rw [hparses hget (.inr hin)]
    rw [hrest, ← stream_append, ← hbase] at hlines
    rw [hlines]
    -- behind the last line the search finds neither a delimiter nor a zero byte
    refine overread_keptByParsing.parseAgain_of_searched env _ ⟨rfl, ?_⟩
    rw [JsonRPCServer.searched, decide_eq_true (by omega), Bool.or_true]
  · -- the search for `GET` leaves the read
    have hscan := lt_strstrScan r.after h0 hin
    have hsound : (srv.plain r).Sound := hsrv.sound
    rw [handleRead_plain hplain hr, handleBytes_eq hsound, hkept, List.nil_append,
      decide_eq_true (by omega), Bool.or_true]
    exact Action.keeps_ite
      ((overread_keptByParsing.write env _).bind fun _ => Action.keeps_pure _)
      (overread_keptByParsing.parseAgain _ _ _ _) _ ⟨rfl, rfl⟩

/-! ## Whole runs -/

/-- The reads are framed: every `HandleRead` returns non-zero, the commands handled are the values
in order, no byte that was not received is looked at, and the tail is what the buffer keeps. -/
def Frames (env : Env) (reads : List Read) (values : List Json) (tail : Bytes)
    (srv : JsonRPCServer lib) : Prop :=
  ∃ srv', serve env reads srv = (.ok true, srv') ∧ srv'.commands = values ∧
    srv'.overread = false ∧ srv'.buf.take srv'.offset = tail

theorem serve_cons {srv' : JsonRPCServer lib} (h : handleRead env r srv = (.ok 1, srv')) :
    serve env (r :: reads) srv = serve env reads srv' := by
  rw [serve, Action.bind_of_ok h, if_neg (by decide)]

/-- Once the zero byte is there, everything else is kept. -/
theorem frames_of_zero (hsrv : Stands srv done kept) (hstate : srv.state = JsonRPCState.NORMAL)
    (h0 : 0 ∈ kept) (hne : ∀ r ∈ reads, r.base ≠ [])
    (heq : kept ++ reads.flatMap Read.base = tail) (hdelim : JSONRPC_DELIM ∉ tail)
    (hget : ¬ GET <+: tail) (hle : tail.length < JSONRPC_MAX_BUFFER) :
    Frames env reads done tail srv := by
  induction reads generalizing srv kept with
  | nil =>
    rw [List.flatMap_nil, List.append_nil] at heq
    exact ⟨srv, rfl, hsrv.commands, hsrv.overread, hsrv.kept.trans heq⟩
  | cons r reads ih =>
    obtain ⟨hr, hne⟩ := List.forall_mem_cons.mp hne
    rw [List.flatMap_cons, ← List.append_assoc] at heq
    have hpre : kept ++ r.base <+: tail := ⟨_, heq⟩
    obtain ⟨srv', hrun, hstate', hsrv'⟩ := handleRead_tail env hsrv (.inl hstate) hr
      (show kept ++ r.base = stream [] (kept ++ r.base) from rfl) (by simp) (by simp) .nil (by simp)
      (List.mem_append_left _ h0) (fun hd => hdelim (hpre.subset hd))
      (fun hg => hget (hg.trans hpre)) (hpre.length_le.trans_lt hle)
    rw [List.append_nil] at hsrv'
    obtain ⟨srv'', hserve, h⟩ := ih hsrv' hstate' (List.mem_append_left _ h0) hne heq
    exact ⟨srv'', by rw [serve_cons hrun, hserve], h⟩

/-- Every read is one line that has `GET` in it, or a zero byte has been received with it or
before. -/
def ReadsWell (reads : List Read) : Prop :=
  ∀ pre r post, reads = pre ++ r :: post →
    IsGetLine r.base ∨ 0 ∈ (pre ++ [r]).flatMap Read.base

theorem readsWell_cons :
    ReadsWell (r :: reads) ↔ 0 ∈ r.base ∨ IsGetLine r.base ∧ ReadsWell reads := by
  constructor
  · intro h
    by_cases h0 : 0 ∈ r.base
    · exact .inl h0
    · refine .inr ⟨?_, ?_⟩
      · simpa [h0] using h [] r reads rfl
      · rintro pre r' post rfl
        simpa [h0] using h (r :: pre) r' post rfl
  · rintro h pre r' post heq
    cases pre with
    | nil =>
      obtain ⟨rfl, -⟩ := List.cons.inj heq
      obtain h0 | ⟨hline, -⟩ := h
      · exact .inr (by simpa using h0)
      · exact .inl hline
    | cons r₁ pre =>
      obtain ⟨rfl, rfl⟩ := List.cons.inj heq
      obtain h0 | ⟨-, h⟩ := h
      · exact .inr (by simp [h0])
      · obtain hline | h0 := h pre r' post rfl
        · exact .inl hline
        · exact .inr (by rw [List.cons_append, List.flatMap_cons]; exact List.mem_append_right _ h0)

/-- A read after which the server has looked too far spoils the run. -/
theorem not_frames_of_overread (h : Overread (handleRead env r srv).2) :
    ¬ Frames env (r :: reads) values tail srv := by
  rintro ⟨srv', hserve, -, hover, -⟩
  rcases hread : handleRead env r srv with ⟨e | ret, srv₁⟩
  · rw [serve, Action.bind_of_error hread] at hserve
    exact absurd (Prod.mk.inj hserve).1 (by simp)
  · rw [hread] at h
    rw [serve, Action.bind_of_ok hread] at hserve
    have hkeeps : Action.Keeps Overread
        (if ret = 0 then pure false else serve env reads : ServerM lib Bool) :=
      Action.keeps_ite (Action.keeps_pure false) (keeps_serve_overread env reads)
    have hlast := hkeeps srv₁ h
    rw [hserve] at hlast
    exact absurd (hlast.2.symm.trans hover) (by decide)

theorem frames_cons {srv' : JsonRPCServer lib} (h : handleRead env r srv = (.ok 1, srv')) :
    Frames env (r :: reads) values tail srv ↔ Frames env reads values tail srv' := by
  rw [Frames, Frames, serve_cons h]

/-- The zero byte of a stream is in its tail, and no line comes after it. -/
theorem eq_tail_of_zero (hl : ∀ l ∈ lines, IsLine l) (h0 : 0 ∈ t) (ht : JSONRPC_DELIM ∉ t)
    (heq : t ++ later = stream lines tail) : lines = [] ∧ t ++ later = tail := by
  cases lines with
  | nil => exact ⟨rfl, heq⟩
  | cons l lines =>
    obtain ⟨hl, -⟩ := List.forall_mem_cons.mp hl
    rw [stream_cons] at heq
    obtain ⟨mid, hmid, -⟩ | ⟨mid, hmid, hlater⟩ := List.append_eq_append_iff.mp heq
    · exact absurd (hmid ▸ List.mem_append_left mid h0) hl.zero
    · cases mid with
      | nil =>
        rw [List.append_nil] at hmid
        exact absurd (hmid ▸ h0) hl.zero
      | cons d mid =>
        obtain ⟨rfl, -⟩ := List.cons.inj hlater
        exact absurd (hmid ▸ List.mem_append_right l List.mem_cons_self) ht

/-- A read of one line is the first line of the stream. -/
theorem eq_line (hl : ∀ l ∈ lines, IsLine l) (ht : JSONRPC_DELIM ∉ t) (hline : JSONRPC_DELIM ∉ l)
    (heq : l ++ [JSONRPC_DELIM] = stream lines t) : lines = [l] ∧ t = [] := by
  cases lines with
  | nil =>
    rw [stream_nil] at heq
    exact absurd (heq ▸ List.mem_append_right l List.mem_cons_self) ht
  | cons l' lines =>
    obtain ⟨hl', -⟩ := List.forall_mem_cons.mp hl
    rw [stream_cons] at heq
    obtain ⟨rfl, hnil⟩ := cut_inj hline hl'.delim heq
    obtain ⟨rfl, rfl⟩ := stream_eq_nil hnil.symm
    exact ⟨rfl, rfl⟩

/-- The statement about a run, for a connection that keeps nothing. -/
theorem frames_iff (hsrv : Stands srv done []) (hplain : ∀ r ∈ reads.head?, PlainRead r srv)
    (hlines : ∀ l ∈ lines, IsLine l)
    (hv : List.Forall₂ (fun l v => env.parse l = some v) lines values)
    (h : ∀ r ∈ reads, ∀ v ∈ values, Handles env r v) (hdelim : JSONRPC_DELIM ∉ tail)
    (hget : ¬ GET <+: tail) (hle : tail.length < JSONRPC_MAX_BUFFER)
    (hreads : reads.flatMap Read.base = stream lines tail) (hne : ∀ r ∈ reads, r.base ≠ []) :
    Frames env reads (done ++ values) tail srv ↔ ReadsWell reads := by
  induction reads generalizing srv done lines values with
  | nil =>
    have hnil : stream lines tail = [] := hreads.symm
    obtain ⟨rfl, rfl⟩ := stream_eq_nil hnil
    cases hv
    refine iff_of_true ⟨srv, rfl, ?_, hsrv.overread, hsrv.kept⟩ ?_
    · rw [List.append_nil]
      exact hsrv.commands
    · intro pre r post heq
      simp at heq
  | cons r reads ih =>
    obtain ⟨hr, hne⟩ := List.forall_mem_cons.mp hne
    obtain ⟨hh, hhs⟩ := List.forall_mem_cons.mp h
    have hplain : PlainRead r srv := hplain r rfl
    rw [List.flatMap_cons] at hreads
    have hgets := get_not_prefix_stream hlines hget
    have hgetr : ¬ GET <+: r.base := fun hg => hgets (hg.trans ⟨_, hreads⟩)
    rw [readsWell_cons]
    obtain ⟨lines₁, lines₂, t, rfl, hbase, hlater, ht⟩ := exists_split hlines hdelim hreads
    obtain ⟨hl₁, hl₂⟩ := List.forall_mem_append.mp hlines
    obtain ⟨values₁, values₂, rfl, hv₁, hv₂⟩ := exists_of_forall₂_append hv
    obtain ⟨hh₁, hh₂⟩ := List.forall_mem_append.mp hh
    by_cases h0 : 0 ∈ r.base
    · -- the tail has begun, with its zero byte
      refine iff_of_true ?_ (.inl h0)
      have h0t : 0 ∈ t := by
        by_contra h0t
        exact zero_not_mem_stream hl₁ h0t (hbase ▸ h0)
      obtain ⟨rfl, rfl⟩ := eq_tail_of_zero hl₂ h0t ht hlater
      cases hv₂
      have hlt : ∀ l ∈ lines₁, (l.length : ℤ) < r.base.length - 1 := by
        intro l hmem
        have hne : stream lines₁ t ≠ l ++ [JSONRPC_DELIM] := by
          intro heq
          rw [hbase, heq, List.mem_append] at h0
          exact h0.elim (hl₁ l hmem).zero (by decide)
        have := line_length_lt hmem hne
        rw [hbase]
        omega
      have hpre : t <+: t ++ reads.flatMap Read.base := List.prefix_append _ _
      obtain ⟨srv', hrun, hstate, hsrv'⟩ := handleRead_tail env hsrv hplain hr hbase hl₁ hlt hv₁ hh₁
        h0t ht (fun hg => hget (hg.trans hpre)) (hpre.length_le.trans_lt hle)
      rw [frames_cons hrun, List.append_nil]
      exact frames_of_zero hsrv' hstate h0t hne rfl hdelim hget hle
    · rw [or_iff_right h0]
      by_cases hline : IsGetLine r.base
      · rw [and_iff_right hline]
        obtain ⟨l, hl, hdl, hgl⟩ := hline
        obtain ⟨rfl, rfl⟩ := eq_line hl₁ ht hdl (hl.symm.trans hbase)
        obtain ⟨v, _, hvl, hnil, rfl⟩ := List.forall₂_cons_left_iff.mp hv₁
        cases hnil
        obtain ⟨srv', hrun, hstate, hsrv'⟩ := handleRead_line hsrv hplain
          (hl₁ l List.mem_cons_self) hl hgl hvl (hh₁ v List.mem_cons_self)
        rw [frames_cons hrun, ← List.append_assoc]
        exact ih hsrv' (fun _ _ => .inl hstate) hl₂ hv₂
          (fun r' hr' v' hv' => hhs r' hr' v' (List.mem_append_right _ hv')) hlater hne
      · -- the server looks behind the read, whatever stands there
        refine iff_of_false (not_frames_of_overread ?_) fun hw => hline hw.1
        exact handleRead_overread hsrv hplain hr hbase hl₁ hv₁ hh₁ h0 ht hgetr hline

/-- A client of a plain connection: lines that parse and are handled without throwing, a tail that
fits the buffer, and reads that cut the stream in any way. -/
structure PlainClient (env : Env) (reads : List Read) (lines : List Bytes) (values : List Json)
    (tail : Bytes) : Prop where
  bytes : reads.flatMap Read.base = stream lines tail
  nonempty : ∀ r ∈ reads, r.base ≠ []
  hello : ∀ r ∈ reads.head?, isTLSClientHello r.base = false
  isLine : ∀ l ∈ lines, IsLine l
  parse : List.Forall₂ (fun l v => env.parse l = some v) lines values
  handles : ∀ r ∈ reads, ∀ v ∈ values, Handles env r v
  delim : JSONRPC_DELIM ∉ tail
  get : ¬ GET <+: tail
  fits : tail.length < JSONRPC_MAX_BUFFER

/-- **Framing on a plain connection.** Whatever the client sends, and however it is cut into reads,
they are framed if and only if each of them is one whole line with `GET` in it, or comes with or
after a zero byte. -/
theorem serve_frames_iff (env : Env) (lib : Mbedtls) (ssl_config : Bool) (session : Session)
    (h : PlainClient env reads lines values tail) :
    Frames env reads values tail (.accepted lib ssl_config session) ↔ ReadsWell reads :=
  frames_iff (show Stands (.accepted lib ssl_config session) [] [] from ⟨rfl, rfl, rfl, le_refl _⟩)
    (fun r hr => .inr ⟨rfl, h.hello r hr⟩) h.isLine h.parse h.handles h.delim h.get h.fits h.bytes
    h.nonempty

/-- A request whose method is called `GET`. -/
def getText : Bytes := ascii "\x7b\"id\":1,\"method\":\"GET\"\x7d"

/-- A client that asks for a method that is not there. -/
def getEnv : Env := .answering getText (bareRequest "GET" 1)
  (ascii <| "\x7b\"error\":\x7b\"code\":-32601,\"message\":\"Method not found\"\x7d," ++
    "\"id\":1,\"jsonrpc\":\"2.0\"\x7d")
  (by decide) (by decide +kernel) (by decide +kernel)

/-- Its request, twice, and then the beginning of a line with a zero byte in it. -/
def getReads : List Read :=
  [.ofBytes (getText ++ [JSONRPC_DELIM]), .ofBytes (getText ++ [JSONRPC_DELIM]), .ofBytes [0x7b, 0]]

/-- Each request comes in one read, and they are framed. -/
theorem serve_frames_get : Frames getEnv getReads [bareRequest "GET" 1, bareRequest "GET" 1]
    [0x7b, 0] (.accepted nullCipher false .fresh) := by
  have hline : IsLine getText := ⟨by decide, by decide, by decide⟩
  have hgetLine : IsGetLine (getText ++ [JSONRPC_DELIM]) :=
    ⟨getText, rfl, by decide, by decide +kernel⟩
  have hclient : PlainClient getEnv getReads [getText, getText]
      [bareRequest "GET" 1, bareRequest "GET" 1] [0x7b, 0] :=
    { bytes := by decide +kernel
      nonempty := by simp [getReads, Read.ofBytes]
      hello := by
        intro r hr
        rw [← Option.some.inj hr]
        decide
      isLine := by simpa using hline
      parse := .cons rfl (.cons rfl .nil)
      handles := by
        intro r _ v hv s _
        have hv : v = bareRequest "GET" 1 := by simpa using hv
        rw [hv]
        rfl
      delim := by decide
      get := by decide
      fits := by decide }
  refine (serve_frames_iff _ _ _ _ hclient).mpr ?_
  refine readsWell_cons.mpr (.inr ⟨hgetLine, readsWell_cons.mpr (.inr ⟨hgetLine, ?_⟩)⟩)
  exact readsWell_cons.mpr (.inl (by decide))

/-- Two pings in one read are not framed. -/
theorem serve_not_frames : ¬ ∀ reads lines values tail,
    PlainClient pingEnv reads lines values tail →
    Frames pingEnv reads values tail (.accepted nullCipher false .fresh) := by
  intro h
  have hping : IsLine pingText := ⟨by decide, by decide, by decide⟩
  have hclient : PlainClient pingEnv [.ofBytes (stream [pingText, pingText] [])]
      [pingText, pingText] [bareRequest "server.ping" 1, bareRequest "server.ping" 1] [] :=
    { bytes := List.append_nil _
      nonempty := by simp [Read.ofBytes, stream_cons]
      hello := by
        intro r hr
        rw [← Option.some.inj hr]
        decide
      isLine := by simpa using hping
      parse := .cons rfl (.cons rfl .nil)
      handles := by
        intro r _ v hv s _
        have hv : v = bareRequest "server.ping" 1 := by simpa using hv
        rw [hv]
        rfl
      delim := by decide
      get := by decide
      fits := by decide }
  refine not_frames_of_overread ?_ (h _ _ _ _ hclient)
  have hget : ¬ GET <:+: stream [pingText, pingText] [] := by decide +kernel
  have hline : ¬ IsGetLine (stream [pingText, pingText] []) := by
    rintro ⟨l, hl, -, hinf⟩
    exact hget (hl ▸ hinf.trans (List.infix_append' [] l [JSONRPC_DELIM]))
  exact handleRead_overread ⟨rfl, rfl, rfl, le_refl _⟩ (.inr ⟨rfl, hclient.hello _ rfl⟩)
    (hclient.nonempty _ List.mem_cons_self) rfl hclient.isLine hclient.parse
    (hclient.handles _ List.mem_cons_self)
    (zero_not_mem_stream hclient.isLine List.not_mem_nil) hclient.delim
    (get_not_prefix_stream hclient.isLine hclient.get) hline

end ElectrumZ.Net
