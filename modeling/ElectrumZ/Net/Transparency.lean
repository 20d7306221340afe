import ElectrumZ.Net.Plaintext

/-!
# Messages over TLS

What a client sends over TLS should be dispatched like the same lines in plain text.

* `handleRead_part`: a read that leaves a record incomplete closes the connection.
* `handleRead_whole`: a read with a whole record has its lines handled, and then, since the
  plaintext is shorter than the read, what memory holds behind it is handled as well.
* `transparent_iff`: so the messages are dispatched, whatever memory holds, if and only if there
  are none, or all of them come in one record in one read and the last one fails.
-/

namespace ElectrumZ.Net

open Foundations Blockchain Commands JsonRPCServer

variable {lib : Mbedtls} {env : Env} {r : Read} {srv srv' : JsonRPCServer lib} {ctx : lib.Ctx}
  {lines : List Bytes} {values good : List Json} {v : Json} {t : Bytes} {reads reads' : List Read}

/-! ## Records -/

/-- The bytes of a record, and what they decrypt to. -/
structure TlsRecord where
  plain : Bytes
  cipher : Bytes

/-- What the server relies on: `mbedtls_ssl_read` wants more while a record is incomplete, and
returns the plaintext of a whole one if the buffer is large enough. -/
structure Expects (env : Env) (lib : Mbedtls) (ctx : lib.Ctx) (record : TlsRecord) : Prop where
  nonempty : record.plain ≠ []
  longer : record.plain.length < record.cipher.length
  part : ∀ q len, q.bytes <+: record.cipher → q.bytes.length < record.cipher.length →
    ((lib.read ctx len).play (queue env) q).1.1 = .wantRead
  whole : ∀ q len rest, q.bytes = record.cipher ++ rest → record.plain.length ≤ len →
    ((lib.read ctx len).play (queue env) q).1.1 = .ofData record.plain

variable {record : TlsRecord} {records : List TlsRecord}

/-- A connection that has shaken hands, and has handled nothing yet. -/
structure Established (srv : JsonRPCServer lib) (ctx : lib.Ctx) : Prop where
  state : srv.state = JsonRPCState.SSL_NORMAL
  ssl : srv.ssl = some ctx
  ssl_buf : srv.ssl_buf = none
  offset : srv.offset = 0
  commands : srv.commands = []

/-! ## One read -/

/-- A message parses, so it is not empty, does not begin like an HTTP request, and has no zero byte
in it. -/
theorem isLine_of_parse {l : Bytes} (hdelim : JSONRPC_DELIM ∉ l) (h : env.parse l = some v) :
    IsLine l where
  delim := hdelim
  zero h0 := nomatch (env.parse_control 0 l (by decide) h0).symm.trans h
  get := by
    rintro ⟨rest, rfl⟩
    exact nomatch (env.parse_capital 0x47 _ (by decide) (by decide)).symm.trans h

/-- **An incomplete record closes the connection**: the error code is appended as a length. -/
theorem handleRead_part (h : Established srv ctx) (hexpects : Expects env lib ctx record)
    (hr : r.base ≠ []) (hpart : r.base <+: record.cipher)
    (hlt : r.base.length < record.cipher.length) :
    (handleRead env r srv).1 = .ok 0 ∧ (handleRead env r srv).2.commands = [] := by
  obtain ⟨srv₁, hrun, -, -, -, -, -, hcommands⟩ :=
    handleRead_decrypted env hr h.state h.ssl_buf h.ssl
  have hread : (decrypt env (srv.receive r) ctx r.base).1.1 = .wantRead :=
    hexpects.part _ _ hpart hlt
  rw [hrun, hread]
  exact ⟨rfl, hcommands.trans h.commands⟩

/-- **A whole record** is searched for lines, with the size of the read as a bound. -/
theorem handleRead_whole (h : Established srv ctx) (hexpects : Expects env lib ctx record)
    (hbase : record.cipher <+: r.base) (hget : ¬ GET <+: record.plain ++ r.after) :
    ∃ srv₁ : JsonRPCServer lib, MetBy r srv₁.session ∧ srv₁.commands = [] ∧
      handleRead env r srv =
        parseAgain env r.base.length record.plain.length (record.plain ++ r.after) srv₁ := by
  obtain ⟨rest, hrest⟩ := hbase
  have hlen : record.plain.length < r.base.length :=
    hexpects.longer.trans_le (by rw [← hrest, List.length_append]; omega)
  have hr : r.base ≠ [] := List.ne_nil_of_length_pos (by omega)
  obtain ⟨srv₁, hrun, -, -, hoffset, -, hsession, hcommands⟩ :=
    handleRead_decrypted env hr h.state h.ssl_buf h.ssl
  have hread : (decrypt env (srv.receive r) ctx r.base).1.1 = .ofData record.plain :=
    hexpects.whole _ _ rest hrest.symm (hlen.le.trans (le_readLen _))
  have hpos := SslRead.ofData_pos hexpects.nonempty
  have hoffset₁ : srv₁.offset = 0 := hoffset.trans h.offset
  have hsound : srv₁.Sound := by rw [Sound, hoffset₁]; exact Nat.zero_le _
  have hkept : srv₁.kept = [] := by rw [kept, hoffset₁, List.take_zero]
  have hmet : MetBy r srv₁.session := hsession ▸ play_metBy _ ⟨rfl, rfl⟩
  rw [hrun, hread, handleDecrypted, if_neg (by omega),
    if_neg (by rw [MBEDTLS_ERR_SSL_WANT_READ]; omega)]
  refine ⟨{ srv₁ with
    offset := 0
    overread := srv₁.overread ||
      decide ((record.plain.length : ℤ) < strstrScan (record.plain ++ r.after)) },
    hmet, hcommands.trans h.commands, (handleBytes_eq hsound record.plain).trans ?_⟩
  rw [hkept, List.nil_append, if_neg hget]

/-- A message that fails is the last that is dispatched. -/
theorem parseAgain_fails {l : Bytes} (hl : IsLine l) (hparse : env.parse l = some v)
    (hv : ¬ Answerable env srv.session v) (nread : ℕ) (buf_len : ℤ) (rest : Bytes) :
    (parseAgain env nread buf_len (l ++ JSONRPC_DELIM :: rest) srv).2.commands =
        srv.commands ++ [v] ∧
      ∀ ret, (parseAgain env nread buf_len (l ++ JSONRPC_DELIM :: rest) srv).1 = .ok ret →
        ret = 0 := by
  obtain ⟨e, ⟨s', hrun, -⟩, -⟩ := handleCommand_fails env hv
  rw [parseAgain_some (strchr_append rest hl.delim hl.zero).1]
  set srv₁ := srv.searched (l ++ JSONRPC_DELIM :: rest) buf_len with hsrv₁
  have hline : ∃ srv₂ : JsonRPCServer lib, srv₂.commands = srv.commands ++ [v] ∧
      (handleLine env l srv₁ = (.ok false, srv₂) ∨
        ∃ e, handleLine env l srv₁ = (.error e, srv₂)) := by
    refine ⟨{ srv₁ with commands := srv.commands ++ [v], session := s' }, rfl, ?_⟩
    rw [handleLine, hparse]
    simp only [onSession, Action.zoom, hsrv₁, JsonRPCServer.searched, hrun]
    cases e with
    | json => exact .inl rfl
    | stream | assertion | null | blocked => exact .inr ⟨_, rfl⟩
  obtain ⟨srv₂, hcommands, hline | ⟨e, hline⟩⟩ := hline
  · rw [Action.bind_of_ok hline, if_pos rfl]
    exact ⟨hcommands, fun ret hret => (Except.ok.inj hret).symm⟩
  · rw [Action.bind_of_error hline]
    exact ⟨hcommands, by simp⟩

/-- A read that closes the connection is the last. -/
theorem serve_of_closed (h : ∀ ret, (handleRead env r srv).1 = .ok ret → ret = 0) :
    (serve env (r :: reads) srv).2 = (handleRead env r srv).2 := by
  rw [serve]
  rcases hread : handleRead env r srv with ⟨e | ret, srv'⟩
  · rw [Action.bind_of_error hread]
  · rw [hread] at h
    rw [Action.bind_of_ok hread, if_pos (h ret rfl)]
    rfl

/-- A part of a stream of messages does not become an HTTP request with what memory holds behind. -/
theorem get_not_prefix_of_messages {plain later : Bytes} (hne : plain ≠ [])
    (heq : plain ++ later = stream lines [])
    (hparse : List.Forall₂ (fun l v => env.parse l = some v) lines values) (after : Bytes) :
    ¬ GET <+: plain ++ after := by
  rintro ⟨rest, hrest⟩
  obtain ⟨b, plain, rfl⟩ := List.exists_cons_of_ne_nil hne
  obtain ⟨rfl, -⟩ := List.cons.inj hrest
  cases hparse with
  | nil => exact nomatch heq
  | @cons l v lines values hl _ =>
    rw [stream_cons] at heq
    cases l with
    | nil => exact nomatch env.parse_nil.symm.trans hl
    | cons b l =>
      obtain ⟨rfl, -⟩ := List.cons.inj heq
      exact nomatch (env.parse_capital 0x47 l (by decide) (by decide)).symm.trans hl

variable (h : Established srv ctx) (hexpects : Expects env lib ctx record)
  (hbase : record.cipher <+: r.base)

include h hexpects hbase

/-- Messages that are answered are dispatched, and the loop goes on behind them. -/
theorem handleRead_messages (rest : Bytes) (hplain : record.plain ++ r.after = stream lines rest)
    (hlines : (stream lines []).length ≤ record.plain.length)
    (hget : ¬ GET <+: record.plain ++ r.after) (hl : ∀ l ∈ lines, IsLine l)
    (hparse : List.Forall₂ (fun l v => env.parse l = some v) lines values)
    (hv : ∀ v ∈ values, Answerable env (.opened r.store r.rpc) v) :
    ∃ srv₁ : JsonRPCServer lib, MetBy r srv₁.session ∧ srv₁.commands = values ∧
      handleRead env r srv = parseAgain env r.base.length
        (record.plain.length - (stream lines []).length) rest srv₁ := by
  obtain ⟨srv₁, hmet, hcommands, hrun⟩ := handleRead_whole h hexpects hbase hget
  have hlen : record.plain.length < r.base.length := hexpects.longer.trans_le hbase.length_le
  -- every line is shorter than the read, so the loop always goes on
  have hlt : ∀ l ∈ lines, (l.length : ℤ) < r.base.length - 1 := by
    intro l hmem
    have : l.length + 1 ≤ (stream lines []).length := line_length_le hmem
    omega
  obtain ⟨s', hmet', hrun'⟩ := parseAgain_lines rest hl hparse
    (fun v hmem => handles_of_answerable (hv v hmem)) hmet hlt
    (show ((stream lines []).length : ℤ) ≤ record.plain.length by omega)
  refine ⟨{ srv₁ with commands := srv₁.commands ++ values, session := s' }, hmet', ?_,
    hrun.trans (hplain ▸ hrun')⟩
  rw [hcommands, List.nil_append]

/-- A message that fails ends the dispatch, and the connection. -/
theorem handleRead_failing {l : Bytes} {lines' : List Bytes}
    (hplain : record.plain = stream (lines ++ l :: lines') t)
    (hget : ¬ GET <+: record.plain ++ r.after) (hl : ∀ l' ∈ lines ++ [l], IsLine l')
    (hparse : List.Forall₂ (fun l v => env.parse l = some v) lines good)
    (hgood : ∀ v ∈ good, Answerable env (.opened r.store r.rpc) v) (hparse' : env.parse l = some v)
    (hv : ¬ Answerable env (.opened r.store r.rpc) v) :
    (serve env (r :: reads) srv).2.commands = good ++ [v] := by
  obtain ⟨hl, hl'⟩ := List.forall_mem_append.mp hl
  have hsplit : record.plain = stream lines (l ++ JSONRPC_DELIM :: stream lines' t) := by
    rw [hplain, stream, List.flatMap_append, ← stream_cons, stream, stream, List.append_assoc]
  have hmem : record.plain ++ r.after =
      stream lines (l ++ JSONRPC_DELIM :: (stream lines' t ++ r.after)) := by
    rw [hsplit, stream_append, List.append_assoc, List.cons_append]
  have hle : (stream lines []).length ≤ record.plain.length := hsplit ▸ length_stream_le _ _
  obtain ⟨srv₁, hmet, hcommands, hrun⟩ := handleRead_messages h hexpects hbase _ hmem hle hget hl
    hparse hgood
  have hv₁ : ¬ Answerable env srv₁.session v := fun hv₁ => hv ((answerable_congr hmet).mp hv₁)
  obtain ⟨hdispatched, hclosed⟩ := parseAgain_fails (hl' l List.mem_cons_self) hparse' hv₁
    r.base.length (record.plain.length - (stream lines []).length) (stream lines' t ++ r.after)
  rw [← hrun] at hdispatched hclosed
  rw [serve_of_closed hclosed, hdispatched, hcommands]

/-- When all messages of the record are answered, a control character in the memory behind ends the
dispatch. -/
theorem handleRead_control (hplain : record.plain = stream lines t)
    (hafter : r.after = [1, JSONRPC_DELIM]) (hdelim : JSONRPC_DELIM ∉ t) (h0 : 0 ∉ t)
    (hget : ¬ GET <+: record.plain ++ r.after) (hl : ∀ l' ∈ lines, IsLine l')
    (hparse : List.Forall₂ (fun l v => env.parse l = some v) lines values)
    (hv : ∀ v ∈ values, Answerable env (.opened r.store r.rpc) v) :
    (serve env (r :: reads) srv).2.commands = values := by
  have hmem : record.plain ++ r.after = stream lines ((t ++ [1]) ++ JSONRPC_DELIM :: []) := by
    rw [hplain, stream_append, hafter, List.append_assoc, List.singleton_append]
  have hle : (stream lines []).length ≤ record.plain.length := hplain ▸ length_stream_le _ _
  obtain ⟨srv₁, -, hcommands, hrun⟩ := handleRead_messages h hexpects hbase _ hmem hle hget hl
    hparse hv
  have hdelim' : JSONRPC_DELIM ∉ t ++ [1] := by
    rw [List.mem_append, not_or]
    exact ⟨hdelim, by decide⟩
  have h0' : 0 ∉ t ++ [1] := by
    rw [List.mem_append, not_or]
    exact ⟨h0, by decide⟩
  have hline (srv' : JsonRPCServer lib) : handleLine env (t ++ [1]) srv' = (.ok false, srv') := by
    rw [handleLine, env.parse_control 1 _ (by decide) (List.mem_append_right _ List.mem_cons_self)]
  rw [parseAgain_some (strchr_append [] hdelim' h0').1, Action.bind_of_ok (hline _), if_pos rfl]
    at hrun
  rw [serve_of_closed (by rw [hrun]; exact fun ret hret => (Except.ok.inj hret).symm), hrun]
  exact hcommands

/-- When memory holds a message behind them, it is dispatched too. -/
theorem handleRead_again {l : Bytes} (hplain : record.plain = stream lines [])
    (hafter : r.after = l ++ [JSONRPC_DELIM]) (hmem : l ∈ lines)
    (hget : ¬ GET <+: record.plain ++ r.after) (hl : ∀ l' ∈ lines, IsLine l')
    (hparse : List.Forall₂ (fun l v => env.parse l = some v) lines values)
    (hv : ∀ v ∈ values, Answerable env (.opened r.store r.rpc) v) (hparse' : env.parse l = some v)
    (hvl : v ∈ values) : (serve env (r :: reads) srv).2.commands = values ++ [v] := by
  have hlen : record.plain.length < r.base.length := hexpects.longer.trans_le hbase.length_le
  have hlt : l.length + 1 ≤ record.plain.length := hplain ▸ line_length_le hmem
  have heq : record.plain ++ r.after = stream lines (l ++ JSONRPC_DELIM :: []) := by
    rw [hplain, stream_append, hafter, List.nil_append]
  obtain ⟨srv₁, hmet, hcommands, hrun⟩ := handleRead_messages h hexpects hbase _ heq
    (hplain ▸ le_refl _) hget hl hparse hv
  set buf_len : ℤ := record.plain.length - (stream lines []).length with hbuf_len
  have hzero : buf_len = 0 := by rw [hbuf_len, hplain, sub_self]
  set srv₂ := srv₁.searched (l ++ [JSONRPC_DELIM]) buf_len with hsrv₂
  obtain ⟨s', -, hline⟩ := handleLine_run hparse' (handles_of_answerable (hv v hvl))
    (show MetBy r srv₂.session from hmet)
  rw [parseAgain_some (strchr_append [] (hl l hmem).delim (hl l hmem).zero).1,
    Action.bind_of_ok hline, if_neg (by decide), if_pos (by omega), parseAgain_none rfl,
    appendBuffer, if_pos (by omega)] at hrun
  rw [serve_of_closed (by rw [hrun]; exact fun ret hret => (Except.ok.inj hret).symm), hrun]
  show srv₁.commands ++ [v] = values ++ [v]
  rw [hcommands]

omit h hexpects hbase

/-! ## Whole runs -/

/-- A client that sends messages over TLS: the lines are cut into records in any way, and the
records into reads. -/
structure TlsClient (env : Env) (srv : JsonRPCServer lib) (reads : List Read)
    (records : List TlsRecord) (lines : List Bytes) (values : List Json) : Prop where
  plain : records.flatMap TlsRecord.plain = stream lines []
  cipher : reads.flatMap Read.base = records.flatMap TlsRecord.cipher
  nonempty : ∀ r ∈ reads, r.base ≠ []
  delim : ∀ l ∈ lines, JSONRPC_DELIM ∉ l
  parse : List.Forall₂ (fun l v => env.parse l = some v) lines values
  established : ∃ ctx, Established srv ctx ∧ ∀ record ∈ records.head?, Expects env lib ctx record

/-- The same reads, whatever memory holds behind them. -/
def Alike (reads reads' : List Read) : Prop :=
  List.Forall₂ (fun r r' => r' = { r with after := r'.after }) reads reads'

/-- Whatever memory holds behind the reads, the values are dispatched, in order, and no others. -/
def Transparent (env : Env) (reads : List Read) (values : List Json) (srv : JsonRPCServer lib) :
    Prop :=
  ∀ reads', Alike reads reads' → (serve env reads' srv).2.commands = values

/-- All messages are in the first record, that record is in the first read, and all messages but the
last are answered. -/
def FailsAtLast (env : Env) (reads : List Read) (records : List TlsRecord) (lines : List Bytes)
    (values : List Json) : Prop :=
  ∃ r reads' record records' good v, reads = r :: reads' ∧ records = record :: records' ∧
    record.cipher <+: r.base ∧ record.plain = stream lines [] ∧ values = good ++ [v] ∧
    (∀ v' ∈ good, Answerable env (.opened r.store r.rpc) v') ∧
    ¬ Answerable env (.opened r.store r.rpc) v

theorem isLine_of_forall₂ (hdelim : ∀ l ∈ lines, JSONRPC_DELIM ∉ l)
    (hparse : List.Forall₂ (fun l v => env.parse l = some v) lines values) :
    ∀ l ∈ lines, IsLine l := by
  intro l hmem
  obtain ⟨v, hv⟩ : ∃ v, env.parse l = some v := by
    induction hparse with
    | nil => exact absurd hmem List.not_mem_nil
    | @cons l' v lines values hv _ ih =>
      obtain rfl | hmem := List.mem_cons.mp hmem
      · exact ⟨v, hv⟩
      · exact ih (fun l hl => hdelim l (List.mem_cons_of_mem _ hl)) hmem
  exact isLine_of_parse (hdelim l hmem) hv

/-- The first element that fails a property. -/
theorem exists_first {α : Type} {P : α → Prop} {as : List α} (h : ¬ ∀ a ∈ as, P a) :
    ∃ good a rest, as = good ++ a :: rest ∧ (∀ b ∈ good, P b) ∧ ¬ P a := by
  induction as with
  | nil => exact absurd (fun a ha => absurd ha List.not_mem_nil) h
  | cons a as ih =>
    by_cases ha : P a
    · obtain ⟨good, b, rest, rfl, hgood, hb⟩ :=
        ih fun has => h (List.forall_mem_cons.mpr ⟨ha, has⟩)
      exact ⟨a :: good, b, rest, rfl, List.forall_mem_cons.mpr ⟨ha, hgood⟩, hb⟩
    · exact ⟨[], a, as, rfl, by simp, ha⟩

theorem alike_cons (r : Read) (after : Bytes) (reads : List Read) :
    Alike (r :: reads) ({ r with after } :: reads) :=
  .cons rfl (List.forall₂_same.mpr fun _ _ => rfl)

/-- If all messages come in one record in one read and the last one fails, they are dispatched. -/
theorem transparent_of_failsAtLast (h : TlsClient env srv reads records lines values)
    (hlast : FailsAtLast env reads records lines values) : Transparent env reads values srv := by
  obtain ⟨r, reads, record, records, good, v, rfl, rfl, hbase, hplain, rfl, hgood, hv⟩ := hlast
  obtain ⟨ctx, hest, hexpects⟩ := h.established
  have hrecord : Expects env lib ctx record := hexpects record rfl
  have hl := isLine_of_forall₂ h.delim h.parse
  obtain ⟨lines₁, lines₂, rfl, hparse₁, hparse₂⟩ := exists_of_forall₂_append_right h.parse
  obtain ⟨l, _, hparse, hnil, rfl⟩ := List.forall₂_cons_right_iff.mp hparse₂
  cases hnil
  rintro _ (_ | ⟨hr, -⟩)
  rw [hr]
  have hget := get_not_prefix_of_messages hrecord.nonempty
    ((List.append_nil _).trans hplain) h.parse
  exact handleRead_failing hest hrecord hbase hplain (hget _) hl hparse₁ hgood hparse hv

theorem alike_refl (reads : List Read) : Alike reads reads := List.forall₂_same.mpr fun _ _ => rfl

/-- Without messages there is nothing to read. -/
theorem transparent_nil (h : TlsClient env srv reads records lines []) :
    Transparent env reads [] srv := by
  obtain ⟨ctx, hest, hexpects⟩ := h.established
  have hlines : lines = [] := List.forall₂_nil_right_iff.mp h.parse
  have hrecords : records = [] := by
    cases records with
    | nil => rfl
    | cons record records =>
      have hplain := h.plain
      rw [hlines, stream_nil, List.flatMap_cons, List.append_eq_nil_iff] at hplain
      exact absurd hplain.1 (hexpects record rfl).nonempty
  have hreads : reads = [] := by
    cases reads with
    | nil => rfl
    | cons r reads =>
      have hcipher := h.cipher
      rw [hrecords, List.flatMap_nil, List.flatMap_cons, List.append_eq_nil_iff] at hcipher
      exact absurd hcipher.1 (h.nonempty r List.mem_cons_self)
  subst hreads
  rintro _ ⟨⟩
  exact hest.commands

/-- If messages are dispatched whatever memory holds, then the first read has the whole first
record. -/
theorem whole_of_transparent (h : TlsClient env srv (r :: reads) (record :: records) lines values)
    (hest : Established srv ctx) (hrecord : Expects env lib ctx record)
    (htrans : Transparent env (r :: reads) values srv) (hne : values ≠ []) :
    record.cipher <+: r.base := by
  have hcipher := h.cipher
  rw [List.flatMap_cons, List.flatMap_cons] at hcipher
  obtain hpart | hwhole := List.prefix_or_prefix_of_prefix ⟨_, rfl⟩ ⟨_, hcipher.symm⟩
  · by_cases hlt : r.base.length < record.cipher.length
    · obtain ⟨hzero, hcommands⟩ :=
        handleRead_part hest hrecord (h.nonempty r List.mem_cons_self) hpart hlt
      have hserve := htrans _ (alike_refl _)
      rw [serve_of_closed fun ret hret => Except.ok.inj (hret.symm.trans hzero), hcommands]
        at hserve
      exact absurd hserve.symm hne
    · exact (hpart.eq_of_length_le (by omega)) ▸ List.prefix_rfl
  · exact hwhole

/-- If messages are dispatched whatever memory holds, then they come in one record in one read and
the last one fails. -/
theorem failsAtLast_of_transparent (h : TlsClient env srv reads records lines values)
    (htrans : Transparent env reads values srv) (hne : values ≠ []) :
    FailsAtLast env reads records lines values := by
  obtain ⟨ctx, hest, hexpects⟩ := h.established
  have hl := isLine_of_forall₂ h.delim h.parse
  have hlines : lines ≠ [] := fun hnil => hne (List.forall₂_nil_left_iff.mp (hnil ▸ h.parse))
  obtain ⟨record, records, rfl⟩ : ∃ record rest, records = record :: rest := by
    refine List.exists_cons_of_ne_nil fun hnil => hlines ?_
    have hplain := h.plain
    rw [hnil] at hplain
    exact (stream_eq_nil hplain.symm).1
  have hrecord : Expects env lib ctx record := hexpects record rfl
  obtain ⟨r, reads, rfl⟩ : ∃ r rest, reads = r :: rest := by
    refine List.exists_cons_of_ne_nil fun hnil => ?_
    have hcipher := h.cipher
    rw [hnil, List.flatMap_nil, List.flatMap_cons, eq_comm, List.append_eq_nil_iff] at hcipher
    have hlonger := hrecord.longer
    rw [hcipher.1] at hlonger
    exact absurd hlonger (Nat.not_lt_zero _)
  have hbase := whole_of_transparent h hest hrecord htrans hne
  have hplain := h.plain
  rw [List.flatMap_cons] at hplain
  have hget := get_not_prefix_of_messages hrecord.nonempty hplain h.parse
  have h0 := zero_not_mem_stream hl List.not_mem_nil
  rw [← hplain] at h0
  obtain ⟨lines₁, lines₂, t, rfl, hrest, hlater, hdelim⟩ := exists_split hl List.not_mem_nil hplain
  obtain ⟨values₁, values₂, rfl, hparse₁, hparse₂⟩ := exists_of_forall₂_append h.parse
  obtain ⟨hl₁, hl₂⟩ := List.forall_mem_append.mp hl
  have h0t : 0 ∉ t := fun ht => h0 (List.mem_append_left _ (hrest ▸ List.mem_append_right _ ht))
  -- nothing follows what has been dispatched
  have hend : values₂ = [] → lines₂ = [] ∧ t = [] := by
    rintro rfl
    obtain rfl := List.forall₂_nil_right_iff.mp hparse₂
    exact ⟨rfl, (List.append_eq_nil_iff.mp hlater).1⟩
  by_cases hv : ∀ v ∈ values₁, Answerable env (.opened r.store r.rpc) v
  · -- all messages of the record are answered, so what memory holds decides
    have hcontrol := htrans _ (alike_cons r [1, JSONRPC_DELIM] reads)
    have hbase₁ : record.cipher <+: ({ r with after := [1, JSONRPC_DELIM] } : Read).base := hbase
    rw [handleRead_control hest hrecord hbase₁ hrest rfl hdelim h0t (hget _) hl₁ hparse₁ hv]
      at hcontrol
    obtain rfl : values₂ = [] := List.self_eq_append_right.mp hcontrol
    obtain ⟨rfl, rfl⟩ := hend rfl
    cases hparse₁ with
    | nil => exact absurd rfl hne
    | @cons l v lines values hparse hparse₁ =>
      have hagain := htrans _ (alike_cons r (l ++ [JSONRPC_DELIM]) reads)
      have hbase₂ : record.cipher <+: ({ r with after := l ++ [JSONRPC_DELIM] } : Read).base :=
        hbase
      rw [handleRead_again hest hrecord hbase₂ hrest rfl List.mem_cons_self (hget _) hl₁
        (.cons hparse hparse₁) hv hparse List.mem_cons_self, List.append_cancel_left_eq] at hagain
      exact nomatch hagain
  · obtain ⟨good, v, rest, rfl, hgood, hfails⟩ := exists_first hv
    obtain ⟨lines₀, linesᵥ, rfl, hparse₀, hparseᵥ⟩ := exists_of_forall₂_append_right hparse₁
    obtain ⟨l, lines', hparse, -, rfl⟩ := List.forall₂_cons_right_iff.mp hparseᵥ
    have hserve := htrans _ (alike_refl _)
    have hl₀ : ∀ l' ∈ lines₀ ++ [l], IsLine l' := fun l' hl' => hl₁ l' (by simp at hl' ⊢; tauto)
    rw [handleRead_failing hest hrecord hbase hrest (hget _) hl₀ hparse₀ hgood hparse
      hfails, List.append_assoc, List.append_cancel_left_eq, List.cons_append, List.cons.injEq]
      at hserve
    obtain ⟨rfl, rfl⟩ := List.append_eq_nil_iff.mp hserve.2.symm
    obtain ⟨rfl, rfl⟩ := hend rfl
    refine ⟨r, reads, record, records, good, v, rfl, rfl, hbase, ?_, List.append_nil _, hgood,
      hfails⟩
    rw [hrest, List.append_nil]

/-- **Transparency of TLS.** Whatever memory holds, the messages are dispatched as they were sent if
and only if there are none, or they come in one record in one read and the last one fails. -/
theorem transparent_iff (h : TlsClient env srv reads records lines values) :
    Transparent env reads values srv ↔
      values = [] ∨ FailsAtLast env reads records lines values := by
  constructor
  · intro htrans
    by_cases hne : values = []
    · exact .inl hne
    · exact .inr (failsAtLast_of_transparent h htrans hne)
  · rintro (rfl | hlast)
    · exact transparent_nil h
    · exact transparent_of_failsAtLast h hlast

/-- The library without cryptography is as expected. -/
theorem expects_nullCipher (env : Env) (flights : ℕ) {body : Bytes} (hne : body ≠ [])
    (hlen : body.length < 65536) :
    Expects env nullCipher (⟨flights, [], []⟩ : NullCipher.Ctx)
      ⟨body, NullCipher.record 0x17 body⟩ where
  nonempty := hne
  longer := by
    show body.length < (NullCipher.record 0x17 body).length
    rw [NullCipher.length_record]
    omega
  part q len hpart hlt := NullCipher.read_part hlen hpart hlt flights len
  whole q len rest hq hle := by
    refine (NullCipher.read_whole hlen hq flights len).trans ?_
    rw [List.take_of_length_le hle]

/-- A server that has shaken hands. -/
def shaken : JsonRPCServer nullCipher :=
  (serve pingEnv [helloRead, finishedRead] (accepted nullCipher true .fresh)).2

theorem shaken_established : Established shaken (⟨0, [], []⟩ : NullCipher.Ctx) := by
  obtain ⟨srv, hserve, hest⟩ : ∃ srv, serve pingEnv [helloRead, finishedRead]
      (accepted nullCipher true .fresh) = (.ok true, srv) ∧
        Established srv (⟨0, [], []⟩ : NullCipher.Ctx) := ⟨_, rfl, rfl, rfl, rfl, rfl, rfl⟩
  have hshaken : shaken = srv := congrArg Prod.snd hserve
  rw [hshaken]
  exact hest

def txText : Bytes := ascii "\x7b\"id\":1,\"method\":\"blockchain.transaction.get\"\x7d"

/-- A client that asks for a transaction, which fails. -/
def txEnv : Env := .answering txText (bareRequest "blockchain.transaction.get" 1) []
  (by decide) (by decide +kernel) (by decide +kernel)

/-- One message in one record. -/
def tlsRecord (text : Bytes) : TlsRecord :=
  ⟨text ++ [JSONRPC_DELIM], NullCipher.record 0x17 (text ++ [JSONRPC_DELIM])⟩

theorem tlsClient_single {env : Env} {text : Bytes} {v : Json} (hdelim : JSONRPC_DELIM ∉ text)
    (hlen : text.length < 65535) (hparse : env.parse text = some v)
    (hreads : reads.flatMap Read.base = (tlsRecord text).cipher)
    (hne : ∀ r ∈ reads, r.base ≠ []) :
    TlsClient env shaken reads [tlsRecord text] [text] [v] where
  plain := by
    rw [List.flatMap_singleton, stream_cons]
    rfl
  cipher := by rw [hreads, List.flatMap_singleton]
  nonempty := hne
  delim := by simpa using hdelim
  parse := .cons hparse .nil
  established := by
    refine ⟨_, shaken_established, fun record hrecord => ?_⟩
    obtain rfl : tlsRecord text = record := Option.some.inj hrecord
    refine expects_nullCipher env 0 (by simp) ?_
    rw [List.length_append]
    exact Nat.succ_lt_succ hlen

/-- A request that fails is dispatched, if it comes in one record in one read. -/
theorem transparent_tx : Transparent txEnv [.ofBytes (tlsRecord txText).cipher]
    [bareRequest "blockchain.transaction.get" 1] shaken := by
  have hclient : TlsClient txEnv shaken [.ofBytes (tlsRecord txText).cipher] [tlsRecord txText]
      [txText] [bareRequest "blockchain.transaction.get" 1] :=
    tlsClient_single (by decide) (by decide) rfl (List.append_nil _)
      (by simp [Read.ofBytes, tlsRecord, NullCipher.record])
  have hrequest : Request txEnv (bareRequest "blockchain.transaction.get" 1)
      "blockchain.transaction.get" 1 .null := ⟨rfl, ⟨_, rfl, rfl⟩, rfl⟩
  have hfails : ¬ Answerable txEnv (.opened .fresh .absent)
      (bareRequest "blockchain.transaction.get" 1) := by
    intro hv
    obtain ⟨id, queries, rsp, hrun, -⟩ := handleCommand_responds txEnv hv
    cases (Prod.mk.inj hrun).1.symm.trans rfl
  refine (transparent_iff hclient).mpr (.inr ?_)
  refine ⟨_, _, _, _, [], _, rfl, rfl, List.prefix_rfl, ?_, rfl, by simp, hfails⟩
  rw [stream_cons]
  rfl

/-- A ping whose record comes in two reads is not dispatched. -/
theorem not_transparent : ¬ ∀ reads records lines values,
    TlsClient pingEnv shaken reads records lines values →
    Transparent pingEnv reads values shaken := by
  intro h
  have hclient : TlsClient pingEnv shaken [.ofBytes ((tlsRecord pingText).cipher.take 9),
      .ofBytes ((tlsRecord pingText).cipher.drop 9)] [tlsRecord pingText] [pingText]
      [bareRequest "server.ping" 1] := by
    refine tlsClient_single (by decide) (by decide) rfl ?_ (by decide)
    rw [List.flatMap_cons, List.flatMap_singleton]
    exact List.take_append_drop 9 _
  have hexpects : Expects pingEnv nullCipher (⟨0, [], []⟩ : NullCipher.Ctx)
      (tlsRecord pingText) := expects_nullCipher _ 0 (by simp) (by decide)
  have hwhole := whole_of_transparent hclient shaken_established hexpects (h _ _ _ _ hclient)
    (List.cons_ne_nil _ _)
  exact absurd hwhole.length_le (by decide)

end ElectrumZ.Net
