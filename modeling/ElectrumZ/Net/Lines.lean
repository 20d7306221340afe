import ElectrumZ.Net.Answers
import ElectrumZ.Net.JsonRPCServer

/-!
# The lines of a buffer

What `HandleRead` does with the bytes of a connection once it has them in clear: the search for an
HTTP request, and the loop over the lines.

* `strchr_append`, `lt_strstrScan` and their kind: what the string functions find, and how far
  they look.
* `parseAgain_lines`: the loop handles the lines it finds, in order, and goes on behind the last.
* `KeptByParsing`: what handling lines and buffering cannot break; on a plain connection
  (`handleRead_plain`) no read can.
-/

namespace ElectrumZ.Net

open Foundations Blockchain

/-! ## The string functions -/

variable {l after mem rest text : Bytes}

theorem strchr_append (rest : Bytes) {c : UInt8} (hc : c ∉ l) (h0 : 0 ∉ l) :
    strchr c (l ++ c :: rest) = some (l, rest) ∧ strchrScan c (l ++ c :: rest) = l.length + 1 := by
  induction l with
  | nil => simp [strchr, strchrScan]
  | cons b l ih =>
    obtain ⟨hbc, hc⟩ := not_or.mp (List.mem_cons.not.mp hc)
    obtain ⟨hb0, h0⟩ := not_or.mp (List.mem_cons.not.mp h0)
    obtain ⟨hstr, hscan⟩ := ih hc h0
    constructor
    · rw [List.cons_append, strchr, if_neg (Ne.symm hbc), if_neg (Ne.symm hb0), hstr]
      rfl
    · rw [List.cons_append, strchrScan, if_neg (by tauto), hscan, List.length_cons]

/-- A zero byte ends the search. -/
theorem strchr_of_zero (after : Bytes) {c : UInt8} (hc : c ∉ l) (h0 : 0 ∈ l) :
    strchr c (l ++ after) = none ∧ strchrScan c (l ++ after) ≤ l.length := by
  induction l with
  | nil => exact absurd h0 List.not_mem_nil
  | cons b l ih =>
    obtain ⟨hbc, hc⟩ := not_or.mp (List.mem_cons.not.mp hc)
    rw [List.cons_append, strchr, strchrScan, if_neg (Ne.symm hbc)]
    by_cases hb : b = 0
    · rw [if_pos hb, if_pos (.inr hb), List.length_cons]
      exact ⟨rfl, by omega⟩
    · obtain ⟨hstr, hscan⟩ := ih hc (by simpa [Ne.symm hb] using h0)
      rw [if_neg hb, if_neg (by tauto), hstr, List.length_cons]
      exact ⟨rfl, by omega⟩

theorem strchrScan_pos (c : UInt8) (mem : Bytes) : 0 < strchrScan c mem := by
  cases mem with
  | nil => exact Nat.one_pos
  | cons b mem => rw [strchrScan]; split_ifs <;> omega

/-- Without either the search leaves the string. -/
theorem lt_strchrScan (after : Bytes) {c : UInt8} (hc : c ∉ l) (h0 : 0 ∉ l) :
    l.length < strchrScan c (l ++ after) := by
  induction l with
  | nil => exact strchrScan_pos c after
  | cons b l ih =>
    obtain ⟨hbc, hc⟩ := not_or.mp (List.mem_cons.not.mp hc)
    obtain ⟨hb0, h0⟩ := not_or.mp (List.mem_cons.not.mp h0)
    rw [List.cons_append, strchrScan, if_neg (by tauto), List.length_cons]
    exact Nat.succ_lt_succ (ih hc h0)

theorem length_GET : GET.length = 3 := rfl

/-- A short string that `GET` is a prefix of, together with what follows, is a part of `GET`. -/
theorem get_prefix_cases (h : GET <+: l ++ after) : GET <+: l ∨ (l.length < 3 ∧ l <+: GET) := by
  obtain hle | hle := le_total GET.length l.length
  · exact .inl (List.prefix_of_prefix_length_le h (List.prefix_append _ _) hle)
  · have hl : l <+: GET := List.prefix_of_prefix_length_le (List.prefix_append _ _) h hle
    by_cases heq : l.length = 3
    · rw [hl.eq_of_length heq]
      exact .inl (List.prefix_rfl)
    · rw [length_GET] at hle
      exact .inr ⟨by omega, hl⟩

theorem strstrScan_pos (mem : Bytes) : 0 < strstrScan mem := by
  cases mem with
  | nil => exact Nat.one_pos
  | cons b mem => rw [strstrScan]; split_ifs <;> omega

theorem strstrScan_le (after : Bytes) (h : 0 ∈ l ∨ GET <:+: l) :
    strstrScan (l ++ after) ≤ l.length := by
  induction l with
  | nil =>
    obtain h | h := h
    · exact absurd h List.not_mem_nil
    · exact absurd (List.infix_nil.mp h) (by decide)
  | cons b l ih =>
    rw [List.cons_append, strstrScan, ← List.cons_append, List.length_cons]
    split_ifs with hget hb
    · obtain hget | ⟨-, hsub⟩ := get_prefix_cases hget
      · simpa [length_GET] using hget.length_le
      · obtain h0 | hget := h
        · exact absurd (hsub.subset h0) (by decide)
        · simpa [length_GET] using hget.length_le
    · omega
    · refine Nat.succ_le_succ (ih ?_)
      obtain h0 | hinf := h
      · exact .inl (by simpa [Ne.symm hb] using h0)
      · obtain hpre | hinf := List.infix_cons_iff.mp hinf
        · exact absurd (hpre.trans (List.prefix_append _ _)) hget
        · exact .inr hinf

theorem lt_strstrScan (after : Bytes) (h0 : 0 ∉ l) (hget : ¬ GET <:+: l) :
    l.length < strstrScan (l ++ after) := by
  induction l with
  | nil => exact strstrScan_pos after
  | cons b l ih =>
    obtain ⟨hb0, h0⟩ := not_or.mp (List.mem_cons.not.mp h0)
    rw [List.infix_cons_iff, not_or] at hget
    rw [List.cons_append, strstrScan, ← List.cons_append, if_neg (Ne.symm hb0), List.length_cons]
    split_ifs with hpre
    · obtain hpre | ⟨hlt, -⟩ := get_prefix_cases hpre
      · exact absurd hpre hget.1
      · rwa [List.length_cons] at hlt
    · exact Nat.succ_lt_succ (ih h0 hget.2)

/-! ## Streams of lines -/

/-- Terminated lines, and a tail. -/
def stream (lines : List Bytes) (tail : Bytes) : Bytes :=
  lines.flatMap (· ++ [JSONRPC_DELIM]) ++ tail

/-- A line has no delimiter and no zero byte in it, and does not begin like an HTTP request. -/
structure IsLine (l : Bytes) : Prop where
  delim : JSONRPC_DELIM ∉ l
  zero : 0 ∉ l
  get : ¬ GET <+: l

variable {lines : List Bytes} {tail c later : Bytes}

@[simp] theorem stream_nil (tail : Bytes) : stream [] tail = tail := rfl

theorem stream_cons (l : Bytes) (lines : List Bytes) (tail : Bytes) :
    stream (l :: lines) tail = l ++ JSONRPC_DELIM :: stream lines tail := by
  simp [stream]

theorem stream_append (lines : List Bytes) (tail rest : Bytes) :
    stream lines tail ++ rest = stream lines (tail ++ rest) := by
  rw [stream, stream, List.append_assoc]

theorem stream_eq_nil (h : stream lines tail = []) : lines = [] ∧ tail = [] := by
  cases lines with
  | nil => exact ⟨rfl, h⟩
  | cons l lines => simp [stream_cons] at h

theorem length_stream (lines : List Bytes) (tail : Bytes) :
    (stream lines tail).length = (stream lines []).length + tail.length := by
  rw [← List.length_append, stream_append, List.nil_append]

theorem length_stream_le (lines : List Bytes) (tail : Bytes) :
    (stream lines []).length ≤ (stream lines tail).length := by
  rw [length_stream lines tail]
  omega

theorem line_length_le (hl : l ∈ lines) : l.length + 1 ≤ (stream lines tail).length := by
  induction lines with
  | nil => exact absurd hl List.not_mem_nil
  | cons l' lines ih =>
    rw [stream_cons, List.length_append, List.length_cons]
    obtain rfl | hl := List.mem_cons.mp hl
    · omega
    · have := ih hl
      omega

/-- A line is shorter than a stream that has more than the line. -/
theorem line_length_lt (hl : l ∈ lines) (hne : stream lines tail ≠ l ++ [JSONRPC_DELIM]) :
    l.length + 1 < (stream lines tail).length := by
  cases lines with
  | nil => exact absurd hl List.not_mem_nil
  | cons l' lines =>
    rw [stream_cons] at hne ⊢
    rw [List.length_append, List.length_cons]
    obtain rfl | hl := List.mem_cons.mp hl
    · have hpos : 0 < (stream lines tail).length := by
        refine List.length_pos_of_ne_nil fun hnil => hne ?_
        rw [hnil]
      omega
    · have : l.length + 1 ≤ (stream lines tail).length := line_length_le hl
      omega

theorem zero_not_mem_stream (h : ∀ l ∈ lines, IsLine l) (h0 : 0 ∉ tail) :
    0 ∉ stream lines tail := by
  induction lines with
  | nil => exact h0
  | cons l lines ih =>
    obtain ⟨hl, h⟩ := List.forall_mem_cons.mp h
    rw [stream_cons, List.mem_append, List.mem_cons, not_or, not_or]
    exact ⟨hl.zero, by decide, ih h⟩

/-- The first bytes of a stream are some of its lines and a part of what follows them. -/
theorem exists_split (h : ∀ l ∈ lines, IsLine l) (htail : JSONRPC_DELIM ∉ tail)
    (heq : c ++ later = stream lines tail) : ∃ lines₁ lines₂ t, lines = lines₁ ++ lines₂ ∧
      c = stream lines₁ t ∧ t ++ later = stream lines₂ tail ∧ JSONRPC_DELIM ∉ t := by
  induction lines generalizing c with
  | nil =>
    refine ⟨[], [], c, rfl, rfl, heq, fun hc => htail ?_⟩
    rw [stream_nil] at heq
    rw [← heq]
    exact List.mem_append_left _ hc
  | cons l lines ih =>
    obtain ⟨hl, hls⟩ := List.forall_mem_cons.mp h
    by_cases hc : JSONRPC_DELIM ∈ c
    · -- the first line is complete
      obtain ⟨l', c', rfl, hl'⟩ := List.eq_append_cons_of_mem hc
      rw [List.append_assoc, List.cons_append, stream_cons] at heq
      obtain ⟨rfl, hrest⟩ := cut_inj hl' hl.delim heq
      obtain ⟨lines₁, lines₂, t, rfl, rfl, hlater, ht⟩ := ih hls hrest
      exact ⟨l' :: lines₁, lines₂, t, rfl, by rw [stream_cons], hlater, ht⟩
    · exact ⟨[], l :: lines, c, rfl, rfl, heq, hc⟩

/-- A stream does not begin like an HTTP request. -/
theorem get_not_prefix_stream (h : ∀ l ∈ lines, IsLine l) (htail : ¬ GET <+: tail) :
    ¬ GET <+: stream lines tail := by
  cases lines with
  | nil => exact htail
  | cons l lines =>
    obtain ⟨hl, -⟩ := List.forall_mem_cons.mp h
    rw [stream_cons]
    intro hget
    obtain hget' | ⟨hlt, -⟩ := get_prefix_cases hget
    · exact hl.get hget'
    · -- the delimiter would be one of the three letters
      have hpre : l ++ [JSONRPC_DELIM] <+: GET := by
        refine List.prefix_of_prefix_length_le ?_ hget ?_
        · exact ⟨stream lines tail, by simp⟩
        · rw [List.length_append, List.length_singleton, length_GET]
          omega
      exact absurd (hpre.subset (List.mem_append_right l List.mem_cons_self)) (by decide)

section Pairing

variable {α β : Type} {R : α → β → Prop}

/-- A pairing splits where the right side does. -/
theorem exists_of_forall₂_append_right {as : List α} {bs bs' : List β}
    (h : List.Forall₂ R as (bs ++ bs')) :
    ∃ as₁ as₂, as = as₁ ++ as₂ ∧ List.Forall₂ R as₁ bs ∧ List.Forall₂ R as₂ bs' :=
  ⟨as.take bs.length, as.drop bs.length, (List.take_append_drop _ _).symm,
    List.forall₂_take_append _ _ _ h, List.forall₂_drop_append _ _ _ h⟩

/-- And where the left side does. -/
theorem exists_of_forall₂_append {as as' : List α} {bs : List β}
    (h : List.Forall₂ R (as ++ as') bs) :
    ∃ bs₁ bs₂, bs = bs₁ ++ bs₂ ∧ List.Forall₂ R as bs₁ ∧ List.Forall₂ R as' bs₂ := by
  have hflip : List.Forall₂ (flip R) bs (as ++ as') := List.Forall₂.flip h
  obtain ⟨bs₁, bs₂, hbs, h₁, h₂⟩ := exists_of_forall₂_append_right hflip
  exact ⟨bs₁, bs₂, hbs, h₁.flip, h₂.flip⟩

end Pairing

/-! ## The loop over the lines -/

variable {lib : Mbedtls} {env : Env} {r : Read} {srv srv' : JsonRPCServer lib} {v : Json}
  {reads : List Read}
  {values : List Json} {nread : ℕ} {buf_len : ℤ}

theorem parseAgain_eq : (parseAgain env nread buf_len mem : ServerM lib ℤ) =
    inspect (strchrScan JSONRPC_DELIM mem) buf_len >>= fun _ =>
      match strchr JSONRPC_DELIM mem with
      | none => appendBuffer buf_len (mem.take buf_len.toNat)
      | some (text, rest) => handleLine env text >>= fun handled =>
        if handled = false then pure 0
        else if (text.length : ℤ) < nread - 1 then
          parseAgain env nread (buf_len - (text.length + 1)) rest
        else pure 1 := by
  rw [parseAgain]
  congr 1
  funext _
  split <;> next h => rw [h]

/-- The connection after a search. -/
def JsonRPCServer.searched (srv : JsonRPCServer lib) (mem : Bytes) (buf_len : ℤ) :
    JsonRPCServer lib :=
  { srv with overread := srv.overread || decide (buf_len < strchrScan JSONRPC_DELIM mem) }

theorem parseAgain_none (h : strchr JSONRPC_DELIM mem = none) :
    parseAgain env nread buf_len mem srv =
      appendBuffer buf_len (mem.take buf_len.toNat) (srv.searched mem buf_len) := by
  rw [parseAgain_eq, h]
  rfl

theorem parseAgain_some (h : strchr JSONRPC_DELIM mem = some (text, rest)) :
    parseAgain env nread buf_len mem srv =
      (handleLine env text >>= fun handled =>
        if handled = false then pure 0
        else if (text.length : ℤ) < nread - 1 then
          parseAgain env nread (buf_len - (text.length + 1)) rest
        else pure 1) (srv.searched mem buf_len) := by
  rw [parseAgain_eq, h]
  rfl

/-- A search that stays inside leaves no trace. -/
theorem searched_eq (h : (strchrScan JSONRPC_DELIM mem : ℤ) ≤ buf_len) :
    srv.searched mem buf_len = srv := by
  rw [JsonRPCServer.searched, decide_eq_false (by omega), Bool.or_false]

/-- The database and the node are as the read found them. -/
def MetBy (r : Read) (s : Session) : Prop := s.store = r.store ∧ s.rpc = r.rpc

/-- `HandleCommand` handles the command without throwing, whatever has been written and asked. -/
def Handles (env : Env) (r : Read) (v : Json) : Prop :=
  ∀ s, MetBy r s → (handleCommand env v s).1 = .ok ()

theorem Handles.run (h : Handles env r v) {s : Session} (hs : MetBy r s) :
    ∃ s', handleCommand env v s = (.ok (), s') ∧ MetBy r s' := by
  by_cases hv : Answerable env s v
  · obtain ⟨id, queries, rsp, hrun, -⟩ := handleCommand_responds env hv
    exact ⟨_, hrun, hs⟩
  · obtain ⟨e, ⟨s', hrun, -⟩, -⟩ := handleCommand_fails env hv
    have hok := h s hs
    rw [hrun] at hok
    exact absurd hok (by simp)

theorem handleLine_run (hv : env.parse l = some v) (h : Handles env r v)
    (hs : MetBy r srv.session) : ∃ s', MetBy r s' ∧ handleLine env l srv =
      (.ok true, { srv with commands := srv.commands ++ [v], session := s' }) := by
  obtain ⟨s', hrun, hs'⟩ := h.run hs
  refine ⟨s', hs', ?_⟩
  rw [handleLine, hv]
  simp only [onSession, Action.zoom, hrun]

/-- A line that is followed by more is handled, and the loop goes on behind it. -/
theorem parseAgain_line (rest : Bytes) (hl : IsLine l) (hv : env.parse l = some v)
    (h : Handles env r v) (hs : MetBy r srv.session) (hlt : (l.length : ℤ) < nread - 1)
    (hle : l.length + 1 ≤ buf_len) :
    ∃ s', MetBy r s' ∧ parseAgain env nread buf_len (l ++ JSONRPC_DELIM :: rest) srv =
      parseAgain env nread (buf_len - (l.length + 1)) rest
        { srv with commands := srv.commands ++ [v], session := s' } := by
  obtain ⟨hstr, hscan⟩ := strchr_append rest hl.delim hl.zero
  obtain ⟨s', hs', hrun⟩ := handleLine_run hv h hs
  refine ⟨s', hs', ?_⟩
  rw [parseAgain_some hstr, searched_eq (by rw [hscan]; omega), Action.bind_of_ok hrun,
    if_neg (by decide), if_pos hlt]

/-- The last line ends the loop. -/
theorem parseAgain_last (rest : Bytes) (hl : IsLine l) (hv : env.parse l = some v)
    (h : Handles env r v) (hs : MetBy r srv.session) (hge : (nread : ℤ) - 1 ≤ l.length)
    (hle : l.length + 1 ≤ buf_len) :
    ∃ s', MetBy r s' ∧ parseAgain env nread buf_len (l ++ JSONRPC_DELIM :: rest) srv =
      (.ok 1, { srv with commands := srv.commands ++ [v], session := s' }) := by
  obtain ⟨hstr, hscan⟩ := strchr_append rest hl.delim hl.zero
  obtain ⟨s', hs', hrun⟩ := handleLine_run hv h hs
  refine ⟨s', hs', ?_⟩
  rw [parseAgain_some hstr, searched_eq (by rw [hscan]; omega), Action.bind_of_ok hrun,
    if_neg (by decide), if_neg (by omega)]
  rfl

/-- **The loop handles the lines** it finds, in order, and goes on behind the last. -/
theorem parseAgain_lines (rest : Bytes) (hl : ∀ l ∈ lines, IsLine l)
    (hv : List.Forall₂ (fun l v => env.parse l = some v) lines values)
    (h : ∀ v ∈ values, Handles env r v) (hs : MetBy r srv.session)
    (hlt : ∀ l ∈ lines, (l.length : ℤ) < nread - 1) (hle : (stream lines []).length ≤ buf_len) :
    ∃ s', MetBy r s' ∧ parseAgain env nread buf_len (stream lines rest) srv =
      parseAgain env nread (buf_len - (stream lines []).length) rest
        { srv with commands := srv.commands ++ values, session := s' } := by
  induction hv generalizing srv buf_len with
  | nil => exact ⟨srv.session, hs, by simp⟩
  | @cons l v lines values hv hvs ih =>
    obtain ⟨hl, hls⟩ := List.forall_mem_cons.mp hl
    obtain ⟨h, hhs⟩ := List.forall_mem_cons.mp h
    obtain ⟨hlt, hlts⟩ := List.forall_mem_cons.mp hlt
    rw [stream_cons, List.length_append, List.length_cons] at hle
    push_cast at hle
    obtain ⟨s₁, hs₁, hrun₁⟩ := parseAgain_line (stream lines rest) hl hv h hs hlt
      (show (l.length : ℤ) + 1 ≤ buf_len by omega)
    have hmet : MetBy r
        ({ srv with commands := srv.commands ++ [v], session := s₁ } : JsonRPCServer lib).session :=
      hs₁
    obtain ⟨s', hs', hrun'⟩ := ih hls hhs hmet hlts
      (show ((stream lines []).length : ℤ) ≤ buf_len - (l.length + 1) by omega)
    refine ⟨s', hs', ?_⟩
    have hlen : buf_len - (l.length + 1) - ((stream lines []).length : ℤ) =
        buf_len - (stream (l :: lines) []).length := by
      rw [stream_cons, List.length_append, List.length_cons]
      push_cast
      omega
    rw [stream_cons, hrun₁, hrun', hlen, List.append_assoc, List.singleton_append]

/-! ## What the loop leaves alone -/

/-- Only writes are added. -/
theorem handleCommand_extends (env : Env) (v : Json) (s : Session) :
    s.wire <+: (handleCommand env v s).2.wire := by
  by_cases h : Answerable env s v
  · obtain ⟨id, queries, rsp, hrun, -⟩ := handleCommand_responds env h
    rw [hrun]
    exact List.prefix_append _ _
  · obtain ⟨e, ⟨s', hrun, hwire⟩, -⟩ := handleCommand_fails env h
    rw [hrun]
    exact hwire ▸ List.prefix_rfl

/-- An invariant that handling lines, writing and buffering cannot break. -/
structure KeptByParsing (I : JsonRPCServer lib → Prop) : Prop where
  session : ∀ (srv : JsonRPCServer lib) session, srv.session.wire <+: session.wire → I srv →
    I { srv with session }
  commands : ∀ (srv : JsonRPCServer lib) commands, I srv → I { srv with commands }
  searched : ∀ (srv : JsonRPCServer lib) b, I srv →
    I { srv with overread := srv.overread || b }
  buffer : ∀ (srv : JsonRPCServer lib) buf offset len, I srv → I { srv with buf, offset, len }
  ssl : ∀ (srv : JsonRPCServer lib) ctx, I srv → I { srv with ssl := some ctx }

namespace KeptByParsing

variable {I : JsonRPCServer lib → Prop}

theorem appendBuffer (hI : KeptByParsing I) (nread : ℤ) (data : Bytes) :
    Action.Keeps I (appendBuffer nread data) := by
  intro srv h
  simp only [Net.appendBuffer]
  split_ifs
  · exact h
  · exact h
  · exact hI.buffer srv _ _ _ h
  · exact hI.buffer srv _ _ srv.len h

theorem mergeBuffer (hI : KeptByParsing I) (buf_len : ℤ) (data : Bytes) :
    Action.Keeps I (mergeBuffer buf_len data) := by
  intro srv h
  rw [Net.mergeBuffer]
  split_ifs
  · exact h
  · exact h
  · exact hI.buffer srv srv.buf 0 srv.len h

theorem inspect (hI : KeptByParsing I) (scanned : ℕ) (buf_len : ℤ) :
    Action.Keeps I (inspect scanned buf_len) := fun srv h => hI.searched srv _ h

theorem writeInternal (hI : KeptByParsing I) (env : Env) (source : Source) (buf : Bytes) :
    Action.Keeps I (onSession (writeInternal env source buf)) :=
  fun srv h => hI.session srv _ (List.prefix_append _ _) h

theorem handleLine (hI : KeptByParsing I) (env : Env) (text : Bytes) :
    Action.Keeps I (handleLine env text) := by
  intro srv h
  rw [Net.handleLine]
  cases env.parse text with
  | none => exact h
  | some req =>
    have h' : I (onSession (handleCommand env req)
        { srv with commands := srv.commands ++ [req] }).2 :=
      hI.session _ _ (handleCommand_extends env req _) (hI.commands srv _ h)
    simp only
    split <;> next heq => rw [heq] at h'; exact h'

theorem parseAgain (hI : KeptByParsing I) (env : Env) (nread : ℕ) (buf_len : ℤ) (mem : Bytes) :
    Action.Keeps I (parseAgain env nread buf_len mem) := by
  induction hlen : mem.length using Nat.strong_induction_on generalizing mem buf_len with
  | _ n ih =>
    rw [parseAgain_eq]
    refine (hI.inspect _ _).bind fun _ => ?_
    split
    · exact hI.appendBuffer _ _
    · next text rest heq =>
      refine (hI.handleLine env text).bind fun handled => ?_
      refine Action.keeps_ite (Action.keeps_pure _) (Action.keeps_ite ?_ (Action.keeps_pure _))
      exact ih rest.length (hlen ▸ length_lt_of_strchr heq) _ rest rfl

theorem write (hI : KeptByParsing I) (env : Env) (buf : Bytes) :
    Action.Keeps I (write env buf) := by
  refine (Action.keeps_look id).bind fun srv₀ => Action.keeps_ite ?_
    (Action.keeps_ite (hI.writeInternal env _ _) (Action.keeps_pure _))
  intro srv h
  cases hssl : srv.ssl with
  | none => simpa only [sslCall, hssl] using h
  | some ctx =>
    have hrun : I ((lib.write ctx buf).weaken.run (sendCallback env) srv).2 :=
      Dialog.run_invariant (fun b srv h => hI.writeInternal env .bio b srv h) _ h
    rw [sslCall, hssl]
    rcases heq : (lib.write ctx buf).weaken.run (sendCallback env) srv with ⟨e | ⟨a, ctx'⟩, srv'⟩
    · simpa only [heq] using hrun
    · rw [heq] at hrun
      simpa only [heq] using hI.ssl srv' ctx' hrun

theorem handleBytes (hI : KeptByParsing I) (env : Env) (r : Read) (buf_len : ℤ) (data : Bytes) :
    Action.Keeps I (handleBytes env r buf_len data) :=
  (hI.mergeBuffer _ _).bind fun _ => (hI.inspect _ _).bind fun _ =>
    Action.keeps_ite ((hI.write env _).bind fun _ => Action.keeps_pure _) (hI.parseAgain _ _ _ _)

/-- What the search has established, the rest of the loop keeps. -/
theorem parseAgain_of_searched (hI : KeptByParsing I) (env : Env) (nread : ℕ)
    (h : I (srv.searched mem buf_len)) : I (Net.parseAgain env nread buf_len mem srv).2 := by
  cases hstr : strchr JSONRPC_DELIM mem with
  | none =>
    rw [parseAgain_none hstr]
    exact hI.appendBuffer _ _ _ h
  | some found =>
    rw [parseAgain_some hstr]
    exact (hI.handleLine env found.1).bind (fun handled => Action.keeps_ite (Action.keeps_pure _)
      (Action.keeps_ite (hI.parseAgain _ _ _ _) (Action.keeps_pure _))) _ h

end KeptByParsing

/-- So the flags stay. -/
theorem state_keptByParsing (state : ℕ) :
    KeptByParsing fun srv : JsonRPCServer lib => srv.state = state where
  session _ _ _ h := h
  commands _ _ h := h
  searched _ _ h := h
  buffer _ _ _ _ h := h
  ssl _ _ h := h

/-! ## A read of a plain connection -/

/-- The connection is plain, or the read makes it so. -/
def PlainRead (r : Read) (srv : JsonRPCServer lib) : Prop :=
  srv.state = JsonRPCState.NORMAL ∨
    srv.state = JsonRPCState.START ∧ isTLSClientHello r.base = false

/-- The connection a plain read is handled on. -/
def JsonRPCServer.plain (srv : JsonRPCServer lib) (r : Read) : JsonRPCServer lib :=
  { srv.meet r with state := JsonRPCState.NORMAL }

theorem has_eq {state flag : ℕ} {b : Bool} (h : srv.state = state)
    (hb : (state &&& flag != 0) = b) : srv.has flag = b := by
  rw [JsonRPCServer.has, h, hb]

theorem readBuffer_plain (h : srv.has JsonRPCState.SSL_NORMAL = false) :
    readBuffer env r srv = handleBytes env r r.base.length r.base srv := by
  rw [readBuffer, Action.bind_of_ok (Action.run_look _ _), id, h, if_neg Bool.false_ne_true]

theorem enterRead_plain (h : srv.has JsonRPCState.SSL_NORMAL = false) :
    enterRead r srv = (.ok (), srv) := by
  rw [enterRead, Action.bind_of_ok (Action.run_look _ _), id, h, if_neg Bool.false_ne_true]
  rfl

/-- An error, or the end of the stream. -/
theorem handleRead_eof (hr : r.base = []) (srv : JsonRPCServer lib) :
    handleRead env r srv = (.ok 0, srv.meet r) := by
  rw [handleRead, Action.bind_of_ok (Action.run_update _ _), if_pos hr]
  rfl

/-- The first read. -/
theorem handleRead_first (h : srv.state = JsonRPCState.START) (hr : r.base ≠ []) :
    handleRead env r srv = firstRead env r (srv.meet r) := by
  have hstate : (srv.meet r).state = JsonRPCState.START := h
  rw [handleRead, Action.bind_of_ok (Action.run_update _ _), if_neg hr, handleReceived,
    Action.bind_of_ok (enterRead_plain (has_eq hstate (by decide))),
    Action.bind_of_ok (Action.run_look _ _), id, has_eq hstate rfl, if_pos (by decide)]

theorem handleRead_plain (h : PlainRead r srv) (hr : r.base ≠ []) :
    handleRead env r srv = handleBytes env r r.base.length r.base (srv.plain r) := by
  obtain h | ⟨h, hello⟩ := h
  · have hstate : (srv.meet r).state = JsonRPCState.NORMAL := h
    rw [handleRead, Action.bind_of_ok (Action.run_update _ _), if_neg hr, handleReceived,
      Action.bind_of_ok (enterRead_plain (has_eq hstate (by decide))),
      Action.bind_of_ok (Action.run_look _ _), id, has_eq hstate rfl, has_eq hstate rfl,
      if_neg (by decide), if_neg (by decide), readBuffer_plain (has_eq hstate (by decide)),
      JsonRPCServer.plain, ← hstate]
  · have hstate : (srv.meet r).state = JsonRPCState.START := h
    rw [handleRead_first h hr, firstRead, Action.bind_of_ok (Action.run_update _ _), hello,
      if_neg Bool.false_ne_true, Action.bind_of_ok (Action.run_update _ _)]
    have hplain : ((srv.meet r).toggle JsonRPCState.START).set JsonRPCState.NORMAL =
        srv.plain r := by
      show { srv.meet r with
        state := ((srv.meet r).state ^^^ JsonRPCState.START) ||| JsonRPCState.NORMAL } = _
      have hflags : (JsonRPCState.START ^^^ JsonRPCState.START) ||| JsonRPCState.NORMAL =
        JsonRPCState.NORMAL := by decide
      rw [hstate, hflags, JsonRPCServer.plain]
    have hnormal : (srv.plain r).state = JsonRPCState.NORMAL := rfl
    rw [hplain, readBuffer_plain (has_eq hnormal (by decide))]

/-- The first `offset` bytes of the internal buffer. -/
def JsonRPCServer.kept (srv : JsonRPCServer lib) : Bytes := srv.buf.take srv.offset

/-- The internal buffer has the bytes that are kept. -/
def JsonRPCServer.Sound (srv : JsonRPCServer lib) : Prop := srv.offset ≤ srv.buf.length

theorem length_kept (h : srv.Sound) : srv.kept.length = srv.offset := by
  rw [JsonRPCServer.kept, List.length_take, min_eq_left h]

theorem mergeBuffer_run (h : srv.Sound) (data : Bytes) : mergeBuffer data.length data srv =
    (.ok (((srv.kept ++ data).length : ℤ), srv.kept ++ data), { srv with offset := 0 }) := by
  rw [mergeBuffer, List.length_append, length_kept h]
  split_ifs with h0 hneg
  · obtain ⟨state, ssl_config, ssl, ssl_buf, ssl_buf_len, ssl_buf_offset, buf, offset, len, session,
      commands, overread, pulled⟩ := srv
    obtain rfl : offset = 0 := h0
    simp [JsonRPCServer.kept]
  · omega
  · push_cast
    rw [add_comm]
    rfl

/-- The search for an HTTP request comes first. -/
theorem handleBytes_eq (h : srv.Sound) (data : Bytes) : handleBytes env r data.length data srv =
    (if GET <+: srv.kept ++ data ++ r.after then do
      let _ ← write env http_rsp
      return 1
    else parseAgain env r.base.length (srv.kept ++ data).length (srv.kept ++ data ++ r.after))
      { srv with
        offset := 0
        overread := srv.overread || decide (((srv.kept ++ data).length : ℤ) <
          strstrScan (srv.kept ++ data ++ r.after)) } := by
  rw [handleBytes, Action.bind_of_ok (mergeBuffer_run h data)]
  rfl

/-! ## Runs -/

theorem serve_nil_iff : serve env [] srv = (.ok true, srv') ↔ srv = srv' :=
  ⟨fun h => (Prod.mk.inj h).2, fun h => congrArg (Prod.mk _) h⟩

/-- A run goes on as long as no read ends it. -/
theorem serve_cons_iff : serve env (r :: reads) srv = (.ok true, srv') ↔
    ∃ ret srv₁, handleRead env r srv = (.ok ret, srv₁) ∧ ret ≠ 0 ∧
      serve env reads srv₁ = (.ok true, srv') := by
  rw [serve]
  constructor
  · intro h
    rcases hread : handleRead env r srv with ⟨e | ret, srv₁⟩
    · rw [Action.bind_of_error hread] at h
      exact nomatch (Prod.mk.inj h).1
    · rw [Action.bind_of_ok hread] at h
      by_cases hret : ret = 0
      · rw [if_pos hret] at h
        exact nomatch (Prod.mk.inj h).1
      · rw [if_neg hret] at h
        exact ⟨ret, srv₁, rfl, hret, h⟩
  · rintro ⟨ret, srv₁, hread, hret, h⟩
    rw [Action.bind_of_ok hread, if_neg hret, h]

theorem serve_concat_iff : serve env (reads ++ [r]) srv = (.ok true, srv') ↔ ∃ srv₁ ret,
    serve env reads srv = (.ok true, srv₁) ∧ handleRead env r srv₁ = (.ok ret, srv') ∧
      ret ≠ 0 := by
  induction reads generalizing srv with
  | nil =>
    rw [List.nil_append, serve_cons_iff]
    constructor
    · rintro ⟨ret, srv₁, hread, hret, h⟩
      obtain rfl := serve_nil_iff.mp h
      exact ⟨srv, ret, rfl, hread, hret⟩
    · rintro ⟨srv₁, ret, h, hread, hret⟩
      obtain rfl := serve_nil_iff.mp h
      exact ⟨ret, srv', hread, hret, rfl⟩
  | cons r₀ reads ih =>
    rw [List.cons_append, serve_cons_iff]
    constructor
    · rintro ⟨ret₀, srv₀, hread₀, hret₀, h⟩
      obtain ⟨srv₁, ret, hserve, hread, hret⟩ := ih.mp h
      exact ⟨srv₁, ret, serve_cons_iff.mpr ⟨ret₀, srv₀, hread₀, hret₀, hserve⟩, hread, hret⟩
    · rintro ⟨srv₁, ret, hserve, hread, hret⟩
      obtain ⟨ret₀, srv₀, hread₀, hret₀, h⟩ := serve_cons_iff.mp hserve
      exact ⟨ret₀, srv₀, hread₀, hret₀, ih.mpr ⟨srv₁, ret, h, hread, hret⟩⟩

end ElectrumZ.Net
