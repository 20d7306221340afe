import ElectrumZ.Foundations.Bytes
import Mathlib.Data.FinEnum

/-!
# HTTP requests

Requests on a connection that is kept open. The lines of a header end with CR LF, an empty line
ends the header, and the body that follows has as many bytes as the field `Content-Length` says.

* `ofDecimal_repr`: a length that is written in decimal digits is read back.
* `readRequests_flatMap`: well-formed requests that are written one after another are read back,
  with nothing left over.
-/

namespace Foundations

/-- CR LF. -/
def crlf : Bytes := [0x0d, 0x0a]

/-! ## Reading -/

/-- The bytes before the first CR LF, and those behind it. -/
def readLine : Bytes → Option (Bytes × Bytes)
  | [] => none
  | b :: bs =>
    if b = 0x0d ∧ bs.head? = some 0x0a then some ([], bs.tail)
    else (readLine bs).map fun p => (b :: p.1, p.2)

/-- The lines before the first empty one, and the bytes behind it; at most `n` lines. -/
def readHeader : ℕ → Bytes → Option (List Bytes × Bytes)
  | 0, _ => none
  | n + 1, s => do
    let (line, s) ← readLine s
    if line = [] then return ([], s)
    let (lines, s) ← readHeader n s
    return (line :: lines, s)

/-- A request: the lines of its header, of which the first is the request line, and its body. -/
structure HttpRequest where
  lines : List Bytes
  body : Bytes
  deriving DecidableEq, Repr

/-- The character in lower case. -/
def lowerCase (b : UInt8) : UInt8 := if 0x41 ≤ b ∧ b ≤ 0x5a then b + 0x20 else b

/-- The value of the field, if the line has that name before its colon. -/
def fieldOf (name line : Bytes) : Option Bytes :=
  if (line.takeWhile (· ≠ 0x3a)).map lowerCase = name.map lowerCase then
    some ((line.dropWhile (· ≠ 0x3a)).tail.dropWhile (· = 0x20))
  else none

/-- The value of the first field of that name. -/
def field (name : Bytes) (lines : List Bytes) : Option Bytes := lines.tail.findSome? (fieldOf name)

/-- The number that decimal digits stand for. -/
def ofDecimal (digits : Bytes) : Option ℕ :=
  if digits ≠ [] ∧ ∀ b ∈ digits, 0x30 ≤ b ∧ b ≤ 0x39 then
    some (digits.foldl (fun n b => 10 * n + (b.toNat - 0x30)) 0)
  else none

/-- The length of the body that the header tells. -/
def contentLength (lines : List Bytes) : Option ℕ :=
  (field (ascii "Content-Length") lines).bind ofDecimal

/-- A request at the front of a stream, and the rest of the stream. -/
def readRequest (s : Bytes) : Option (HttpRequest × Bytes) := do
  let (lines, s) ← readHeader s.length s
  let len ← contentLength lines
  if s.length < len then none
  else return (⟨lines, s.take len⟩, s.drop len)

/-- At most `n` requests, to the end of the stream. -/
def readRequestsUpTo : ℕ → Bytes → Option (List HttpRequest)
  | _, [] => some []
  | 0, _ => none
  | n + 1, s => do
    let (r, s) ← readRequest s
    let rs ← readRequestsUpTo n s
    return r :: rs

/-- The requests of a stream, which has nothing but requests. -/
def readRequests (s : Bytes) : Option (List HttpRequest) := readRequestsUpTo s.length s

/-! ## Writing -/

namespace HttpRequest

/-- The request in a stream. -/
def bytes (r : HttpRequest) : Bytes := r.lines.flatMap (· ++ crlf) ++ crlf ++ r.body

/-- The lines can be told apart, and the length is right. -/
structure WellFormed (r : HttpRequest) : Prop where
  lines : ∀ l ∈ r.lines, l ≠ [] ∧ 0x0d ∉ l
  length : contentLength r.lines = some r.body.length

end HttpRequest

variable {line : Bytes} {lines : List Bytes}

theorem readLine_line (h : 0x0d ∉ line) (s : Bytes) :
    readLine (line ++ (crlf ++ s)) = some (line, s) := by
  induction line with
  | nil => rfl
  | cons b line ih =>
    obtain ⟨hb, h⟩ := not_or.mp (List.mem_cons.not.mp h)
    rw [List.cons_append, readLine, if_neg fun hand => hb hand.1.symm, ih h]
    rfl

theorem readHeader_lines (h : ∀ l ∈ lines, l ≠ [] ∧ 0x0d ∉ l) {n : ℕ} (hn : lines.length < n)
    (s : Bytes) : readHeader n (lines.flatMap (· ++ crlf) ++ crlf ++ s) = some (lines, s) := by
  induction lines generalizing n with
  | nil =>
    obtain ⟨n, rfl⟩ := Nat.exists_eq_succ_of_ne_zero (Nat.ne_of_gt hn)
    rfl
  | cons line lines ih =>
    obtain ⟨⟨hne, hline⟩, hlines⟩ := List.forall_mem_cons.mp h
    obtain ⟨n, rfl⟩ := Nat.exists_eq_succ_of_ne_zero (Nat.ne_of_gt (Nat.zero_lt_of_lt hn))
    have hrest := ih hlines (Nat.lt_of_succ_lt_succ hn)
    have hread := readLine_line hline (lines.flatMap (· ++ crlf) ++ crlf ++ s)
    rw [List.flatMap_cons, List.append_assoc, List.append_assoc, List.append_assoc, readHeader]
    rw [List.append_assoc] at hread hrest
    simp only [hread, Option.bind_eq_bind, Option.bind_some, if_neg hne, hrest]
    rfl

theorem length_lines_le (lines : List Bytes) :
    lines.length ≤ (lines.flatMap (· ++ crlf)).length := by
  induction lines with
  | nil => exact Nat.le_refl 0
  | cons line lines ih =>
    rw [List.flatMap_cons, List.length_cons, List.length_append, List.length_append,
      show crlf.length = 2 from rfl]
    omega

namespace HttpRequest

theorem length_bytes (r : HttpRequest) : r.lines.length < r.bytes.length := by
  have hlines := length_lines_le r.lines
  rw [bytes, List.length_append, List.length_append, show crlf.length = 2 from rfl]
  omega

end HttpRequest

theorem readRequest_bytes {r : HttpRequest} (h : r.WellFormed) (s : Bytes) :
    readRequest (r.bytes ++ s) = some (r, s) := by
  have hn : r.lines.length < (r.bytes ++ s).length := by
    have := r.length_bytes
    rw [List.length_append]
    omega
  have hheader := readHeader_lines h.lines hn (r.body ++ s)
  rw [readRequest, HttpRequest.bytes, List.append_assoc]
  rw [HttpRequest.bytes, List.append_assoc] at hheader
  rw [hheader]
  simp only [Option.bind_eq_bind, Option.bind_some, h.length]
  rw [if_neg (by simp), List.take_left, List.drop_left]
  rfl

theorem readRequestsUpTo_flatMap {rs : List HttpRequest} (h : ∀ r ∈ rs, r.WellFormed) {n : ℕ}
    (hn : (rs.flatMap HttpRequest.bytes).length ≤ n) :
    readRequestsUpTo n (rs.flatMap HttpRequest.bytes) = some rs := by
  induction rs generalizing n with
  | nil => cases n <;> rfl
  | cons r rs ih =>
    obtain ⟨hr, hrs⟩ := List.forall_mem_cons.mp h
    have hbytes := r.length_bytes
    rw [List.flatMap_cons, List.length_append] at hn
    obtain ⟨n, rfl⟩ : ∃ m, n = m + 1 := ⟨n - 1, by omega⟩
    have hread := readRequest_bytes hr (rs.flatMap HttpRequest.bytes)
    have hne : r.bytes ++ rs.flatMap HttpRequest.bytes ≠ [] :=
      List.append_ne_nil_of_left_ne_nil (List.length_pos_iff.mp (by omega)) _
    obtain ⟨b, s, hcons⟩ := List.exists_cons_of_ne_nil hne
    rw [List.flatMap_cons]
    rw [hcons] at hread ⊢
    simp only [readRequestsUpTo, hread, Option.bind_eq_bind, Option.bind_some,
      ih hrs (show _ ≤ n by omega)]
    rfl

/-- **Well-formed requests are read back.** -/
theorem readRequests_flatMap {rs : List HttpRequest} (h : ∀ r ∈ rs, r.WellFormed) :
    readRequests (rs.flatMap HttpRequest.bytes) = some rs :=
  readRequestsUpTo_flatMap h (Nat.le_refl _)

/-! ## Fields -/

theorem fieldOf_colon (name : Bytes) {name' : Bytes} (hname' : 0x3a ∉ name') (value : Bytes) :
    fieldOf name (name' ++ 0x3a :: value) =
      if name'.map lowerCase = name.map lowerCase then some (value.dropWhile (· = 0x20))
      else none := by
  have hall : ∀ b ∈ name', (decide (b ≠ 0x3a)) = true :=
    fun b hb => decide_eq_true fun heq => hname' (heq ▸ hb)
  rw [fieldOf, List.takeWhile_append_of_pos hall, List.dropWhile_append_of_pos hall]
  simp

/-- A field is found under its name. -/
theorem fieldOf_self {name value : Bytes} (hname : 0x3a ∉ name) (hvalue : value.head? ≠ some 0x20) :
    fieldOf name (name ++ 0x3a :: 0x20 :: value) = some value := by
  rw [fieldOf_colon name hname, if_pos rfl]
  cases value with
  | nil => rfl
  | cons b value =>
    have hb : b ≠ 0x20 := fun heq => hvalue (heq ▸ rfl)
    simp [hb]

/-! ## Decimal numbers -/

theorem isDigit_toUInt8 {c : Char} (h : c.isDigit = true) :
    0x30 ≤ c.toNat.toUInt8 ∧ c.toNat.toUInt8 ≤ 0x39 ∧ c.toNat.toUInt8.toNat = c.toNat := by
  have hbounds : 48 ≤ c.toNat ∧ c.toNat ≤ 57 := by
    rw [Char.isDigit, Bool.and_eq_true, decide_eq_true_eq, decide_eq_true_eq] at h
    exact ⟨UInt32.le_iff_toNat_le.mp h.1, UInt32.le_iff_toNat_le.mp h.2⟩
  have htoNat : c.toNat.toUInt8.toNat = c.toNat := by
    rw [Nat.toUInt8, UInt8.toNat_ofNat']
    omega
  refine ⟨UInt8.le_iff_toNat_le.mpr ?_, UInt8.le_iff_toNat_le.mpr ?_, htoNat⟩
  · rw [htoNat]
    exact hbounds.1
  · rw [htoNat]
    exact hbounds.2

theorem ofDecimal_repr (n : ℕ) : ofDecimal (ascii (Nat.repr n)) = some n := by
  have hdigit : ∀ c ∈ Nat.toDigits 10 n, c.isDigit = true :=
    fun c hc => Nat.isDigit_of_mem_toDigits (by decide) (by decide) hc
  have hfold (digits : List Char) (hdigits : ∀ c ∈ digits, c.isDigit = true) (m : ℕ) :
      (digits.map fun c => c.toNat.toUInt8).foldl (fun n b => 10 * n + (b.toNat - 0x30)) m =
        Nat.ofDigitChars 10 digits m := by
    induction digits generalizing m with
    | nil => simp
    | cons c digits ih =>
      obtain ⟨hc, hdigits⟩ := List.forall_mem_cons.mp hdigits
      rw [List.map_cons, List.foldl_cons, ih hdigits, Nat.ofDigitChars_cons,
        (isDigit_toUInt8 hc).2.2]
      rfl
  unfold ofDecimal ascii
  rw [Nat.toList_repr, if_pos, hfold _ hdigit, Nat.ofDigitChars_ten_toDigits]
  constructor
  · simp
  · intro b hb
    obtain ⟨c, hc, rfl⟩ := List.mem_map.mp hb
    obtain ⟨h₁, h₂, -⟩ := isDigit_toUInt8 (hdigit c hc)
    exact ⟨h₁, h₂⟩

end Foundations
