import ElectrumZ.Blockchain.Scan
import Mathlib.Logic.Relation

/-!
# The scan of any file

What the loop over a block file does depends on the bytes that are left only: `scanPass` is one
pass on them, and `found` the records the loop comes by, each with the number of bytes of the file
from it on.

* `scanStep_pass`: a pass on the file is a pass on the bytes that are left.
* `length_scanPass`: it uses up eight bytes at least, or all there are.
* `exits_found`: so the loop indexes the blocks found, in order, and leaves; in a well-formed file
  they are the blocks of its full records (`blocksOf_fileBytes`).
* `scan_terminates`: whatever the file holds, the loop ends, and every iteration that goes on moves
  the read position by eight bytes or reaches the end of the file.
-/

namespace ElectrumZ.Blockchain

open Foundations Bitcoin

/-! ## A pass on bytes -/

/-- Run a decoder on the bytes that are left. -/
def decode {α : Type} (d : Decoder α) (rest : Bytes) : Except Failure α × Bytes :=
  d.run (readBytes .endOfFile .bufferSize readMax) rest

/-- What the decoding of a block makes of a pass. -/
def decoded : Except Failure CBlock × Bytes → Scan × Bytes
  | (.ok blk, rest) => (.block blk, rest)
  | (.error _, rest) => (.again, rest)

/-- What follows a header. -/
def passRecord (net_magic : Bytes) (len : ℕ) (rest : Bytes) : Scan × Bytes :=
  if len = 0 then (.leave, rest)
  else if net_magic ≠ netMagic then (.again, rest)
  else if rest.length < 4 then (.again, [])
  else if rest.take 4 = netMagic then (.again, rest)
  else decoded (decode (CBlock.unserialize PROTOCOL_VERSION) rest)

/-- One pass of the loop: how it ends, and the bytes it leaves. -/
def scanPass (rest : Bytes) : Scan × Bytes :=
  if rest.length < 8 then (.again, [])
  else passRecord (rest.take 4) (ofLeBytes ((rest.drop 4).take 4)) (rest.drop 8)

variable {rest : Bytes}

theorem decode_suffix {α : Type} (d : Decoder α) (rest : Bytes) : (decode d rest).2 <:+ rest :=
  run_readBytes_suffix d rest

theorem passRecord_suffix (net_magic : Bytes) (len : ℕ) (rest : Bytes) :
    (passRecord net_magic len rest).2 <:+ rest := by
  have hdecode := decode_suffix (CBlock.unserialize PROTOCOL_VERSION) rest
  rw [passRecord]
  split_ifs
  · exact List.suffix_refl rest
  · exact List.suffix_refl rest
  · exact List.nil_suffix
  · exact List.suffix_refl rest
  · rcases heq : decode (CBlock.unserialize PROTOCOL_VERSION) rest with ⟨e | blk, rest'⟩ <;>
      rw [heq] at hdecode
    · exact hdecode
    · exact hdecode

theorem scanPass_suffix (rest : Bytes) : (scanPass rest).2 <:+ rest := by
  rw [scanPass]
  split_ifs
  · exact List.nil_suffix
  · exact (passRecord_suffix _ _ _).trans (List.drop_suffix 8 rest)

/-- A pass uses up a header, or what there is of one. -/
theorem length_scanPass (rest : Bytes) : (scanPass rest).2.length ≤ rest.length - 8 := by
  rw [scanPass]
  split_ifs with h
  · exact Nat.zero_le _
  · rw [← List.length_drop]
    exact (passRecord_suffix _ _ _).length_le

/-- The records the loop comes by. -/
def found (rest : Bytes) : List (ℕ × CBlock) :=
  if rest = [] then []
  else
    match (scanPass rest).1 with
    | .leave => []
    | .again => found (scanPass rest).2
    | .block blk => (rest.length, blk) :: found (scanPass rest).2
termination_by rest.length
decreasing_by
  all_goals
    have hlen := length_scanPass rest
    have hpos := List.length_pos_of_ne_nil ‹rest ≠ []›
    omega

theorem found_nil : found [] = [] := by
  rw [found, if_pos rfl]

theorem found_of_leave (h : (scanPass rest).1 = .leave) : found rest = [] := by
  rw [found, h]
  simp

theorem found_of_again (hne : rest ≠ []) (h : (scanPass rest).1 = .again) :
    found rest = found (scanPass rest).2 := by
  rw [found, if_neg hne, h]

theorem found_of_block {blk : CBlock} (hne : rest ≠ []) (h : (scanPass rest).1 = .block blk) :
    found rest = (rest.length, blk) :: found (scanPass rest).2 := by
  rw [found, if_neg hne, h]

/-- The blocks the loop over a file comes by. -/
def blocksOf (content : Bytes) : List CBlock := (found content).map Prod.snd

/-- The blocks of the files. -/
def blocksIn (files : List Bytes) : List CBlock := files.flatMap blocksOf

/-! ## A pass on the file -/

variable {bf : CBufferedFile}

theorem extract_run {α : Type} (d : Decoder α) (h : Before bf rest) :
    ∃ bf', extract d bf = ((decode d rest).1, bf') ∧ Before bf' (decode d rest).2 := by
  obtain ⟨h₁, h₂⟩ := CBufferedFile.run_eq d h
  exact ⟨_, Prod.ext h₁ rfl, h₂⟩

/-- Too few bytes are used up. -/
theorem extract_four_short (h : Before bf rest) (hlt : rest.length < 4) :
    ∃ bf', extract (Dialog.query 4) bf = (.error .endOfFile, bf') ∧ Before bf' [] ∧
      bf'.eof = true := by
  obtain ⟨bf', hread, heof⟩ := extract_short (n := 4) (by decide) h hlt
  obtain ⟨bf'', hrun, h'⟩ := extract_run (Dialog.query 4) h
  have hdecode : decode (Dialog.query 4) rest = (.error .endOfFile, []) := by
    rw [decode, Dialog.run_query, readBytes, if_neg (by decide), if_neg (by omega)]
  rw [hdecode] at hrun h'
  obtain rfl : bf' = bf'' := (Prod.mk.inj (hread.symm.trans hrun)).2
  exact ⟨bf', hread, h', heof⟩

theorem extract_len {bs : Bytes} (hbs : bs.length = 4) (h : Before bf (bs ++ rest)) :
    ∃ bf', extract (readLE 4) bf = (.ok (ofLeBytes bs), bf') ∧ Before bf' rest :=
  extract_decodes ((reads_query hbs (by decide)).bind_pure rfl) h

theorem extract_len_short (h : Before bf rest) (hlt : rest.length < 4) :
    ∃ bf', extract (readLE 4) bf = (.error .endOfFile, bf') ∧ Before bf' [] ∧
      bf'.eof = true := by
  obtain ⟨bf', hread, h', heof⟩ := extract_four_short h hlt
  refine ⟨bf', ?_, h', heof⟩
  rw [extract] at hread ⊢
  rw [readLE, Dialog.run_bind, hread]

/-- The rest of a scanPass, behind the header. -/
theorem scanRecord_header {net_magic lenb : Bytes} (hmagic : net_magic.length = 4)
    (hlenb : lenb.length = 4) (h : Before bf (net_magic ++ (lenb ++ rest))) :
    ∃ bf', Before bf' rest ∧ scanRecord bf = (do
      if ofLeBytes lenb = 0 then return .leave
      else if net_magic ≠ netMagic then return .again
      else do
        let net_magic ← extract (Dialog.query 4)
        rewind 4
        if net_magic = netMagic then return .again
        else do
          let blk ← extract (CBlock.unserialize PROTOCOL_VERSION)
          return .block blk : FileM Scan) bf' := by
  obtain ⟨bf₁, h₁, hb₁⟩ := extract_four hmagic h
  obtain ⟨bf₂, h₂, hb₂⟩ := extract_len hlenb hb₁
  refine ⟨bf₂, hb₂, ?_⟩
  rw [scanRecord, Action.bind_of_ok h₁, Action.bind_of_ok h₂]

/-- How the handler takes the end of a record. -/
def caught (res : Except Failure Scan × CBufferedFile) : Scan × CBufferedFile :=
  match res with
  | (.ok scan, bf) => (scan, bf)
  | (.error _, bf) => (.again, bf)

theorem scanStep_eq_caught (h : bf.eof = false) : scanStep bf = caught (scanRecord bf) := by
  rw [scanStep, h, if_neg Bool.false_ne_true]
  rfl

/-- Behind the header the file and the bytes agree. -/
theorem caught_passRecord {net_magic lenb : Bytes} (hmagic : net_magic.length = 4)
    (hlenb : lenb.length = 4) (h : Before bf (net_magic ++ (lenb ++ rest))) :
    ∃ bf', caught (scanRecord bf) = ((passRecord net_magic (ofLeBytes lenb) rest).1, bf') ∧
      Before bf' (passRecord net_magic (ofLeBytes lenb) rest).2 := by
  obtain ⟨bf₁, hb₁, heq⟩ := scanRecord_header hmagic hlenb h
  rw [heq, passRecord]
  split_ifs with hzero hne hshort hpeek
  · exact ⟨bf₁, rfl, hb₁⟩
  · exact ⟨bf₁, rfl, hb₁⟩
  · obtain ⟨bf₂, h₂, hb₂, -⟩ := extract_four_short hb₁ hshort
    exact ⟨bf₂, by rw [Action.bind_of_error h₂]; rfl, hb₂⟩
  · rw [← List.take_append_drop 4 rest] at hb₁
    have hfour : (rest.take 4).length = 4 := by
      rw [List.length_take]
      omega
    obtain ⟨bf₂, bf₃, h₂, h₃, hb₃⟩ := peek_four hfour hb₁
    rw [List.take_append_drop] at hb₃
    refine ⟨bf₃, ?_, hb₃⟩
    rw [Action.bind_of_ok h₂, Action.bind_of_ok h₃, if_pos hpeek]
    rfl
  · rw [← List.take_append_drop 4 rest] at hb₁
    have hfour : (rest.take 4).length = 4 := by
      rw [List.length_take]
      omega
    obtain ⟨bf₂, bf₃, h₂, h₃, hb₃⟩ := peek_four hfour hb₁
    rw [List.take_append_drop] at hb₃
    obtain ⟨bf₄, h₄, hb₄⟩ := extract_run (CBlock.unserialize PROTOCOL_VERSION) hb₃
    rw [Action.bind_of_ok h₂, Action.bind_of_ok h₃, if_neg hpeek]
    rcases hdecode : decode (CBlock.unserialize PROTOCOL_VERSION) rest with ⟨e | blk, rest'⟩ <;>
      rw [hdecode] at h₄ hb₄
    · exact ⟨bf₄, by rw [Action.bind_of_error h₄]; rfl, hb₄⟩
    · exact ⟨bf₄, by rw [Action.bind_of_ok h₄]; rfl, hb₄⟩

/-- **A pass on the file is a pass on the bytes that are left.** -/
theorem scanStep_pass (h : Before bf rest) (heof : bf.eof = false) :
    ∃ bf', scanStep bf = ((scanPass rest).1, bf') ∧ Before bf' (scanPass rest).2 ∧
      (rest.length < 8 → bf'.eof = true) := by
  rw [scanStep_eq_caught heof, scanPass]
  by_cases h8 : rest.length < 8
  · rw [if_pos h8]
    by_cases h4 : rest.length < 4
    · obtain ⟨bf', h₁, hb₁, heof'⟩ := extract_four_short h h4
      exact ⟨bf', by rw [scanRecord, Action.bind_of_error h₁]; rfl, hb₁, fun _ => heof'⟩
    · rw [← List.take_append_drop 4 rest] at h
      have hfour : (rest.take 4).length = 4 := by
        rw [List.length_take]
        omega
      obtain ⟨bf₁, h₁, hb₁⟩ := extract_four hfour h
      obtain ⟨bf', h₂, hb₂, heof'⟩ := extract_len_short hb₁ (by rw [List.length_drop]; omega)
      refine ⟨bf', ?_, hb₂, fun _ => heof'⟩
      rw [scanRecord, Action.bind_of_ok h₁, Action.bind_of_error h₂]
      rfl
  · rw [if_neg h8]
    have hsplit : rest = rest.take 4 ++ ((rest.drop 4).take 4 ++ rest.drop 8) := by
      rw [← List.append_assoc, ← List.take_add, List.take_append_drop]
    have hmagic : (rest.take 4).length = 4 := by
      rw [List.length_take]
      omega
    have hlenb : ((rest.drop 4).take 4).length = 4 := by
      rw [List.length_take, List.length_drop]
      omega
    rw [hsplit] at h
    obtain ⟨bf', hcaught, hb⟩ := caught_passRecord hmagic hlenb h
    exact ⟨bf', hcaught, hb, fun hlt => absurd hlt h8⟩

/-- At the end of the file nothing is left. -/
theorem rest_of_eof (h : Before bf rest) (heof : bf.eof = true) : rest = [] := by
  by_contra hne
  rw [CBufferedFile.Before.eof_eq_false h hne] at heof
  exact nomatch heof

/-! ## The loop -/

/-- The records that so many rounds of the loop come by. -/
def trace : ℕ → CBufferedFile → List (ℕ × CBlock)
  | 0, _ => []
  | n + 1, bf =>
    match scanStep bf with
    | (.leave, _) => []
    | (.again, bf') => trace n bf'
    | (.block blk, bf') => (bf.src.content.length - bf.getPos, blk) :: trace n bf'

/-- Hand the blocks of some records to the indexing step. -/
def indexAll {σ ε : Type} (index : CBlock → σ → Except ε σ) (records : List (ℕ × CBlock)) (s : σ) :
    Except ε σ :=
  records.foldlM (fun s record => index record.2 s) s

variable {σ ε : Type} {index : CBlock → σ → Except ε σ} {s : σ}

/-- The loop indexes the records it comes by. -/
theorem loop_trace {n : ℕ} {r : Except ε σ} (h : loop (scanLoop index) n (bf, s) = some r) :
    r = indexAll index (trace n bf) s := by
  induction n generalizing bf s with
  | zero => exact nomatch h
  | succ n ih =>
    rw [trace]
    rcases hstep : scanStep bf with ⟨scan, bf'⟩
    cases scan with
    | leave =>
      have hloop : scanLoop index (bf, s) = .inr (.ok s) := by rw [scanLoop, hstep]
      rw [loop_succ_inr hloop] at h
      exact (Option.some.inj h).symm
    | again =>
      have hloop : scanLoop index (bf, s) = .inl (bf', s) := by rw [scanLoop, hstep]
      rw [loop_succ_inl hloop] at h
      exact ih h
    | block blk =>
      rw [indexAll, List.foldlM_cons]
      cases hindex : index blk s with
      | ok s' =>
        have hloop : scanLoop index (bf, s) = .inl (bf', s') := by
          rw [scanLoop, hstep]
          simp only [hindex]
        rw [loop_succ_inl hloop] at h
        exact ih h
      | error e =>
        have hloop : scanLoop index (bf, s) = .inr (.error e) := by
          rw [scanLoop, hstep]
          simp only [hindex]
        rw [loop_succ_inr hloop] at h
        exact (Option.some.inj h).symm

/-- With a round for every byte that is left the loop comes by every record there is. -/
theorem trace_found {n : ℕ} (h : Before bf rest) (hn : rest.length ≤ n) :
    trace n bf = found rest := by
  induction n generalizing bf rest with
  | zero =>
    obtain rfl := List.length_eq_zero_iff.mp (Nat.le_zero.mp hn)
    rw [trace, found_nil]
  | succ n ih =>
    cases heof : bf.eof with
    | true =>
      rw [rest_of_eof h heof, found_nil, trace, scanStep, if_pos heof]
    | false =>
      obtain ⟨bf', hstep, h', -⟩ := scanStep_pass h heof
      have hlen := length_scanPass rest
      have hrest : trace n bf' = found (scanPass rest).2 := ih h' (by omega)
      rw [trace, hstep]
      by_cases hne : rest = []
      · subst hne
        rw [found_nil]
        exact hrest.trans found_nil
      cases hscan : (scanPass rest).1 with
      | leave => rw [found_of_leave hscan]
      | again => rw [found_of_again hne hscan, ← hrest]
      | block blk =>
        have hleft : bf.src.content.length - bf.getPos = rest.length := by
          rw [← CBufferedFile.Before.readPos h, CBufferedFile.getPos, Nat.add_sub_cancel_left]
        rw [found_of_block hne hscan, ← hrest, ← hleft]

/-- **The loop indexes the blocks of the records that are found**, in order, and leaves. -/
theorem exits_found (h : Before bf rest) :
    Exits (scanLoop index) (bf, s) (indexAll index (found rest) s) := by
  induction hlen : rest.length using Nat.strong_induction_on generalizing bf rest s with
  | _ n ih =>
    cases heof : bf.eof with
    | true =>
      rw [rest_of_eof h heof, found_nil]
      exact exits_of_eof heof
    | false =>
      obtain ⟨bf', hstep, h', hshort⟩ := scanStep_pass h heof
      by_cases hne : rest = []
      · subst hne
        have hloop : scanLoop index (bf, s) = .inl (bf', s) := by
          rw [scanLoop, hstep]
          rfl
        rw [found_nil]
        exact Exits.step hloop (exits_of_eof (hshort (by decide)))
      have hpass := length_scanPass rest
      have hpos := List.length_pos_of_ne_nil hne
      have hrest {s : σ} :
          Exits (scanLoop index) (bf', s) (indexAll index (found (scanPass rest).2) s) :=
        ih _ (by omega) h' rfl
      cases hscan : (scanPass rest).1 with
      | leave =>
        rw [found_of_leave hscan]
        exact Exits.stop (by rw [scanLoop, hstep, hscan]; rfl)
      | again =>
        rw [found_of_again hne hscan]
        exact Exits.step (by rw [scanLoop, hstep, hscan]) hrest
      | block blk =>
        rw [found_of_block hne hscan, indexAll, List.foldlM_cons]
        cases hindex : index blk s with
        | ok s' =>
          refine Exits.step (show scanLoop index (bf, s) = .inl (bf', s') from ?_) hrest
          rw [scanLoop, hstep, hscan]
          simp only [hindex]
        | error e =>
          refine Exits.stop ?_
          rw [scanLoop, hstep, hscan]
          simp only [hindex]
          rfl

/-- The loop over a file indexes its blocks. -/
theorem exits_blocksOf (index : CBlock → σ → Except ε σ) (content : Bytes) (s : σ) :
    Exits (scanLoop index) (openBlockFile content, s)
      ((blocksOf content).foldlM (fun s blk => index blk s) s) := by
  rw [blocksOf, List.foldlM_map]
  exact exits_found (openBlockFile_before content)

/-- An indexing step that collects the blocks. -/
def collect (blk : CBlock) (blks : List CBlock) : Except Unit (List CBlock) := .ok (blks ++ [blk])

theorem foldlM_collect (blks acc : List CBlock) :
    blks.foldlM (fun acc blk => collect blk acc) acc = .ok (acc ++ blks) := by
  induction blks generalizing acc with
  | nil =>
    rw [List.append_nil]
    rfl
  | cons blk blks ih =>
    rw [List.foldlM_cons]
    refine (ih (acc ++ [blk])).trans ?_
    rw [List.append_assoc, List.singleton_append]

/-- What the loop finds in a well-formed file are the blocks of its full records. -/
theorem blocksOf_fileBytes {items : List Item} (hf : Framed items) (k : ℕ) :
    blocksOf (fileBytes items k) = blocks items := by
  have hexits := (exits_blocksOf collect (fileBytes items k) []).unique
    (scanLoop_exits hf k collect [])
  rw [foldlM_collect, foldlM_collect] at hexits
  exact Except.ok.inj hexits

/-! ## Progress -/

theorem extract_content {α : Type} (d : Decoder α) (bf : CBufferedFile) :
    (extract d bf).2.src.content = bf.src.content :=
  Dialog.run_invariant (I := fun bf' : CBufferedFile => bf'.src.content = bf.src.content)
    (fun n bf' h => (CBufferedFile.read_content n bf').trans h) d rfl

/-- A pass does not change the file. -/
theorem scanStep_content (bf : CBufferedFile) :
    (scanStep bf).2.src.content = bf.src.content := by
  have hextract {α : Type} (d : Decoder α) :
      Action.Keeps (fun bf' => bf'.src.content = bf.src.content) (extract d) :=
    fun bf' h => (extract_content d bf').trans h
  have hrecord : Action.Keeps (fun bf' => bf'.src.content = bf.src.content) scanRecord := by
    refine (hextract _).bind fun net_magic => (hextract _).bind fun len => ?_
    refine Action.keeps_ite (Action.keeps_pure _) (Action.keeps_ite (Action.keeps_pure _) ?_)
    refine (hextract _).bind fun net_magic => Action.Keeps.bind (fun _ h => h) fun _ => ?_
    exact Action.keeps_ite (Action.keeps_pure _) ((hextract _).bind fun _ => Action.keeps_pure _)
  cases heof : bf.eof with
  | true => rw [scanStep, if_pos heof]
  | false =>
    have hbf := hrecord bf rfl
    rw [scanStep_eq_caught heof]
    rcases heq : scanRecord bf with ⟨e | scan, bf'⟩ <;> rw [heq] at hbf
    · exact hbf
    · exact hbf

/-- A round that goes on made a pass. -/
theorem scanStep_of_inl {bf' : CBufferedFile} {s' : σ}
    (h : scanLoop index (bf, s) = .inl (bf', s')) : bf.eof = false ∧ (scanStep bf).2 = bf' := by
  rw [scanLoop] at h
  rcases hstep : scanStep bf with ⟨scan, bf₁⟩
  rw [hstep] at h
  have heof : scan ≠ .leave → bf.eof = false := by
    intro hscan
    by_contra heof
    rw [scanStep, if_pos (Bool.not_eq_false _ ▸ heof)] at hstep
    exact hscan (Prod.mk.inj hstep).1.symm
  cases scan with
  | leave => cases h
  | again => exact ⟨heof (by simp), (Prod.mk.inj (Sum.inl.inj h)).1⟩
  | block blk =>
    refine ⟨heof (by simp), ?_⟩
    cases hindex : index blk s with
    | ok s₁ =>
      simp only [hindex] at h
      exact (Prod.mk.inj (Sum.inl.inj h)).1
    | error e =>
      simp only [hindex] at h
      cases h

/-- The loop over a file stands somewhere in it. -/
def InFile (content : Bytes) (bf : CBufferedFile) : Prop :=
  bf.src.content = content ∧ ∃ rest, Before bf rest

theorem inFile_open (content : Bytes) : InFile content (openBlockFile content) :=
  ⟨rfl, content, openBlockFile_before content⟩

/-- **A round that goes on moves the read position by eight bytes**, or reaches the end of the
file. -/
theorem scanLoop_progress {content : Bytes} {bf' : CBufferedFile} {s' : σ}
    (h : InFile content bf) (hround : scanLoop index (bf, s) = .inl (bf', s')) :
    InFile content bf' ∧ (bf.getPos + 8 ≤ bf'.getPos ∨ bf'.eof = true) := by
  obtain ⟨hcontent, rest, hbefore⟩ := h
  obtain ⟨heof, hstep'⟩ := scanStep_of_inl hround
  obtain ⟨bf₁, hstep, hbefore', hshort⟩ := scanStep_pass hbefore heof
  obtain rfl : bf₁ = bf' := by rw [← hstep', hstep]
  have hcontent' : bf₁.src.content = bf.src.content := by rw [← hstep', scanStep_content]
  refine ⟨⟨hcontent'.trans hcontent, _, hbefore'⟩, ?_⟩
  by_cases h8 : rest.length < 8
  · exact .inr (hshort h8)
  · have hlen := length_scanPass rest
    have hpos := CBufferedFile.Before.readPos hbefore
    have hpos' := CBufferedFile.Before.readPos hbefore'
    rw [hcontent'] at hpos'
    simp only [CBufferedFile.getPos]
    exact .inl (by omega)

/-- Wherever the loop comes round to. -/
theorem rounds_inFile {content : Bytes} {bf' : CBufferedFile} {s' : σ} (h : InFile content bf)
    (hrounds : Rounds (scanLoop index) (bf, s) (bf', s')) : InFile content bf' := by
  refine rounds_invariant (I := fun p : CBufferedFile × σ => InFile content p.1) ?_ hrounds h
  rintro ⟨bf₁, s₁⟩ ⟨bf₂, s₂⟩ hin hround
  exact (scanLoop_progress hin hround).1

end ElectrumZ.Blockchain
