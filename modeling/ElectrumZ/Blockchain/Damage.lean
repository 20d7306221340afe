import ElectrumZ.Blockchain.Passes

/-!
# Damaged records

A pass that finds no block goes on where it stands: behind the eight bytes it took for a header, or
where the decoder gave up. That is behind a damaged record only by chance.

* `skips_iff`, `finds_iff`: what a pass that goes on has met.
* `found_eq_nil_iff`, `found_eq_cons_iff`: what the loop finds, in terms of these.
* `indexesIntact_iff`: the undamaged records of a file are indexed, each once, and nothing else, if
  and only if the skips from each of them lead to the next.
-/

namespace ElectrumZ.Blockchain

open Foundations Bitcoin

/-! ## What a pass meets -/

/-- What a pass skips: the bytes before it and behind it. Four bytes of magic and four of a length
are taken for a header. -/
inductive Skips : Bytes → Bytes → Prop
  /-- Less than a header. -/
  | short {rest : Bytes} (ne : rest ≠ []) (lt : rest.length < 8) : Skips rest []
  /-- Another magic. -/
  | noMagic {net_magic lenb rest : Bytes} (magic_length : net_magic.length = 4)
    (len_length : lenb.length = 4) (len_ne : ofLeBytes lenb ≠ 0) (ne : net_magic ≠ netMagic) :
    Skips (net_magic ++ (lenb ++ rest)) rest
  /-- The magic comes again, so that the block is missing. -/
  | missing {lenb rest : Bytes} (len_length : lenb.length = 4) (len_ne : ofLeBytes lenb ≠ 0)
    (peek : rest.take 4 = netMagic) : Skips (netMagic ++ (lenb ++ rest)) rest
  /-- What follows is not a block. -/
  | undecodable {lenb rest rest' : Bytes} {e : Failure} (len_length : lenb.length = 4)
    (len_ne : ofLeBytes lenb ≠ 0) (peek : rest.take 4 ≠ netMagic)
    (fails : decode (CBlock.unserialize PROTOCOL_VERSION) rest = (.error e, rest')) :
    Skips (netMagic ++ (lenb ++ rest)) rest'

/-- A record whose block a pass finds, and the bytes behind what it has read. -/
inductive Finds : Bytes → CBlock → Bytes → Prop
  | mk {lenb rest rest' : Bytes} {blk : CBlock} (len_length : lenb.length = 4)
    (len_ne : ofLeBytes lenb ≠ 0) (peek : rest.take 4 ≠ netMagic)
    (decodes : decode (CBlock.unserialize PROTOCOL_VERSION) rest = (.ok blk, rest')) :
    Finds (netMagic ++ (lenb ++ rest)) blk rest'

variable {net_magic lenb rest rest' here : Bytes} {blk : CBlock}

/-- A header and what follows it. -/
theorem scanPass_header (hmagic : net_magic.length = 4) (hlenb : lenb.length = 4) (rest : Bytes) :
    scanPass (net_magic ++ (lenb ++ rest)) = passRecord net_magic (ofLeBytes lenb) rest := by
  have hdrop : (net_magic ++ (lenb ++ rest)).drop 8 = rest := by
    rw [← List.append_assoc, List.drop_left' (by rw [List.length_append, hmagic, hlenb])]
  have hlen : ¬ (net_magic ++ (lenb ++ rest)).length < 8 := by
    rw [List.length_append, List.length_append]
    omega
  rw [scanPass, if_neg hlen, hdrop, List.take_left' hmagic, List.drop_left' hmagic,
    List.take_left' hlenb]

theorem exists_header (h : ¬ rest.length < 8) : ∃ net_magic lenb rest', net_magic.length = 4 ∧
    lenb.length = 4 ∧ rest = net_magic ++ (lenb ++ rest') := by
  refine ⟨rest.take 4, (rest.drop 4).take 4, rest.drop 8, ?_, ?_, ?_⟩
  · rw [List.length_take]
    omega
  · rw [List.length_take, List.length_drop]
    omega
  · rw [← List.append_assoc, ← List.take_add, List.take_append_drop]

/-- A block begins with four bytes. -/
theorem decode_short (h : rest.length < 4) :
    decode (CBlock.unserialize PROTOCOL_VERSION) rest = (.error .endOfFile, []) := by
  have hquery : (Dialog.query 4 : Decoder Bytes).run
      (readBytes .endOfFile .bufferSize readMax) rest = (.error .endOfFile, []) := by
    rw [Dialog.run_query, readBytes, if_neg (by decide), if_neg (by omega)]
  have hversion : unserializeInt32.run (readBytes .endOfFile .bufferSize readMax) rest =
      (.error .endOfFile, []) := by
    rw [unserializeInt32, serReaddata32, readLE, Dialog.run_bind, Dialog.run_bind, Dialog.run_bind,
      hquery]
  rw [decode, CBlock.unserialize, CBlockHeader.unserialize, Dialog.run_bind, Dialog.run_bind,
    hversion]

theorem netMagic_length : netMagic.length = 4 := rfl

/-- What follows a header that is not the last. -/
theorem passRecord_magic (hlen : ofLeBytes lenb ≠ 0) (hpeek : rest.take 4 ≠ netMagic) :
    passRecord netMagic (ofLeBytes lenb) rest =
      decoded (decode (CBlock.unserialize PROTOCOL_VERSION) rest) := by
  rw [passRecord, if_neg hlen, if_neg (not_not.mpr rfl)]
  by_cases h : rest.length < 4
  · rw [if_pos h, decode_short h, decoded]
  · rw [if_neg h, if_neg hpeek]

theorem Skips.pass (h : Skips rest rest') : rest ≠ [] ∧ scanPass rest = (.again, rest') := by
  cases h with
  | short hne hlt => exact ⟨hne, by rw [scanPass, if_pos hlt]⟩
  | noMagic hmagic hlenb hlen hne =>
    refine ⟨List.append_ne_nil_of_left_ne_nil (List.ne_nil_of_length_eq_add_one hmagic) _, ?_⟩
    rw [scanPass_header hmagic hlenb, passRecord, if_neg hlen, if_pos hne]
  | missing hlenb hlen hpeek =>
    refine ⟨by simp [netMagic], ?_⟩
    have hfour : ¬ rest'.length < 4 := by
      have := congrArg List.length hpeek
      rw [List.length_take, netMagic_length] at this
      omega
    rw [scanPass_header netMagic_length hlenb, passRecord, if_neg hlen, if_neg (not_not.mpr rfl),
      if_neg hfour, if_pos hpeek]
  | undecodable hlenb hlen hpeek hfails =>
    refine ⟨by simp [netMagic], ?_⟩
    rw [scanPass_header netMagic_length hlenb, passRecord_magic hlen hpeek, hfails, decoded]

theorem Finds.pass (h : Finds rest blk rest') :
    rest ≠ [] ∧ scanPass rest = (.block blk, rest') := by
  obtain ⟨hlenb, hlen, hpeek, hdecodes⟩ := h
  refine ⟨by simp [netMagic], ?_⟩
  rw [scanPass_header netMagic_length hlenb, passRecord_magic hlen hpeek, hdecodes, decoded]

/-- A pass leaves, skips or finds. -/
theorem scanPass_cases (hne : rest ≠ []) : (scanPass rest).1 = .leave ∨
    Skips rest (scanPass rest).2 ∨ ∃ blk, Finds rest blk (scanPass rest).2 := by
  by_cases h8 : rest.length < 8
  · rw [scanPass, if_pos h8]
    exact .inr (.inl (.short hne h8))
  obtain ⟨net_magic, lenb, rest', hmagic, hlenb, rfl⟩ := exists_header h8
  rw [scanPass_header hmagic hlenb]
  by_cases hlen : ofLeBytes lenb = 0
  · rw [passRecord, if_pos hlen]
    exact .inl rfl
  refine .inr ?_
  by_cases heq : net_magic = netMagic
  · subst heq
    by_cases hpeek : rest'.take 4 = netMagic
    · have hskips : Skips (netMagic ++ (lenb ++ rest')) rest' := .missing hlenb hlen hpeek
      have hpass := hskips.pass.2
      rw [scanPass_header hmagic hlenb] at hpass
      rw [hpass]
      exact .inl hskips
    · rw [passRecord_magic hlen hpeek]
      rcases hdecode : decode (CBlock.unserialize PROTOCOL_VERSION) rest' with ⟨e | blk, rest''⟩
      · exact .inl (.undecodable hlenb hlen hpeek hdecode)
      · exact .inr ⟨blk, .mk hlenb hlen hpeek hdecode⟩
  · rw [passRecord, if_neg hlen, if_pos heq]
    exact .inl (.noMagic hmagic hlenb hlen heq)

/-- **A pass that goes on without a block has skipped something.** -/
theorem skips_iff : Skips rest rest' ↔ rest ≠ [] ∧ scanPass rest = (.again, rest') := by
  refine ⟨Skips.pass, fun ⟨hne, hpass⟩ => ?_⟩
  obtain h | h | ⟨blk, h⟩ := scanPass_cases hne
  · rw [hpass] at h
    exact nomatch h
  · rwa [hpass] at h
  · exact nomatch congrArg Prod.fst (h.pass.2.symm.trans hpass)

theorem finds_iff : Finds rest blk rest' ↔ rest ≠ [] ∧ scanPass rest = (.block blk, rest') := by
  refine ⟨Finds.pass, fun ⟨hne, hpass⟩ => ?_⟩
  obtain h | h | ⟨blk', h⟩ := scanPass_cases hne
  · rw [hpass] at h
    exact nomatch h
  · exact nomatch congrArg Prod.fst (h.pass.2.symm.trans hpass)
  · have heq := h.pass.2.symm.trans hpass
    obtain rfl := Scan.block.inj (congrArg Prod.fst heq)
    rwa [hpass] at h

/-! ## What is found -/

/-- Where the skips lead, one after another. -/
def Leaps : Bytes → Bytes → Prop := Relation.ReflTransGen Skips

theorem Skips.suffix (h : Skips rest rest') : rest' <:+ rest := by
  have hsuffix := scanPass_suffix rest
  rwa [h.pass.2] at hsuffix

theorem Leaps.suffix (h : Leaps here rest) : rest <:+ here := by
  induction h with
  | refl => exact List.suffix_refl here
  | tail _ hskip ih => exact hskip.suffix.trans ih

theorem Skips.found_eq (h : Skips rest rest') : found rest = found rest' := by
  rw [found_of_again h.pass.1 (congrArg Prod.fst h.pass.2), h.pass.2]

theorem Leaps.found_eq (h : Leaps here rest) : found here = found rest := by
  induction h with
  | refl => rfl
  | tail _ hskip ih => exact ih.trans hskip.found_eq

theorem Finds.found_eq (h : Finds rest blk rest') :
    found rest = (rest.length, blk) :: found rest' := by
  rw [found_of_block h.pass.1 (congrArg Prod.fst h.pass.2), h.pass.2]

/-- The skips lead to the first block, or there is none on their way. -/
theorem found_cases (here : Bytes) :
    found here = [] ∨ ∃ rest blk rest', Leaps here rest ∧ Finds rest blk rest' := by
  induction hlen : here.length using Nat.strong_induction_on generalizing here with
  | _ n ih =>
    by_cases hne : here = []
    · exact .inl (hne ▸ found_nil)
    have hpos := List.length_pos_of_ne_nil hne
    have hpass := length_scanPass here
    obtain h | h | ⟨blk, h⟩ := scanPass_cases hne
    · exact .inl (found_of_leave h)
    · rw [h.found_eq]
      obtain hnil | ⟨rest, blk, rest', hleaps, hfinds⟩ := ih _ (by omega) (scanPass here).2 rfl
      · exact .inl hnil
      · exact .inr ⟨rest, blk, rest', .head h hleaps, hfinds⟩
    · exact .inr ⟨here, blk, _, .refl, h⟩

/-- The skips from here come by no block. -/
def Barren (here : Bytes) : Prop := ∀ rest blk rest', Leaps here rest → ¬ Finds rest blk rest'

theorem found_eq_nil_iff : found here = [] ↔ Barren here := by
  constructor
  · intro hnil rest blk rest' hleaps hfinds
    rw [hleaps.found_eq, hfinds.found_eq] at hnil
    exact List.cons_ne_nil _ _ hnil
  · intro h
    obtain hnil | ⟨rest, blk, rest', hleaps, hfinds⟩ := found_cases here
    · exact hnil
    · exact absurd hfinds (h rest blk rest' hleaps)

theorem found_eq_cons_iff {n : ℕ} {records : List (ℕ × CBlock)} :
    found here = (n, blk) :: records ↔ ∃ rest rest', Leaps here rest ∧ Finds rest blk rest' ∧
      rest.length = n ∧ found rest' = records := by
  constructor
  · intro h
    obtain hnil | ⟨rest, blk', rest', hleaps, hfinds⟩ := found_cases here
    · rw [hnil] at h
      exact absurd h.symm (List.cons_ne_nil _ _)
    · rw [hleaps.found_eq, hfinds.found_eq] at h
      obtain ⟨hhead, hrecords⟩ := List.cons.inj h
      obtain ⟨hlen, rfl⟩ := Prod.mk.inj hhead
      exact ⟨rest, rest', hleaps, hfinds, hlen, hrecords⟩
  · rintro ⟨rest, rest', hleaps, hfinds, rfl, rfl⟩
    rw [hleaps.found_eq, hfinds.found_eq]

/-- The records found come one behind the other. -/
theorem found_pairwise (here : Bytes) :
    (∀ record ∈ found here, record.1 ≤ here.length) ∧
      (found here).Pairwise fun a b => b.1 < a.1 := by
  induction hlen : here.length using Nat.strong_induction_on generalizing here with
  | _ n ih =>
    obtain hnil | ⟨rest, blk, rest', hleaps, hfinds⟩ := found_cases here
    · rw [hnil]
      exact ⟨nofun, .nil⟩
    · have hle := hleaps.suffix.length_le
      have hpass := length_scanPass rest
      have hpos := List.length_pos_of_ne_nil hfinds.pass.1
      rw [hfinds.pass.2] at hpass
      simp only at hpass
      obtain ⟨hbound, hpairwise⟩ := ih rest'.length (by omega) rest' rfl
      rw [hleaps.found_eq, hfinds.found_eq]
      refine ⟨List.forall_mem_cons.mpr ⟨by simp only; omega, fun record h => ?_⟩,
        List.pairwise_cons.mpr ⟨fun record h => ?_, hpairwise⟩⟩
      · have := hbound record h
        omega
      · have := hbound record h
        simp only
        omega

/-! ## Records -/

/-- A record as it is framed: four bytes of magic, a length, and as many bytes. -/
structure Record where
  magic : Bytes
  payload : Bytes
  magic_length : magic.length = 4
  payload_lt : payload.length < 256 ^ 4

namespace Record

/-- The record in a file. -/
def bytes (r : Record) : Bytes := r.magic ++ (leBytes 4 r.payload.length ++ r.payload)

/-- The block of an undamaged record: the magic is right, and the whole payload decodes. -/
def block? (r : Record) : Option CBlock :=
  if r.magic = netMagic then
    match decode (CBlock.unserialize PROTOCOL_VERSION) r.payload with
    | (.ok blk, []) => some blk
    | _ => none
  else none

end Record

/-- One record after another. -/
def recordBytes (records : List Record) : Bytes := records.flatMap Record.bytes

/-- The undamaged records, each with the number of bytes of the file from it on. -/
def intact : List Record → List (ℕ × CBlock)
  | [] => []
  | r :: records =>
    match r.block? with
    | some blk => ((recordBytes (r :: records)).length, blk) :: intact records
    | none => intact records

/-- From here the skips lead to the next undamaged record, whose payload does not begin with the
magic, and from its end on to the one after it; behind the last one they come by no block. -/
def Resumes (here : Bytes) : List Record → Prop
  | [] => Barren here
  | r :: records =>
    match r.block? with
    | some _ => Leaps here (recordBytes (r :: records)) ∧ r.payload.take 4 ≠ netMagic ∧
        Resumes (recordBytes records) records
    | none => Resumes here records

variable {r : Record} {records : List Record}

theorem recordBytes_cons (r : Record) (records : List Record) : recordBytes (r :: records) =
    r.magic ++ (leBytes 4 r.payload.length ++ (r.payload ++ recordBytes records)) := by
  simp [recordBytes, Record.bytes]

theorem recordBytes_suffix (r : Record) (records : List Record) :
    recordBytes records <:+ recordBytes (r :: records) := by
  rw [recordBytes, recordBytes, List.flatMap_cons]
  exact List.suffix_append _ _

theorem Record.block?_eq_some_iff : r.block? = some blk ↔ r.magic = netMagic ∧
    decode (CBlock.unserialize PROTOCOL_VERSION) r.payload = (.ok blk, []) := by
  rw [block?]
  split_ifs with hmagic
  · rcases hdecode : decode (CBlock.unserialize PROTOCOL_VERSION) r.payload with ⟨e | blk', rest⟩
    · simp
    · cases rest <;> simp [hmagic]
  · simp [hmagic]

/-- The block of an undamaged record begins with four bytes. -/
theorem Record.four_le (h : r.block? = some blk) : 4 ≤ r.payload.length := by
  by_contra hlt
  have hdecode := (Record.block?_eq_some_iff.mp h).2
  rw [decode_short (by omega)] at hdecode
  exact nomatch (Prod.mk.inj hdecode).1

/-- A pass on an undamaged record finds its block, unless its payload begins with the magic. -/
theorem finds_record {blk' : CBlock} (h : r.block? = some blk) :
    Finds (recordBytes (r :: records)) blk' rest ↔
      r.payload.take 4 ≠ netMagic ∧ blk' = blk ∧ rest = recordBytes records := by
  obtain ⟨hmagic, hdecode⟩ := Record.block?_eq_some_iff.mp h
  have hfour := Record.four_le h
  have hlen : ofLeBytes (leBytes 4 r.payload.length) ≠ 0 := by
    rw [ofLeBytes_leBytes r.payload_lt]
    omega
  have hpeek : (r.payload ++ recordBytes records).take 4 = r.payload.take 4 :=
    List.take_append_of_le_length hfour
  have happend : decode (CBlock.unserialize PROTOCOL_VERSION)
      (r.payload ++ recordBytes records) = (.ok blk, recordBytes records) :=
    run_readBytes_append hdecode _
  rw [recordBytes_cons, hmagic]
  constructor
  · intro hfinds
    by_cases hmissing : r.payload.take 4 = netMagic
    · have hskips := Skips.missing (length_leBytes 4 r.payload.length) hlen (hpeek.trans hmissing)
      exact nomatch congrArg Prod.fst (hskips.pass.2.symm.trans hfinds.pass.2)
    · have hrecord := Finds.mk (length_leBytes 4 r.payload.length) hlen (hpeek ▸ hmissing) happend
      have heq := hrecord.pass.2.symm.trans hfinds.pass.2
      obtain ⟨hscan, hrest⟩ := Prod.mk.inj heq
      exact ⟨hmissing, (Scan.block.inj hscan).symm, hrest.symm⟩
  · rintro ⟨hmissing, rfl, rfl⟩
    exact Finds.mk (length_leBytes 4 r.payload.length) hlen (hpeek ▸ hmissing) happend

/-- **What is found are the undamaged records**, if and only if the skips lead from each to the
next. -/
theorem found_eq_intact_iff (h : recordBytes records <:+ here) :
    found here = intact records ↔ Resumes here records := by
  induction records generalizing here with
  | nil => exact found_eq_nil_iff
  | cons r records ih =>
    rw [intact, Resumes]
    cases hblock : r.block? with
    | none => exact ih ((recordBytes_suffix r records).trans h)
    | some blk =>
      simp only
      rw [found_eq_cons_iff, ← ih (List.suffix_refl _)]
      constructor
      · rintro ⟨rest, rest', hleaps, hfinds, hlen, hrest⟩
        obtain rfl : rest = recordBytes (r :: records) :=
          (List.suffix_of_suffix_length_le hleaps.suffix h hlen.le).eq_of_length hlen
        obtain ⟨hpeek, -, rfl⟩ := (finds_record hblock).mp hfinds
        exact ⟨hleaps, hpeek, hrest⟩
      · rintro ⟨hleaps, hpeek, hrest⟩
        exact ⟨_, _, hleaps, (finds_record hblock).mpr ⟨hpeek, rfl, rfl⟩, rfl, hrest⟩

theorem intact_pairwise (records : List Record) :
    (∀ record ∈ intact records, record.1 ≤ (recordBytes records).length) ∧
      (intact records).Pairwise fun a b => b.1 < a.1 := by
  induction records with
  | nil => exact ⟨nofun, .nil⟩
  | cons r records ih =>
    obtain ⟨hbound, hpairwise⟩ := ih
    have hlen : (recordBytes records).length + 8 ≤ (recordBytes (r :: records)).length := by
      have hmagic := r.magic_length
      rw [recordBytes_cons]
      simp only [List.length_append, length_leBytes]
      omega
    rw [intact]
    cases r.block? with
    | none => exact ⟨fun record h => by have := hbound record h; omega, hpairwise⟩
    | some blk =>
      refine ⟨List.forall_mem_cons.mpr ⟨le_refl _, fun record h => ?_⟩,
        List.pairwise_cons.mpr ⟨fun record h => ?_, hpairwise⟩⟩
      · have := hbound record h
        omega
      · have := hbound record h
        simp only
        omega

/-! ## Whole files -/

/-- The loop over the file indexes the undamaged records, each once, and nothing else. -/
def IndexesIntact (records : List Record) : Prop :=
  ∃ n, ∀ rounds, n ≤ rounds →
    (trace rounds (openBlockFile (recordBytes records))).Perm (intact records)

/-- **A damaged record and the rest of the file.** The loop over a file of records indexes the
undamaged ones, each once, and nothing else, if and only if from the start of the file and from the
end of each undamaged record the skips lead to the next one, and behind the last one to no block. -/
theorem indexesIntact_iff (records : List Record) :
    IndexesIntact records ↔ Resumes (recordBytes records) records := by
  rw [← found_eq_intact_iff (List.suffix_refl _)]
  have htrace (rounds : ℕ) (h : (recordBytes records).length ≤ rounds) :
      trace rounds (openBlockFile (recordBytes records)) = found (recordBytes records) :=
    trace_found (openBlockFile_before _) h
  constructor
  · rintro ⟨n, hn⟩
    have hperm := hn (max n (recordBytes records).length) (le_max_left _ _)
    rw [htrace _ (le_max_right _ _)] at hperm
    refine hperm.eq_of_pairwise (fun a b _ _ hab hba => ?_) (found_pairwise _).2
      (intact_pairwise records).2
    exact absurd hab (Nat.lt_asymm hba)
  · intro h
    refine ⟨(recordBytes records).length, fun rounds hle => ?_⟩
    rw [htrace rounds hle, h]

/-! ### A damaged magic -/

/-- The block of a small chain. -/
def payBlock : CBlock := payTo [[0x51], [0x51]]

/-- A record with its block, behind some magic. -/
def payRecord (magic : Bytes) (magic_length : magic.length = 4) : Record where
  magic := magic
  payload := payBlock.serialize PROTOCOL_VERSION
  magic_length := magic_length
  payload_lt := by decide +kernel

/-- The first magic is damaged. -/
def damagedRecords : List Record := [payRecord [0, 0, 0, 0] rfl, payRecord netMagic netMagic_length]

theorem block?_payRecord : (payRecord netMagic netMagic_length).block? = some payBlock :=
  Record.block?_eq_some_iff.mpr ⟨rfl, reads_iff.mp (CBlock.reads_unserialize maxPiece_le_readMax
    (by decide) (payTo_valid (by decide) (by decide)))⟩

/-- The header of the block has no previous block, which is read as a length. -/
theorem found_damagedRecords : found (recordBytes damagedRecords) = [] := by
  have hzero : (payBlock.serialize PROTOCOL_VERSION).take 8 = [1, 0, 0, 0] ++ [0, 0, 0, 0] := by
    decide +kernel
  have hlen : ofLeBytes (leBytes 4 (payBlock.serialize PROTOCOL_VERSION).length) ≠ 0 := by
    decide +kernel
  have hskips (rest : Bytes) : Skips ([0, 0, 0, 0] ++
      (leBytes 4 (payBlock.serialize PROTOCOL_VERSION).length ++ rest)) rest :=
    .noMagic rfl (length_leBytes 4 _) hlen (by decide)
  rw [damagedRecords, recordBytes_cons]
  refine (hskips _).found_eq.trans (found_of_leave ?_)
  show (scanPass (payBlock.serialize PROTOCOL_VERSION ++ _)).1 = _
  rw [← List.take_append_drop 8 (payBlock.serialize PROTOCOL_VERSION), hzero, List.append_assoc,
    List.append_assoc, scanPass_header rfl rfl, passRecord, if_pos (by decide)]

theorem not_indexesIntact : ¬ ∀ records, IndexesIntact records := by
  intro h
  obtain ⟨n, hn⟩ := h damagedRecords
  have hperm := hn (max n (recordBytes damagedRecords).length) (le_max_left _ _)
  rw [trace_found (openBlockFile_before _) (le_max_right _ _), found_damagedRecords] at hperm
  have hintact : intact damagedRecords =
      [((recordBytes [payRecord netMagic netMagic_length]).length, payBlock)] := by
    have hdamaged : (payRecord [0, 0, 0, 0] rfl).block? = none := by
      rw [Record.block?, if_neg (by decide)]
    simp only [damagedRecords, intact, hdamaged, block?_payRecord]
  rw [hintact] at hperm
  exact absurd hperm.length_eq (by decide)

end ElectrumZ.Blockchain
