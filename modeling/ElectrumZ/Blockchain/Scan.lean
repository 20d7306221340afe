import ElectrumZ.Bitcoin.Streams
import ElectrumZ.Bitcoin.Transaction
import ElectrumZ.Foundations.Action
import ElectrumZ.Foundations.Loop

/-!
# Scanning a block file

The inner loop of `TXODB::PreLoadBlocks`: it reads one record after another through a
`CBufferedFile` and hands every block it decodes to the indexing step, which is a parameter here.

* `scanRecord` is the body of the `try`, `scanStep` adds the end-of-file test before it and the
  handler after it, and `scanLoop` is the loop around an indexing step that may give up.
* `Item` and `Framed` describe the files the loop is meant for: full records and headers whose
  block is missing, then zero bytes.
* `scanLoop_exits`: on such a file the loop indexes the blocks of the full records, in order, and
  leaves.
-/

namespace ElectrumZ.Blockchain

open Foundations Bitcoin

def PRELOAD_BUFFER_SIZE : ℕ := 0x8000000

/-- The regtest magic. -/
def netMagic : Bytes := [0xfa, 0xbf, 0xb5, 0xda]

/-! ## The loop -/

/-- A computation on a buffered file, which may throw. -/
abbrev FileM := Action Failure CBufferedFile

/-- `bf >> obj`. -/
def extract {α : Type} (d : Decoder α) : FileM α := fun bf => d.run CBufferedFile.read bf

/-- `bf.SetPos(bf.GetPos() - n)`. -/
def rewind (n : ℕ) : FileM Unit := fun bf => (.ok (), (bf.setPos (bf.getPos - n)).2)

/-- How one pass of the loop ends: with a `break`, with nothing to index, or with a block. -/
inductive Scan
  | leave
  | again
  | block (blk : CBlock)

/-- The body of the `try`, up to the indexing of the block. -/
def scanRecord : FileM Scan := do
  let net_magic ← extract (Dialog.query 4)
  let len ← extract (readLE 4)
  if len = 0 then return .leave
  else if net_magic ≠ netMagic then return .again
  else do
    -- peek and see if we have a missing block
    let net_magic ← extract (Dialog.query 4)
    rewind 4
    if net_magic = netMagic then return .again
    else do
      let blk ← extract (CBlock.unserialize PROTOCOL_VERSION)
      return .block blk

/-- One pass. What the `try` throws is logged, and the loop goes on where the file stands. -/
def scanStep (bf : CBufferedFile) : Scan × CBufferedFile :=
  if bf.eof then (.leave, bf)
  else
    match scanRecord bf with
    | (.ok scan, bf) => (scan, bf)
    | (.error _, bf) => (.again, bf)

variable {σ ε : Type}

/-- The loop over one file. An indexing step that gives up ends the worker, not just the file. -/
def scanLoop (index : CBlock → σ → Except ε σ) :
    CBufferedFile × σ → (CBufferedFile × σ) ⊕ Except ε σ
  | (bf, s) =>
    match scanStep bf with
    | (.leave, _) => .inr (.ok s)
    | (.again, bf) => .inl (bf, s)
    | (.block blk, bf) =>
      match index blk s with
      | .ok s => .inl (bf, s)
      | .error e => .inr (.error e)

theorem four_lt_bufferSize : 4 < PRELOAD_BUFFER_SIZE := by decide

theorem bufferSize_lt : PRELOAD_BUFFER_SIZE < 2 ^ 32 := by decide

/-- The file as the loop opens it, with room to rewind the magic. -/
def openBlockFile (content : Bytes) : CBufferedFile :=
  CBufferedFile.ofFile (.fopen content) PRELOAD_BUFFER_SIZE 4 four_lt_bufferSize bufferSize_lt

/-! ## Block files -/

/-- An item of a block file: a record with its block, or a header whose block is missing. -/
inductive Item
  | full (blk : CBlock)
  | headerOnly (len : ℕ)

namespace Item

/-- What follows the magic. -/
def body : Item → Bytes
  | full blk =>
    leBytes 4 (blk.serialize PROTOCOL_VERSION).length ++ blk.serialize PROTOCOL_VERSION
  | headerOnly len => leBytes 4 len

/-- The item in a file. -/
def bytes (i : Item) : Bytes := netMagic ++ i.body

/-- The block, unless it is missing. -/
def block? : Item → Option CBlock
  | full blk => some blk
  | headerOnly _ => none

end Item

/-- The items of a well-formed block file. The header of a missing block is followed directly by
the next item. -/
inductive Framed : List Item → Prop
  | nil : Framed []
  | full {blk : CBlock} {items : List Item} (valid : blk.Valid)
      (size_lt : (blk.serialize PROTOCOL_VERSION).length < 256 ^ 4)
      (no_magic : (blk.serialize PROTOCOL_VERSION).take 4 ≠ netMagic) (rest : Framed items) :
      Framed (.full blk :: items)
  | headerOnly {len : ℕ} {items : List Item} (len_ne : len ≠ 0) (len_lt : len < 256 ^ 4)
      (items_ne : items ≠ []) (rest : Framed items) : Framed (.headerOnly len :: items)

/-- The blocks of the full records, in file order. -/
def blocks (items : List Item) : List CBlock := items.filterMap Item.block?

/-- The file: its items, then `k` zero bytes. -/
def fileBytes (items : List Item) (k : ℕ) : Bytes :=
  items.flatMap Item.bytes ++ List.replicate k 0

@[simp] theorem blocks_nil : blocks [] = [] := rfl

@[simp] theorem blocks_full (blk : CBlock) (items : List Item) :
    blocks (.full blk :: items) = blk :: blocks items := rfl

@[simp] theorem blocks_headerOnly (len : ℕ) (items : List Item) :
    blocks (.headerOnly len :: items) = blocks items := rfl

/-- The blocks of a well-formed file are valid. -/
theorem blocks_valid {items : List Item} (h : Framed items) : ∀ b ∈ blocks items, b.Valid := by
  induction h with
  | nil => simp
  | full valid _ _ _ ih => exact List.forall_mem_cons.mpr ⟨valid, ih⟩
  | headerOnly _ _ _ _ ih => exact ih

theorem fileBytes_cons (i : Item) (items : List Item) (k : ℕ) :
    fileBytes (i :: items) k = netMagic ++ (i.body ++ fileBytes items k) := by
  simp [fileBytes, Item.bytes]

/-! ## One pass -/

/-- What one request of the preload buffer may ask for. -/
def readMax : ℕ := PRELOAD_BUFFER_SIZE - 4

theorem maxPiece_le_readMax : maxPiece ≤ readMax := by decide

/-- `bf` stands before `rest`. -/
abbrev Before (bf : CBufferedFile) (rest : Bytes) : Prop := CBufferedFile.Before readMax 4 bf rest

theorem openBlockFile_before (content : Bytes) : Before (openBlockFile content) content :=
  ⟨[], (CBufferedFile.ofFile_holds _ _ (by decide)).mono (Nat.zero_le _)⟩

variable {bf : CBufferedFile} {rest : Bytes}

theorem extract_decodes {α : Type} {d : Decoder α} {bs : Bytes} {a : α}
    (hd : Decodes readMax d bs a) (h : Before bf (bs ++ rest)) :
    ∃ bf', extract d bf = (.ok a, bf') ∧ Before bf' rest :=
  CBufferedFile.run_decodes hd h

/-- The four bytes in front are the magic or whatever else is there. -/
theorem extract_four {bs : Bytes} (hbs : bs.length = 4) (h : Before bf (bs ++ rest)) :
    ∃ bf', extract (Dialog.query 4) bf = (.ok bs, bf') ∧ Before bf' rest :=
  extract_decodes (reads_query hbs (by decide)) h

theorem extract_short {n : ℕ} (hn : n ≤ readMax) (h : Before bf rest) (hlt : rest.length < n) :
    ∃ bf', extract (Dialog.query n) bf = (.error .endOfFile, bf') ∧ bf'.eof = true := by
  obtain ⟨bf', hread, heof⟩ := CBufferedFile.Before.read_of_lt h hn hlt
  exact ⟨bf', by rw [extract, Dialog.run_query, hread], heof⟩

theorem scanStep_of_record {scan : Scan} {bf' : CBufferedFile} (heof : bf.eof = false)
    (h : scanRecord bf = (.ok scan, bf')) : scanStep bf = (scan, bf') := by
  rw [scanStep, heof, h]
  rfl

/-- At a non-zero length the record continues with the peek. -/
theorem scanRecord_of_header {len : ℕ} (hne : len ≠ 0) (hlt : len < 256 ^ 4)
    (h : Before bf (netMagic ++ (leBytes 4 len ++ rest))) :
    ∃ bf', Before bf' rest ∧ scanRecord bf = (do
      let net_magic ← extract (Dialog.query 4)
      rewind 4
      if net_magic = netMagic then return .again
      else do
        let blk ← extract (CBlock.unserialize PROTOCOL_VERSION)
        return .block blk : FileM Scan) bf' := by
  obtain ⟨bf₁, h₁, hb₁⟩ := extract_four rfl h
  obtain ⟨bf₂, h₂, hb₂⟩ := extract_decodes (reads_readLE hlt (by decide)) hb₁
  refine ⟨bf₂, hb₂, ?_⟩
  rw [scanRecord, Action.bind_of_ok h₁, Action.bind_of_ok h₂, if_neg hne, if_neg (by simp)]

theorem peek_four {bs : Bytes} (hbs : bs.length = 4) (h : Before bf (bs ++ rest)) :
    ∃ bf₁ bf₂, extract (Dialog.query 4) bf = (.ok bs, bf₁) ∧ rewind 4 bf₁ = (.ok (), bf₂) ∧
      Before bf₂ (bs ++ rest) := by
  obtain ⟨bf₁, hread, h'⟩ := CBufferedFile.Before.peek h (by omega) (hbs.trans_le (by decide))
  rw [hbs] at hread h'
  exact ⟨bf₁, _, by rw [extract, Dialog.run_query, hread], rfl, h'⟩

/-- A header whose block is missing is skipped. -/
theorem scanStep_headerOnly {len : ℕ} (hne : len ≠ 0) (hlt : len < 256 ^ 4)
    (h : Before bf (netMagic ++ (leBytes 4 len ++ (netMagic ++ rest)))) :
    ∃ bf', scanStep bf = (.again, bf') ∧ Before bf' (netMagic ++ rest) := by
  obtain ⟨bf₁, hb₁, heq⟩ := scanRecord_of_header hne hlt h
  obtain ⟨bf₂, bf₃, h₂, h₃, hb₃⟩ := peek_four rfl hb₁
  refine ⟨bf₃, scanStep_of_record (CBufferedFile.Before.eof_eq_false h (by simp [netMagic])) ?_,
    hb₃⟩
  rw [heq, Action.bind_of_ok h₂, Action.bind_of_ok h₃, if_pos rfl]
  rfl

/-- A full record yields its block. -/
theorem scanStep_full {blk : CBlock} (hv : blk.Valid)
    (hlt : (blk.serialize PROTOCOL_VERSION).length < 256 ^ 4)
    (hmagic : (blk.serialize PROTOCOL_VERSION).take 4 ≠ netMagic)
    (h : Before bf (netMagic ++ ((Item.full blk).body ++ rest))) :
    ∃ bf', scanStep bf = (.block blk, bf') ∧ Before bf' rest := by
  have hlen := CBlock.length_serialize_ge PROTOCOL_VERSION blk
  rw [Item.body, List.append_assoc] at h
  obtain ⟨bf₁, hb₁, heq⟩ := scanRecord_of_header (by omega) hlt h
  rw [← List.take_append_drop 4 (blk.serialize PROTOCOL_VERSION), List.append_assoc] at hb₁
  obtain ⟨bf₂, bf₃, h₂, h₃, hb₃⟩ := peek_four (by rw [List.length_take]; omega) hb₁
  rw [← List.append_assoc, List.take_append_drop] at hb₃
  obtain ⟨bf₄, h₄, hb₄⟩ :=
    extract_decodes (CBlock.reads_unserialize maxPiece_le_readMax (by decide) hv) hb₃
  refine ⟨bf₄, scanStep_of_record (CBufferedFile.Before.eof_eq_false h (by simp [netMagic])) ?_,
    hb₄⟩
  rw [heq, Action.bind_of_ok h₂, Action.bind_of_ok h₃, if_neg hmagic, Action.bind_of_ok h₄]
  rfl

/-! ## The padding -/

variable {index : CBlock → σ → Except ε σ} {s : σ}

theorem exits_of_eof (h : bf.eof = true) : Exits (scanLoop index) (bf, s) (.ok s) := by
  refine Exits.stop ?_
  rw [scanLoop, scanStep, if_pos h]

/-- A read past the end of the file is caught, and the next pass leaves. -/
theorem exits_of_throw {e : Failure} {bf' : CBufferedFile} (h : scanRecord bf = (.error e, bf'))
    (heof : bf'.eof = true) : Exits (scanLoop index) (bf, s) (.ok s) := by
  cases hbf : bf.eof with
  | true => exact exits_of_eof hbf
  | false =>
    refine Exits.step ?_ (exits_of_eof heof)
    rw [scanLoop, scanStep, hbf, h]
    rfl

/-- Zero bytes to the end of the file end the scan: eight of them read as a record of length 0,
fewer run into the end of the file. -/
theorem exits_padding {k : ℕ} (h : Before bf (List.replicate k 0)) :
    Exits (scanLoop index) (bf, s) (.ok s) := by
  by_cases h4 : k < 4
  · obtain ⟨bf₁, h₁, heof⟩ := extract_short (n := 4) (by decide) h (by simpa using h4)
    exact exits_of_throw (by rw [scanRecord, Action.bind_of_error h₁]) heof
  · obtain ⟨k, rfl⟩ : ∃ j, k = 4 + j := ⟨k - 4, by omega⟩
    rw [List.replicate_add] at h
    obtain ⟨bf₁, h₁, hb₁⟩ := extract_four (by simp) h
    by_cases h8 : k < 4
    · obtain ⟨bf₂, h₂, heof⟩ := extract_short (n := 4) (by decide) hb₁ (by simpa using h8)
      have hlen : extract (readLE 4) bf₁ = (.error .endOfFile, bf₂) := by
        rw [extract] at h₂ ⊢
        rw [readLE, Dialog.run_bind, h₂]
      have hrec : scanRecord bf = (.error .endOfFile, bf₂) := by
        rw [scanRecord, Action.bind_of_ok h₁, Action.bind_of_error hlen]
      exact exits_of_throw hrec heof
    · obtain ⟨k, rfl⟩ : ∃ j, k = 4 + j := ⟨k - 4, by omega⟩
      rw [List.replicate_add] at hb₁
      have hzero : Decodes readMax (readLE 4) (List.replicate 4 0) 0 :=
        reads_readLE (w := 4) (n := 0) (by norm_num) (by decide)
      obtain ⟨bf₂, h₂, -⟩ := extract_decodes hzero hb₁
      have hrecord : scanRecord bf = (.ok .leave, bf₂) := by
        rw [scanRecord, Action.bind_of_ok h₁, Action.bind_of_ok h₂, if_pos rfl]
        rfl
      refine Exits.stop ?_
      rw [scanLoop, scanStep_of_record (CBufferedFile.Before.eof_eq_false h (by simp)) hrecord]

/-! ## Whole files -/

theorem exits_of_before {items : List Item} (hf : Framed items) (k : ℕ)
    (h : Before bf (fileBytes items k)) :
    Exits (scanLoop index) (bf, s) ((blocks items).foldlM (fun s blk => index blk s) s) := by
  induction hf generalizing bf s with
  | nil => exact exits_padding h
  | full valid size_lt no_magic rest ih =>
    rw [fileBytes_cons] at h
    obtain ⟨bf', hstep, h'⟩ := scanStep_full valid size_lt no_magic h
    rw [blocks_full, List.foldlM_cons]
    rename_i blk items
    cases hindex : index blk s with
    | ok s' =>
      refine Exits.step (show scanLoop index (bf, s) = .inl (bf', s') from ?_) (ih h')
      rw [scanLoop, hstep]
      simp only [hindex]
    | error e =>
      refine Exits.stop ?_
      rw [scanLoop, hstep]
      simp only [hindex]
      rfl
  | headerOnly len_ne len_lt items_ne rest ih =>
    rename_i len items
    obtain ⟨i, items, rfl⟩ := List.exists_cons_of_ne_nil items_ne
    rw [fileBytes_cons, fileBytes_cons i] at h
    obtain ⟨bf', hstep, h'⟩ := scanStep_headerOnly len_ne len_lt h
    rw [← fileBytes_cons] at h'
    rw [blocks_headerOnly]
    refine Exits.step (show scanLoop index (bf, s) = .inl (bf', s) from ?_) (ih h')
    rw [scanLoop, hstep]

/-- **The scan loop is exact**: it hands the indexing step the blocks of the full records, in file
order, each once, and then leaves the file; an indexing step that gives up ends it there. -/
theorem scanLoop_exits {items : List Item} (hf : Framed items) (k : ℕ)
    (index : CBlock → σ → Except ε σ) (s : σ) :
    Exits (scanLoop index) (openBlockFile (fileBytes items k), s)
      ((blocks items).foldlM (fun s blk => index blk s) s) :=
  exits_of_before hf k (openBlockFile_before _)

/-! ### A small file -/

/-- A block whose only transaction pays 50 to each of the scripts. -/
def payTo (scripts : List Bytes) : CBlock where
  header := ⟨1, .zero, .zero, 0, 0x207fffff, 0⟩
  vtx := [⟨2, [⟨.null, [0x51], 0xffffffff, [List.replicate 32 0]⟩],
    scripts.map fun script => ⟨50, script⟩, 0⟩]

theorem payTo_valid {scripts : List Bytes} (hlen : scripts.length ≤ MAX_SIZE)
    (h : ∀ script ∈ scripts, script.length ≤ MAX_SIZE) : (payTo scripts).Valid where
  vtx_length := by simp [payTo, MAX_SIZE]
  tx := by
    simp only [payTo, List.mem_singleton, forall_eq]
    exact ⟨by simp [MAX_SIZE], by simpa using hlen, by simp [MAX_SIZE], by simpa using h,
      by simp [MAX_SIZE], by simp [MAX_SIZE]⟩
  vin_ne := by simp [payTo]

theorem payTo_framed {items : List Item} (h : Framed items) :
    Framed (.full (payTo [[0x51], [0x51]]) :: items) :=
  .full (payTo_valid (by decide) (by decide)) (by decide +kernel) (by decide +kernel) h

theorem scanLoop_exits_payTo :
    Exits (scanLoop (ε := Unit) fun blk log => .ok (log ++ [blk]))
      (openBlockFile (fileBytes [.headerOnly 7, .full (payTo [[0x51], [0x51]])] 3), [])
      (.ok [payTo [[0x51], [0x51]]]) :=
  scanLoop_exits (.headerOnly (by decide) (by decide) (by decide) (payTo_framed .nil)) 3 _ _

end ElectrumZ.Blockchain
