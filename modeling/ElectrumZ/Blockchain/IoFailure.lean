import ElectrumZ.Blockchain.Damage
import ElectrumZ.Blockchain.Worker

/-!
# Files that cannot be read

The loop over a file ends where `feof` holds, and a device that fails never says so: `Fill` throws,
the handler logs it, and the loop goes round again. A file that could not be opened is asked all the
same.

* `Cut.scanStep`: up to the failure the loop does what it does on a file that ends there.
* `scanStep_stalled`: then each round throws and changes nothing.
* `cut_loop`: so the loop leaves before it gets to the failure, or goes round for ever.
* `endsFile_iff`: a failure ends the file, and the worker goes on to the next with the records
  before it indexed, if and only if the file could be opened, the scan meets a record of length zero
  before the failure, and no block before it is given up.
-/

namespace ElectrumZ.Blockchain

open Foundations Bitcoin

/-! ## Up to the failure -/

/-- A file of which the device delivers the first bytes only. -/
def failingFile (readable lost : Bytes) : File := ⟨readable ++ lost, some readable.length, 0, false⟩

/-- `bf'` reads a sound file that ends where the device of `bf` fails. -/
def Cut (bf bf' : CBufferedFile) : Prop :=
  ∃ readable lost pos feof, bf.src = ⟨readable ++ lost, some readable.length, pos, false⟩ ∧
    pos ≤ readable.length ∧ bf' = { bf with src := ⟨readable, none, pos, feof⟩ }

variable {rest : Bytes} {bf bf' : CBufferedFile}

/-- Both deliver what is readable; the failing file does not notice the end. -/
theorem fread_cut {readable : Bytes} {pos : ℕ} (lost : Bytes) (feof : Bool)
    (h : pos ≤ readable.length) (n : ℕ) :
    (⟨readable ++ lost, some readable.length, pos, false⟩ : File).fread n =
        ((readable.drop pos).take n, ⟨readable ++ lost, some readable.length,
          pos + ((readable.drop pos).take n).length, false⟩) ∧
      (⟨readable, none, pos, feof⟩ : File).fread n =
        ((readable.drop pos).take n, ⟨readable, none,
          pos + ((readable.drop pos).take n).length,
          feof || decide (((readable.drop pos).take n).length < n)⟩) := by
  refine ⟨?_, rfl⟩
  have htake : ((readable ++ lost).drop pos).take (min n (readable.length - pos)) =
      (readable.drop pos).take n := by
    rw [List.drop_append_of_le_length h,
      List.take_append_of_le_length (by rw [List.length_drop]; omega), ← List.length_drop]
    exact List.take_eq_take_min.symm
  have hlen : ¬ ((readable.drop pos).take n).length < min n (readable.length - pos) := by
    rw [List.length_take, List.length_drop]
    omega
  simp only [File.fread, htake, hlen, decide_false, Bool.or_self]

namespace Cut

theorem fill (h : Cut bf bf') : bf.fill.1.toOption = bf'.fill.1.toOption ∧
    Cut bf.fill.2 bf'.fill.2 := by
  obtain ⟨readable, lost, pos, feof, hsrc, hpos, rfl⟩ := h
  have hlen (n : ℕ) : pos + ((readable.drop pos).take n).length ≤ readable.length := by
    rw [List.length_take, List.length_drop]
    omega
  simp only [CBufferedFile.fill, hsrc]
  set readNow := min (bf.bufSize - bf.nSrcPos % bf.bufSize)
    (((bf.bufSize : ℤ) - (bf.nSrcPos - bf.nReadPos) - bf.nRewind) % 2 ^ 32).toNat
  obtain ⟨hfailing, hsound⟩ := fread_cut lost feof hpos readNow
  rw [hfailing, hsound]
  by_cases hzero : readNow = 0
  · rw [if_pos hzero, if_pos hzero]
    exact ⟨rfl, readable, lost, pos, feof, hsrc, hpos, rfl⟩
  rw [if_neg hzero, if_neg hzero]
  by_cases hnil : (readable.drop pos).take readNow = []
  · rw [if_pos hnil, if_pos hnil]
    exact ⟨rfl, readable, lost, _, _, rfl, hlen readNow, rfl⟩
  · rw [if_neg hnil, if_neg hnil]
    exact ⟨rfl, readable, lost, _, _, rfl, hlen readNow, rfl⟩

theorem refill (h : Cut bf bf') : bf.refill.1.toOption = bf'.refill.1.toOption ∧
    Cut bf.refill.2 bf'.refill.2 := by
  have hfill := h.fill
  rw [CBufferedFile.refill, CBufferedFile.refill]
  have hsame : (bf'.nReadPos = bf'.nSrcPos) = (bf.nReadPos = bf.nSrcPos) := by
    obtain ⟨-, -, -, -, -, -, rfl⟩ := h
    rfl
  by_cases heq : bf.nReadPos = bf.nSrcPos
  · rw [if_pos heq, if_pos (hsame ▸ heq)]
    exact hfill
  · rw [if_neg heq, if_neg (hsame ▸ heq)]
    exact ⟨rfl, h⟩

theorem copyNow (h : Cut bf bf') (nSize : ℕ) : bf'.nNow nSize = bf.nNow nSize ∧
    (bf'.copyNow nSize).1 = (bf.copyNow nSize).1 ∧
      Cut (bf.copyNow nSize).2 (bf'.copyNow nSize).2 := by
  obtain ⟨readable, lost, pos, feof, hsrc, hpos, rfl⟩ := h
  exact ⟨rfl, rfl, readable, lost, pos, feof, hsrc, hpos, rfl⟩

theorem readLoop (h : Cut bf bf') (nSize : ℕ) :
    (bf.readLoop nSize).1.toOption = (bf'.readLoop nSize).1.toOption ∧
      Cut (bf.readLoop nSize).2 (bf'.readLoop nSize).2 := by
  induction nSize using Nat.strong_induction_on generalizing bf bf' with
  | _ nSize ih =>
    by_cases h0 : nSize = 0
    · rw [h0, CBufferedFile.readLoop_zero, CBufferedFile.readLoop_zero]
      exact ⟨rfl, h⟩
    obtain ⟨h₁, h₂⟩ := h.refill
    rcases heq : bf.refill with ⟨e | filled, bf₁⟩ <;>
      rcases heq' : bf'.refill with ⟨e' | filled', bf₁'⟩ <;> rw [heq, heq'] at h₁ h₂
    · rw [CBufferedFile.readLoop_of_error h0 heq, CBufferedFile.readLoop_of_error h0 heq']
      exact ⟨rfl, h₂⟩
    · exact nomatch h₁
    · exact nomatch h₁
    · obtain ⟨hnow, hbytes, hcopy⟩ := Cut.copyNow h₂ nSize
      have hpos := CBufferedFile.nNow_pos (CBufferedFile.lt_of_refill heq) h0
      obtain ⟨h₃, h₄⟩ := ih (nSize - bf₁.nNow nSize) (by omega) hcopy
      rw [CBufferedFile.readLoop_of_ok h0 heq, CBufferedFile.readLoop_of_ok h0 heq', hnow, hbytes]
      rcases hs : (bf₁.copyNow nSize).2.readLoop (nSize - bf₁.nNow nSize) with ⟨e | more, bf₂⟩ <;>
        rcases ht : (bf₁'.copyNow nSize).2.readLoop (nSize - bf₁.nNow nSize) with
          ⟨e' | more', bf₂'⟩ <;> rw [hs, ht] at h₃ h₄
      · exact ⟨rfl, h₄⟩
      · exact nomatch h₃
      · exact nomatch h₃
      · obtain rfl := Option.some.inj h₃
        exact ⟨rfl, h₄⟩

theorem read (h : Cut bf bf') (nSize : ℕ) :
    (bf.read nSize).1.toOption = (bf'.read nSize).1.toOption ∧
      Cut (bf.read nSize).2 (bf'.read nSize).2 := by
  have hloop := h.readLoop nSize
  have hlimit : bf'.nReadLimit = bf.nReadLimit ∧ bf'.nReadPos = bf.nReadPos ∧
      bf'.bufSize = bf.bufSize ∧ bf'.nRewind = bf.nRewind := by
    obtain ⟨-, -, -, -, -, -, rfl⟩ := h
    exact ⟨rfl, rfl, rfl, rfl⟩
  obtain ⟨h₁, h₂, h₃, h₄⟩ := hlimit
  rw [CBufferedFile.read, CBufferedFile.read, h₁, h₂, h₃, h₄]
  split_ifs
  · exact ⟨rfl, h⟩
  · exact ⟨rfl, h⟩
  · exact hloop

end Cut

theorem respects_extract {α : Type} (d : Decoder α) : Action.Respects Cut (extract d) :=
  fun _ _ h => d.run_respects Cut (fun n _ _ h => h.read n) h

theorem respects_rewind (n : ℕ) : Action.Respects Cut (rewind n) := by
  rintro bf bf' ⟨readable, lost, pos, feof, hsrc, hpos, rfl⟩
  exact ⟨rfl, readable, lost, pos, feof, hsrc, hpos, rfl⟩

/-- A record is read alike, up to what is thrown. -/
theorem respects_scanRecord : Action.Respects Cut scanRecord := by
  refine (respects_extract _).bind fun net_magic => (respects_extract _).bind fun len => ?_
  refine Action.respects_ite (Action.respects_pure _)
    (Action.respects_ite (Action.respects_pure _) ?_)
  refine (respects_extract _).bind fun net_magic => (respects_rewind 4).bind fun _ => ?_
  exact Action.respects_ite (Action.respects_pure _)
    ((respects_extract _).bind fun _ => Action.respects_pure _)

theorem Cut.eof (h : Cut bf bf') : bf.eof = false := by
  obtain ⟨readable, lost, pos, feof, hsrc, -, -⟩ := h
  rw [CBufferedFile.eof, hsrc, Bool.and_false]

/-- **Up to the end of the cut file a pass is the same.** -/
theorem Cut.scanStep (h : Cut bf bf') (heof : bf'.eof = false) :
    (scanStep bf).1 = (scanStep bf').1 ∧ Cut (scanStep bf).2 (scanStep bf').2 := by
  obtain ⟨h₁, h₂⟩ := respects_scanRecord bf bf' h
  rw [scanStep_eq_caught h.eof, scanStep_eq_caught heof]
  rcases hs : scanRecord bf with ⟨e | scan, bf₁⟩ <;>
    rcases ht : scanRecord bf' with ⟨e' | scan', bf₁'⟩ <;> rw [hs, ht] at h₁ h₂
  · exact ⟨rfl, h₂⟩
  · exact nomatch h₁
  · exact nomatch h₁
  · exact ⟨Option.some.inj h₁, h₂⟩

/-! ## At the failure -/

/-- Everything that is readable has been read. -/
structure Stalled (bf : CBufferedFile) : Prop where
  readPos_eq : bf.nReadPos = bf.nSrcPos
  src_eq : ∃ readable lost,
    bf.src = ⟨readable ++ lost, some readable.length, readable.length, false⟩
  noLimit : bf.nReadLimit = 2 ^ 64 - 1
  size_le : 4 + bf.nRewind ≤ bf.bufSize

theorem stalled_of_cut (h : Cut bf bf') (hbefore : Before bf' []) : Stalled bf := by
  obtain ⟨readable, lost, pos, feof, hsrc, hpos, rfl⟩ := h
  obtain ⟨before, hholds⟩ := hbefore
  have hlen := hholds.length_rest
  have hle := bf.read_le
  have hsrcle := hholds.src_le
  have hsize := hholds.size_eq
  have hrewind := hholds.rewind_eq
  have hposeq := hholds.pos_eq
  simp only [List.length_nil] at hlen hsrcle hsize hrewind hposeq
  have hread : 4 ≤ readMax := by decide
  refine ⟨by omega, ⟨readable, lost, ?_⟩, hholds.noLimit, by omega⟩
  rw [hsrc, show pos = readable.length by omega]

/-- Then a read throws, and not because of the end of the file. -/
theorem Stalled.read (h : Stalled bf) : bf.read 4 = (.error .freadFailed, bf) := by
  obtain ⟨heq, ⟨readable, lost, hsrc⟩, hlimit, hsize⟩ := h
  obtain ⟨hmin, hpos⟩ := CBufferedFile.fill_ne_false heq
  have hfread (n : ℕ) : bf.src.fread n = ([], bf.src) := by
    rw [hsrc, (fread_cut lost false (le_refl readable.length) n).1, List.drop_length, List.take_nil]
    rfl
  have hrefill : bf.refill = (.error .freadFailed, bf) := by
    have hfeof : bf.src.feof = false := by rw [hsrc]
    simp only [CBufferedFile.refill, if_pos heq, CBufferedFile.fill, hmin, Nat.ne_of_gt hpos,
      if_false, hfread, hfeof, if_true, Bool.false_eq_true]
  rw [CBufferedFile.read, if_neg (by omega), if_neg (by omega),
    CBufferedFile.readLoop_of_error (by decide) hrefill]

/-- **A pass on a stalled file goes on and changes nothing.** -/
theorem scanStep_stalled (h : Stalled bf) : scanStep bf = (.again, bf) := by
  have heof : bf.eof = false := by
    obtain ⟨readable, lost, hsrc⟩ := h.src_eq
    rw [CBufferedFile.eof, hsrc, Bool.and_false]
  have hextract : extract (Dialog.query 4) bf = (.error .freadFailed, bf) := by
    rw [extract, Dialog.run_query, h.read]
  rw [scanStep_eq_caught heof, scanRecord, Action.bind_of_error hextract]
  rfl

/-! ## The loop -/

/-- The scan gets to a record of length zero. -/
inductive Stops : Bytes → Prop
  | zero {net_magic lenb rest : Bytes} (magic_length : net_magic.length = 4)
    (len_length : lenb.length = 4) (len_eq : ofLeBytes lenb = 0) :
    Stops (net_magic ++ (lenb ++ rest))
  | skips {rest rest' : Bytes} (skips : Skips rest rest') (stops : Stops rest') : Stops rest
  | finds {rest rest' : Bytes} {blk : CBlock} (finds : Finds rest blk rest') (stops : Stops rest') :
    Stops rest

theorem scanPass_zero {net_magic lenb : Bytes} (hmagic : net_magic.length = 4)
    (hlenb : lenb.length = 4) (hlen : ofLeBytes lenb = 0) (rest : Bytes) :
    scanPass (net_magic ++ (lenb ++ rest)) = (.leave, rest) := by
  rw [scanPass_header hmagic hlenb, passRecord, if_pos hlen]

/-- A pass leaves at such a record only. -/
theorem stops_of_leave (h : (scanPass rest).1 = .leave) : Stops rest := by
  by_cases h8 : rest.length < 8
  · rw [scanPass, if_pos h8] at h
    cases h
  obtain ⟨net_magic, lenb, rest', hmagic, hlenb, rfl⟩ := exists_header h8
  refine .zero hmagic hlenb ?_
  rw [scanPass_header hmagic hlenb, passRecord] at h
  by_contra hlen
  rw [if_neg hlen] at h
  split_ifs at h
  rcases hdecode : decode (CBlock.unserialize PROTOCOL_VERSION) rest' with ⟨e | blk, rest''⟩ <;>
    rw [hdecode] at h <;> cases h

/-- Otherwise the scan goes on. -/
theorem stops_iff_of_pass {rest' : Bytes} {scan : Scan} (h : scanPass rest = (scan, rest'))
    (hscan : scan ≠ .leave) (hne : rest ≠ []) : Stops rest ↔ Stops rest' := by
  constructor
  · intro hstops
    cases hstops with
    | zero hmagic hlenb hlen =>
      rw [scanPass_zero hmagic hlenb hlen] at h
      exact absurd (Prod.mk.inj h).1.symm hscan
    | skips hskips hstops =>
      obtain rfl := (Prod.mk.inj (hskips.pass.2.symm.trans h)).2
      exact hstops
    | finds hfinds hstops =>
      obtain rfl := (Prod.mk.inj (hfinds.pass.2.symm.trans h)).2
      exact hstops
  · intro hstops
    cases scan with
    | leave => exact absurd rfl hscan
    | again => exact .skips (skips_iff.mpr ⟨hne, h⟩) hstops
    | block blk => exact .finds (finds_iff.mpr ⟨hne, h⟩) hstops

theorem not_stops_nil : ¬ Stops [] := by
  generalize hnil : ([] : Bytes) = rest
  intro h
  cases h with
  | zero hmagic =>
    have hne := List.ne_nil_of_length_eq_add_one hmagic
    exact hne (List.append_eq_nil_iff.mp hnil.symm).1
  | skips h => exact h.pass.1 hnil.symm
  | finds h => exact h.pass.1 hnil.symm

variable {σ ε : Type} {index : CBlock → σ → Except ε σ} {s : σ}

/-- The loop leaves before the failure: at a record of length zero, or with a block that is given
up. -/
def LeavesEarly (index : CBlock → σ → Except ε σ) (rest : Bytes) (s : σ) : Prop :=
  Stops rest ∨ ∃ e, indexAll index (found rest) s = .error e

/-- **The loop over a file that fails** leaves early, or goes round for ever. -/
theorem cut_loop (h : Cut bf bf') (hbefore : Before bf' rest) :
    (LeavesEarly index rest s →
      Exits (scanLoop index) (bf, s) (indexAll index (found rest) s)) ∧
    (¬ LeavesEarly index rest s → Diverges (scanLoop index) (bf, s)) := by
  induction hlen : rest.length using Nat.strong_induction_on generalizing bf bf' rest s with
  | _ n ih =>
    by_cases hne : rest = []
    · -- everything has been read
      subst hne
      have hloop : scanLoop index (bf, s) = .inl (bf, s) := by
        rw [scanLoop, scanStep_stalled (stalled_of_cut h hbefore)]
      refine ⟨fun hearly => ?_, fun _ => diverges_of_fixed hloop⟩
      obtain hstops | ⟨e, he⟩ := hearly
      · exact absurd hstops not_stops_nil
      · rw [found_nil] at he
        cases he
    have heof := CBufferedFile.Before.eof_eq_false hbefore hne
    obtain ⟨bf₁', hstep', hbefore', -⟩ := scanStep_pass hbefore heof
    obtain ⟨hscan, hcut⟩ := h.scanStep heof
    rcases hstep : scanStep bf with ⟨scan, bf₁⟩
    rw [hstep, hstep'] at hscan hcut
    simp only at hscan hcut
    have hpass := length_scanPass rest
    have hpos := List.length_pos_of_ne_nil hne
    have hrest (s : σ) := ih (s := s) _ (by omega) hcut hbefore' rfl
    have hstops (hgo : (scanPass rest).1 ≠ .leave) : Stops rest ↔ Stops (scanPass rest).2 :=
      stops_iff_of_pass rfl hgo hne
    cases hgo : (scanPass rest).1 with
    | leave =>
      have hloop : scanLoop index (bf, s) = .inr (.ok s) := by
        rw [scanLoop, hstep, hscan, hgo]
      rw [found_of_leave hgo]
      refine ⟨fun _ => .stop hloop, fun hearly => ?_⟩
      exact absurd (.inl (stops_of_leave hgo)) hearly
    | again =>
      have hloop : scanLoop index (bf, s) = .inl (bf₁, s) := by
        rw [scanLoop, hstep, hscan, hgo]
      have hearly : LeavesEarly index rest s ↔ LeavesEarly index (scanPass rest).2 s := by
        rw [LeavesEarly, LeavesEarly, hstops (by simp [hgo]), found_of_again hne hgo]
      rw [hearly, found_of_again hne hgo]
      exact ⟨fun hleave => .step hloop ((hrest s).1 hleave),
        fun hstay => .step hloop ((hrest s).2 hstay)⟩
    | block blk =>
      have hstop := hstops (by simp [hgo])
      cases hindex : index blk s with
      | ok s' =>
        have hloop : scanLoop index (bf, s) = .inl (bf₁, s') := by
          rw [scanLoop, hstep, hscan, hgo]
          simp only [hindex]
        have hall : indexAll index (found rest) s =
            indexAll index (found (scanPass rest).2) s' := by
          rw [found_of_block hne hgo, indexAll, List.foldlM_cons, hindex]
          rfl
        have hearly : LeavesEarly index rest s ↔ LeavesEarly index (scanPass rest).2 s' := by
          rw [LeavesEarly, LeavesEarly, hstop, hall]
        rw [hearly, hall]
        exact ⟨fun hleave => .step hloop ((hrest s').1 hleave),
          fun hstay => .step hloop ((hrest s').2 hstay)⟩
      | error e =>
        have hloop : scanLoop index (bf, s) = .inr (.error e) := by
          rw [scanLoop, hstep, hscan, hgo]
          simp only [hindex]
        have hall : indexAll index (found rest) s = .error e := by
          rw [found_of_block hne hgo, indexAll, List.foldlM_cons, hindex]
          rfl
        rw [hall]
        exact ⟨fun _ => .stop hloop, fun hearly => absurd (.inr ⟨e, hall⟩) hearly⟩

/-! ## The worker -/

/-- How a worker ends before it is through: a null `FILE` is used, or a block is given up. -/
inductive Halt (ε : Type)
  | null
  | gaveUp (e : ε)

/-- The buffer of the loop, over what `fopen` has returned. -/
def bufferFile (bf_p : File) : CBufferedFile :=
  CBufferedFile.ofFile bf_p PRELOAD_BUFFER_SIZE 4 four_lt_bufferSize bufferSize_lt

/-- The loop over one file. Its first test asks `feof` of whatever `fopen` has returned. -/
def loadOpened (index : CBlock → σ → Except ε σ) (rounds : ℕ) :
    Option File → σ → Option (Except (Halt ε) σ)
  | none, _ => some (.error .null)
  | some bf_p, s => (loop (scanLoop index) rounds (bufferFile bf_p, s)).map (.mapError .gaveUp)

/-- One file after another. -/
def loadAllOpened (index : CBlock → σ → Except ε σ) (rounds : ℕ) :
    List (Option File) → σ → Option (Except (Halt ε) σ)
  | [], s => some (.ok s)
  | bf_p :: blks, s =>
    match loadOpened index rounds bf_p s with
    | some (.ok s) => loadAllOpened index rounds blks s
    | r => r

/-- **Over sound files this is the worker of the preload.** -/
theorem loadAllOpened_sound {env : Dialog.Handler Call (fun _ => Reply) Stop σ}
    {sha256 : Bytes → UInt256} (retries rounds mode : ℕ) (blks : List Bytes) (s : σ) :
    loadAllOpened (loadBlock env sha256 retries mode) rounds
        (blks.map fun content => some (.fopen content)) s =
      (preloadFunc env sha256 retries rounds mode blks s).map (.mapError .gaveUp) := by
  induction blks generalizing s with
  | nil => rfl
  | cons content blks ih =>
    have hfile : loadOpened (loadBlock env sha256 retries mode) rounds (some (.fopen content)) s =
      (preloadFile env sha256 retries rounds mode content s).map (.mapError .gaveUp) := rfl
    rw [List.map_cons, loadAllOpened, preloadFunc, hfile]
    rcases preloadFile env sha256 retries rounds mode content s with _ | e | s'
    · rfl
    · rfl
    · exact ih s'

/-- A file that cannot be read to its end: `fopen` returns null, or `fread` fails from some point
on. -/
inductive BadFile
  | missing
  | failing (readable lost : Bytes)

namespace BadFile

/-- What `fopen` returns. -/
def opened : BadFile → Option File
  | missing => none
  | failing readable lost => some (failingFile readable lost)

/-- The bytes before the failure. -/
def readable : BadFile → Bytes
  | missing => []
  | failing readable _ => readable

end BadFile

/-- The failure ends the file: after finitely many rounds the worker has indexed exactly the records
found before it, and goes on to the next file. -/
def EndsFile (index : CBlock → σ → Except ε σ) (f : BadFile) (s : σ) : Prop :=
  ∃ s', indexAll index (found f.readable) s = .ok s' ∧ ∃ n, ∀ rounds, n ≤ rounds → ∀ blks,
    loadAllOpened index rounds (f.opened :: blks) s = loadAllOpened index rounds blks s'

theorem cut_bufferFile (readable lost : Bytes) :
    Cut (bufferFile (failingFile readable lost)) (openBlockFile readable) :=
  ⟨readable, lost, 0, false, rfl, Nat.zero_le _, rfl⟩

/-- A loop that meets no record of length zero goes round for ever, unless a block is given up; the
file does not end in either case. -/
theorem stops_of_endsFile {readable lost : Bytes}
    (h : EndsFile index (.failing readable lost) s) : Stops readable := by
  obtain ⟨s', hall, n, hn⟩ := h
  by_contra hstops
  have hearly : ¬ LeavesEarly index readable s := by
    rintro (hstops' | ⟨e, he⟩)
    · exact hstops hstops'
    · exact nomatch he.symm.trans hall
  have hdiverges := (cut_loop (cut_bufferFile readable lost) (openBlockFile_before readable)).2
    hearly
  have hnone : loadOpened index n (BadFile.failing readable lost).opened s = none := by
    simp only [BadFile.opened, loadOpened, hdiverges n, Option.map_none]
  have hrun : loadAllOpened index n [(BadFile.failing readable lost).opened] s = some (.ok s') :=
    hn n (le_refl n) []
  rw [loadAllOpened, hnone] at hrun
  cases hrun

/-- **An I/O failure and the worker.** The worker ends the file at the failure, with the records
before it indexed, and goes on to the next one, if and only if `fopen` has returned a file, the scan
meets a record of length zero before the failure, and no block found before it is given up. -/
theorem endsFile_iff (index : CBlock → σ → Except ε σ) (f : BadFile) (s : σ) :
    EndsFile index f s ↔ ∃ readable lost, f = .failing readable lost ∧ Stops readable ∧
      ∃ s', indexAll index (found readable) s = .ok s' := by
  constructor
  · intro h
    cases f with
    | missing =>
      -- the null `FILE` is used
      obtain ⟨s', -, n, hn⟩ := h
      have hrun : some (Except.error Halt.null) = some (Except.ok s') := hn n (le_refl n) []
      cases hrun
    | failing readable lost =>
      obtain ⟨s', hall, -⟩ := id h
      exact ⟨readable, lost, rfl, stops_of_endsFile h, s', hall⟩
  · rintro ⟨readable, lost, rfl, hstops, s', hall⟩
    have hexits := (cut_loop (cut_bufferFile readable lost) (openBlockFile_before readable)).1
      (.inl hstops : LeavesEarly index readable s)
    obtain ⟨n, hn⟩ := hexits.eventually
    refine ⟨s', hall, n, fun rounds hle blks => ?_⟩
    rw [loadAllOpened]
    simp only [BadFile.opened, loadOpened, hn rounds hle, hall, Option.map_some]
    rfl

/-- A device that fails at once, over a list of the blocks. -/
theorem not_endsFile : ¬ ∀ (f : BadFile) (s : List CBlock),
    EndsFile (ε := Unit) (fun blk s => .ok (s ++ [blk])) f s :=
  fun h => not_stops_nil (stops_of_endsFile (h (.failing [] [0]) []))

end ElectrumZ.Blockchain
