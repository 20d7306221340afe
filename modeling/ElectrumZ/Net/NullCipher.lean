import ElectrumZ.Net.Transport

/-!
# The library without cryptography, on a queue

* `fetch_play`: what has been asked for is taken as far as it is there.
* `read_whole`, `read_part`: a record that waits is read, and a part of one is taken and kept.
-/

namespace ElectrumZ.Net.NullCipher

open Foundations

variable {env : Env} {q : Queue} {need times : ℕ} {arrived body rest : Bytes} {type : UInt8}

/-- The queue when so many bytes have been pulled. -/
def pull (q : Queue) (n : ℕ) : Queue :=
  { q with bytes := q.bytes.drop n, pulled := q.pulled ++ q.bytes.take n }

theorem fetch_of_le (h : need ≤ arrived.length) (times : ℕ) :
    fetch need times arrived = return (true, arrived) := by
  cases times with
  | zero => rw [fetch, decide_eq_true h]
  | succ times => rw [fetch, if_pos h]

theorem fetch_play_nil (h : ¬ need ≤ arrived.length) (hq : q.bytes = []) (times : ℕ) :
    (fetch need times arrived).play (queue env) q = ((false, arrived), q) := by
  cases times with
  | zero =>
    rw [fetch, decide_eq_false h]
    rfl
  | succ times =>
    rw [fetch, if_neg h, Dialog.play_ask, queue, if_pos hq]
    rfl

/-- What is asked for is taken as far as it is there. -/
theorem fetch_play (h : 0 < times) :
    (fetch need times arrived).play (queue env) q =
      ((decide (need ≤ arrived.length + q.bytes.length),
        arrived ++ q.bytes.take (need - arrived.length)), pull q (need - arrived.length)) := by
  obtain ⟨bytes, pulled, session⟩ := q
  by_cases henough : need ≤ arrived.length
  · have hzero : need - arrived.length = 0 := by omega
    rw [fetch_of_le henough, hzero, decide_eq_true (by simp only; omega), pull]
    simp [Dialog.play_done, pure]
  · by_cases hnil : bytes = []
    · subst hnil
      rw [fetch_play_nil henough rfl, decide_eq_false (by simpa using henough), pull]
      simp
    · obtain ⟨times, rfl⟩ : ∃ n, times = n + 1 := ⟨times - 1, by omega⟩
      rw [fetch, if_neg henough, Dialog.play_ask, queue, if_neg hnil]
      by_cases hall : need - arrived.length ≤ bytes.length
      · have hlen : need ≤ (arrived ++ bytes.take (need - arrived.length)).length := by
          rw [List.length_append, List.length_take]
          omega
        simp only
        rw [fetch_of_le hlen, decide_eq_true (by omega)]
        rfl
      · have hlen : ¬ need ≤ (arrived ++ bytes.take (need - arrived.length)).length := by
          rw [List.length_append, List.length_take]
          omega
        have hdrop : bytes.drop (need - arrived.length) = [] := by
          rw [List.drop_eq_nil_iff]
          omega
        simp only
        rw [fetch_play_nil hlen hdrop, decide_eq_false (by omega)]
        rfl

/-- The length in a header. -/
def bodyLength (header : Bytes) : ℕ := (header.getD 3 0).toNat * 256 + (header.getD 4 0).toNat

theorem bodyLength_record (type : UInt8) (h : body.length < 65536) (rest : Bytes) :
    bodyLength ((record type body ++ rest).take 5) = body.length := by
  simp [bodyLength, record, UInt8.toNat_ofNat']
  omega

theorem length_record : (record type body).length = 5 + body.length := by
  simp [record]
  omega

theorem nextRecord_play_short (h : q.bytes.length < 5) :
    ((nextRecord []).play (queue env) q).1 = (false, q.bytes) := by
  rw [nextRecord, Dialog.play_bind, fetch_play (by decide), decide_eq_false (by simpa using h)]
  simp [Dialog.play_done, pure, List.take_of_length_le h.le]

theorem nextRecord_play (h : 5 ≤ q.bytes.length) :
    ((nextRecord []).play (queue env) q).1 =
      (decide (5 + bodyLength (q.bytes.take 5) ≤ q.bytes.length),
        q.bytes.take (5 + bodyLength (q.bytes.take 5))) := by
  have htake : (q.bytes.take 5).length = 5 := by
    rw [List.length_take]
    omega
  rw [nextRecord, Dialog.play_bind, fetch_play (by decide), decide_eq_true (by simpa using h)]
  simp only [List.length_nil, Nat.sub_zero, List.nil_append, if_true, pull]
  rw [fetch_play (by omega), htake, List.length_drop, ← List.take_add, ← bodyLength,
    show 5 + (q.bytes.length - 5) = q.bytes.length by omega, ← Nat.add_sub_assoc (by omega),
    Nat.add_sub_cancel_left]

/-- A record that waits is read. -/
theorem read_whole (hbody : body.length < 65536) (hq : q.bytes = record type body ++ rest)
    (flights len : ℕ) :
    ((read ⟨flights, [], []⟩ len).play (queue env) q).1.1 = .ofData (body.take len) := by
  have hlen : bodyLength (q.bytes.take 5) = body.length := hq ▸ bodyLength_record type hbody rest
  have hfive : q.bytes.length = 5 + body.length + rest.length := by
    rw [hq, List.length_append, length_record]
  rw [read, if_pos rfl, Dialog.play_bind, nextRecord_play (by omega), hlen,
    decide_eq_true (by omega), hq, ← length_record, List.take_left]
  rfl

/-- So a server decrypts it. -/
theorem decrypt_record (env : Env) (srv : JsonRPCServer nullCipher) {waiting : Bytes}
    (hw : waiting = record type body ++ rest) (flights : ℕ) (hbody : body.length < 65536)
    (hlen : body.length ≤ srv.ssl_buf_len) :
    (decrypt env srv (⟨flights, [], []⟩ : Ctx) waiting).1.1 = .ofData body := by
  have hread : (decrypt env srv (⟨flights, [], []⟩ : Ctx) waiting).1.1 =
      .ofData (body.take (readLen srv.ssl_buf_len)) := read_whole hbody hw flights _
  rwa [List.take_of_length_le (hlen.trans (le_readLen _))] at hread

/-- A part of one is not enough. -/
theorem read_part (hbody : body.length < 65536) (hq : q.bytes <+: record type body)
    (hlt : q.bytes.length < (record type body).length) (flights len : ℕ) :
    ((read ⟨flights, [], []⟩ len).play (queue env) q).1.1 = .wantRead := by
  rw [read, if_pos rfl, Dialog.play_bind]
  by_cases h : q.bytes.length < 5
  · rw [nextRecord_play_short h]
    rfl
  · obtain ⟨later, hlater⟩ := hq
    have hlen : bodyLength (q.bytes.take 5) = body.length := by
      have htake : (record type body ++ []).take 5 = q.bytes.take 5 := by
        rw [List.append_nil, ← hlater, List.take_append_of_le_length (by omega)]
      rw [← htake, bodyLength_record type hbody]
    rw [length_record] at hlt
    rw [nextRecord_play (by omega), hlen, decide_eq_false (by omega)]
    rfl

end ElectrumZ.Net.NullCipher
