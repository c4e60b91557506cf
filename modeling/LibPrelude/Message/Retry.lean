import LibPrelude.Message.Emit

/-! # Retrying a write

A message is written again until the descriptor has taken all of it. The attempts share the write
index, but each of them may stamp the header anew, so that the bytes of the time come from the
attempt that writes them.
-/

namespace LibPrelude

open Bytes

/-- One attempt to write: the clock, and how many bytes the descriptor takes, or none when the
write would block. -/
structure Attempt where
  clock : Timeval
  accepts : Option ℕ

def Attempt.write (a : Attempt) (buf out : List UInt8) : Except ErrorCode ℕ × List UInt8 :=
  match a.accepts with
  | none => (.error .eagain, out)
  | some n => (.ok (buf.take n).length, out ++ buf.take n)

/-- Write until the message is written, with the write index held by the caller. -/
def retryR : List Attempt → Msg → UInt32 → List UInt8 →
    Option (Ret × Msg × UInt32 × List UInt8)
  | [], m, windex, out => some (.error .eagain, m, windex, out)
  | a :: as, m, windex, out => do
    match ← preludeMsgWriteR (fun out => (a.clock, out)) a.write m windex out with
    | (.ok (), m, windex, out) => some (.ok (), m, windex, out)
    | (.error _, m, windex, out) => retryR as m windex out

/-- Write until the message is written, with the write index in the message. -/
def retry : List Attempt → Msg → List UInt8 → Option (Ret × Msg × List UInt8)
  | [], m, out => some (.error .eagain, m, out)
  | a :: as, m, out => do
    match ← preludeMsgWrite (fun out => (a.clock, out)) a.write m out with
    | (.ok (), m, out) => some (.ok (), m, out)
    | (.error _, m, out) => retry as m out

namespace Msg

/-- The length of what is written: without the header behind a message that was ended. -/
def dlen (m : Msg) : UInt32 :=
  if m.headerIndex ≠ 0 ∧ m.hdr.isFragment = 0 then m.writeIndex - preludeMsgHdrSize
  else m.writeIndex

/-- A message with data, in a buffer that holds it. -/
structure Writable (m : Msg) : Prop where
  data : 16 < m.writeIndex.toNat
  ended : m.headerIndex ≠ 0 → m.hdr.isFragment = 0 → 32 < m.writeIndex.toNat
  payload : ∃ p, m.payload = some p ∧ m.dlen.toNat ≤ p.length

def header (m : Msg) (tv : Timeval) : Hdr where
  version := preludeMsgVersion
  tag := m.hdr.tag
  priority := m.hdr.priority
  isFragment := m.hdr.isFragment
  datalen := m.writeIndex - preludeMsgHdrSize
  tvSec := tv.tvSec
  tvUsec := tv.tvUsec

def bufferAt (m : Msg) (tv : Timeval) : List UInt8 :=
  if m.headerIndex = 0 then (m.header tv).bytes ++ (m.payload.getD []).drop 16
  else m.payload.getD []

def frameAt (m : Msg) (tv : Timeval) : List UInt8 := (m.bufferAt tv).take m.dlen.toNat

/-- A message after an attempt to write it. -/
def stampedAt (m : Msg) (tv : Timeval) : Msg :=
  if m.headerIndex = 0 then
    { m with
      hdr := { m.hdr with tvSec := htonl tv.tvSec, tvUsec := htonl tv.tvUsec }
      payload := some (m.bufferAt tv) }
  else m

variable {m : Msg} {tv tv' : Timeval}

theorem Holds.writable {body : List UInt8} (h : m.Holds body) : m.Writable := by
  obtain ⟨p, hp, hle, -, hshape⟩ := h.payload
  have hpos := List.length_pos_iff.mpr h.nonempty
  have h16 : preludeMsgHdrSize.toNat = 16 := rfl
  rcases hshape with ⟨hi, hw⟩ | ⟨hi, hfrag, hw, -⟩
  · refine ⟨by omega, fun hne => absurd hi hne, p, hp, ?_⟩
    rw [dlen, if_neg fun hended => hended.1 hi]
    omega
  · refine ⟨by omega, fun _ _ => by omega, p, hp, ?_⟩
    rw [dlen, if_pos ⟨hi, hfrag⟩, UInt32.toNat_sub_of_le _ _ (by
      rw [UInt32.le_iff_toNat_le, h16]; omega), h16]
    omega

theorem Writable.toNat_dlen (h : m.Writable) :
    16 < m.dlen.toNat ∧ m.dlen.toNat ≤ m.writeIndex.toNat := by
  have h16 : preludeMsgHdrSize.toNat = 16 := rfl
  have hdata := h.data
  rw [dlen]
  split_ifs with hended
  · have h32 := h.ended hended.1 hended.2
    rw [UInt32.toNat_sub_of_le _ _ (by rw [UInt32.le_iff_toNat_le, h16]; omega), h16]
    omega
  · omega

theorem Writable.length_bufferAt (h : m.Writable) (tv : Timeval) :
    ∃ p, m.payload = some p ∧ (m.bufferAt tv).length = p.length ∧
      m.dlen.toNat ≤ p.length := by
  obtain ⟨p, hp, hle⟩ := h.payload
  have hdlen := h.toNat_dlen
  refine ⟨p, hp, ?_, hle⟩
  rw [bufferAt, hp]
  split_ifs
  · simp
    omega
  · rfl

theorem Writable.length_frameAt (h : m.Writable) (tv : Timeval) :
    (m.frameAt tv).length = m.dlen.toNat := by
  obtain ⟨p, -, hlength, hle⟩ := h.length_bufferAt tv
  have hdlen := h.toNat_dlen
  rw [frameAt, List.length_take, hlength]
  omega

theorem stampedAt_dlen (m : Msg) (tv : Timeval) : (m.stampedAt tv).dlen = m.dlen := by
  by_cases hi : m.headerIndex = 0
  · simp only [stampedAt, if_pos hi, dlen]
  · rw [stampedAt, if_neg hi]

theorem stampedAt_fields (m : Msg) (tv : Timeval) :
    (m.stampedAt tv).headerIndex = m.headerIndex ∧ (m.stampedAt tv).writeIndex = m.writeIndex ∧
      (m.stampedAt tv).hdr.isFragment = m.hdr.isFragment := by
  by_cases hi : m.headerIndex = 0
  · simp only [stampedAt, if_pos hi, and_self]
  · simp only [stampedAt, if_neg hi, and_self]

theorem stampedAt_header (m : Msg) (tv tv' : Timeval) :
    (m.stampedAt tv).header tv' = m.header tv' := by
  by_cases hi : m.headerIndex = 0
  · simp only [stampedAt, if_pos hi, header]
  · rw [stampedAt, if_neg hi]

theorem stampedAt_bufferAt (m : Msg) (tv tv' : Timeval) :
    (m.stampedAt tv).bufferAt tv' = m.bufferAt tv' := by
  by_cases hi : m.headerIndex = 0
  · have hpayload : (m.stampedAt tv).payload = some (m.bufferAt tv) := by
      rw [stampedAt, if_pos hi]
    have hdrop : (m.bufferAt tv).drop 16 = (m.payload.getD []).drop 16 := by
      rw [bufferAt, if_pos hi, List.drop_left' (Hdr.length_bytes _)]
    rw [bufferAt, (m.stampedAt_fields tv).1, if_pos hi, stampedAt_header, hpayload,
      Option.getD_some, hdrop, bufferAt, if_pos hi]
  · rw [stampedAt, if_neg hi]

theorem stampedAt_frameAt (m : Msg) (tv tv' : Timeval) :
    (m.stampedAt tv).frameAt tv' = m.frameAt tv' := by
  rw [frameAt, frameAt, stampedAt_bufferAt, stampedAt_dlen]

theorem Writable.stampedAt_payload (h : m.Writable) (tv : Timeval) :
    (m.stampedAt tv).payload = some (m.bufferAt tv) := by
  by_cases hi : m.headerIndex = 0
  · rw [Msg.stampedAt, if_pos hi]
  · obtain ⟨p, hp, -⟩ := h.payload
    rw [Msg.stampedAt, if_neg hi, bufferAt, if_neg hi, hp]
    rfl

theorem Writable.stampedAt (h : m.Writable) (tv : Timeval) : (m.stampedAt tv).Writable := by
  obtain ⟨p, -, hlength, hle⟩ := h.length_bufferAt tv
  obtain ⟨hheader, hwrite, hfrag⟩ := m.stampedAt_fields tv
  refine ⟨hwrite ▸ h.data, fun hi hf => ?_, _, h.stampedAt_payload tv, ?_⟩
  · rw [hwrite]
    exact h.ended (hheader ▸ hi) (hfrag ▸ hf)
  · rw [stampedAt_dlen, hlength]
    exact hle

def timeBytes (tv : Timeval) : List UInt8 := beBytes 4 tv.tvSec.toNat ++ beBytes 4 tv.tvUsec.toNat

theorem getElem?_splice {front xs ys rest : List UInt8} (hfront : front.length = 8)
    (hxs : xs.length = 8) (hys : ys.length = 8) (i : ℕ) :
    (front ++ (xs ++ rest))[i]? = (front ++ (ys ++ rest))[i]? ↔
      (8 ≤ i → i < 16 → xs[i - 8]? = ys[i - 8]?) := by
  simp only [List.getElem?_append, hfront, hxs, hys]
  by_cases h8 : i < 8
  · simp only [if_pos h8, true_iff]
    omega
  by_cases h16 : i < 16
  · simp only [if_neg h8, if_pos (show i - 8 < 8 by omega)]
    exact ⟨fun h _ _ => h, fun h => h (by omega) h16⟩
  · simp only [if_neg h8, if_neg (show ¬ i - 8 < 8 by omega), true_iff]
    omega

theorem frameAt_getElem? (m : Msg) (tv tv' : Timeval) {i : ℕ} (hlt : i < m.dlen.toNat) :
    (m.frameAt tv)[i]? = (m.frameAt tv')[i]? ↔ m.headerIndex ≠ 0 ∨
      (8 ≤ i → i < 16 → (timeBytes tv)[i - 8]? = (timeBytes tv')[i - 8]?) := by
  by_cases hi : m.headerIndex = 0
  · have hsplit : ∀ tv, m.bufferAt tv = ([preludeMsgVersion, m.hdr.tag, m.hdr.priority,
        m.hdr.isFragment] ++ beBytes 4 (m.writeIndex - preludeMsgHdrSize).toNat) ++
          (timeBytes tv ++ (m.payload.getD []).drop 16) := by
      intro tv
      rw [bufferAt, if_pos hi, Hdr.bytes, header, timeBytes]
      simp only [List.append_assoc]
    rw [frameAt, frameAt, List.getElem?_take_of_lt hlt, List.getElem?_take_of_lt hlt, hsplit,
      hsplit, getElem?_splice (by simp) (by simp [timeBytes]) (by simp [timeBytes])]
    simp [hi]
  · simp [frameAt, bufferAt, hi]

theorem Writable.writeR_eq (h : m.Writable) (a : Attempt) {windex : UInt32}
    (hw : windex.toNat ≤ m.dlen.toNat) (out : List UInt8) :
    preludeMsgWriteR (fun out => (a.clock, out)) a.write m windex out =
      some (finishWrite (m.stampedAt a.clock) windex m.dlen
        (a.write ((m.frameAt a.clock).drop windex.toNat) out)) := by
  obtain ⟨p, hp, hlength, hle⟩ := h.length_bufferAt a.clock
  have hdlen := h.toNat_dlen
  have hne : m.writeIndex - preludeMsgHdrSize ≠ 0 := by
    have hdata := h.data
    have h16 : preludeMsgHdrSize.toNat = 16 := rfl
    rw [ne_eq, ← UInt32.toNat_inj, UInt32.toNat_sub_of_le _ _ (by
      rw [UInt32.le_iff_toNat_le, h16]; omega), h16]
    simp
    omega
  have hleft : (m.dlen - windex).toNat = m.dlen.toNat - windex.toNat :=
    UInt32.toNat_sub_of_le _ _ (UInt32.le_iff_toNat_le.mpr hw)
  have hload : load (m.bufferAt a.clock) windex.toNat (m.dlen - windex).toNat =
      some ((m.frameAt a.clock).drop windex.toNat) := by
    rw [hleft, load_eq_some (by omega), frameAt, List.drop_take]
  rw [dlen] at hload ⊢
  by_cases hi : m.headerIndex = 0
  · have hheader : writeMessageHeader (fun out => (a.clock, out)) m out =
        some (m.stampedAt a.clock, out) := by
      have hst : store p 0 (m.header a.clock).bytes =
          some ((m.header a.clock).bytes ++ p.drop 16) := by
        rw [store_eq_some (by simp; omega)]
        simp
      rw [Msg.stampedAt, if_pos hi, bufferAt, if_pos hi, hp, Option.getD_some]
      rw [header, Hdr.bytes] at hst ⊢
      simp only [writeMessageHeader, hp, hi, leBytes_htonl, UInt32.sub_zero, UInt32.toNat_zero,
        Option.bind_eq_bind, Option.bind_some, hst]
    simp only [preludeMsgWriteR, if_neg hne, if_pos hi, hheader, Option.bind_eq_bind,
      Option.bind_some, h.stampedAt_payload, hload]
  · have hpayload := h.stampedAt_payload a.clock
    rw [Msg.stampedAt, if_neg hi] at hpayload
    simp only [preludeMsgWriteR, if_neg hne, if_neg hi, Option.bind_eq_bind, Option.bind_some,
      hpayload, hload]
    rw [Msg.stampedAt, if_neg hi]

end Msg

/-- How many of the bytes that are left an attempt writes. -/
def Attempt.count (a : Attempt) (left : ℕ) : ℕ := min (a.accepts.getD 0) left

/-- The clock of the attempt that writes the first byte. -/
def firstClock (as : List Attempt) : Option Timeval :=
  (as.find? fun a => a.accepts.getD 0 ≠ 0).map (·.clock)

/-- Each byte of the time in the header is written at a time that has this byte, when writing goes
on at a position. -/
def TimeKept (first : Timeval) (dlen : ℕ) : List Attempt → ℕ → Prop
  | [], _ => True
  | a :: as, k =>
    (∀ i, k ≤ i → i < k + a.count (dlen - k) → 8 ≤ i → i < 16 →
      (Msg.timeBytes a.clock)[i - 8]? = (Msg.timeBytes first)[i - 8]?) ∧
    TimeKept first dlen as (k + a.count (dlen - k))

section

variable {m : Msg} {windex : UInt32} {a : Attempt} {as : List Attempt} {first : Timeval}
  {out : List UInt8}

theorem finishWrite_eq (m : Msg) {dlen : UInt32} {frame : List UInt8}
    (hframe : frame.length = dlen.toNat) (hw : windex.toNat < dlen.toNat) (out : List UInt8) :
    finishWrite m windex dlen (a.write (frame.drop windex.toNat) out) =
      if windex.toNat + a.count (dlen.toNat - windex.toNat) = dlen.toNat then
        (.ok (), m, 0, out ++ (frame.drop windex.toNat).take (a.count (dlen.toNat - windex.toNat)))
      else
        (.error .eagain, m, windex + UInt32.ofNat (a.count (dlen.toNat - windex.toNat)),
          out ++ (frame.drop windex.toNat).take (a.count (dlen.toNat - windex.toNat))) := by
  have hbound := dlen.toNat_lt
  cases ha : a.accepts with
  | none =>
    have hcount : a.count (dlen.toNat - windex.toNat) = 0 := by simp [Attempt.count, ha]
    simp [Attempt.write, ha, finishWrite, hcount, hw.ne]
  | some n =>
    have hlength : ((frame.drop windex.toNat).take n).length =
        a.count (dlen.toNat - windex.toNat) := by
      simp [Attempt.count, ha, hframe]
    have htake : (frame.drop windex.toNat).take n =
        (frame.drop windex.toNat).take (a.count (dlen.toNat - windex.toNat)) := by
      rw [Attempt.count, ha, Option.getD_some, ← hframe, ← List.length_drop,
        ← List.take_eq_take_min]
    have hle : a.count (dlen.toNat - windex.toNat) ≤ dlen.toNat - windex.toNat := min_le_right ..
    have hsum : (windex + UInt32.ofNat (a.count (dlen.toNat - windex.toNat))).toNat =
        windex.toNat + a.count (dlen.toNat - windex.toNat) := toNat_add_ofNat (by omega)
    simp only [Attempt.write, ha, finishWrite]
    rw [hlength, htake]
    simp only [← UInt32.toNat_inj, hsum]

/-- What an attempt writes is what the first one would have written just if the bytes of the time
that are among it are the same. -/
theorem piece_iff (m : Msg) (tv first : Timeval) {k n : ℕ} (hn : k + n ≤ m.dlen.toNat) :
    ((m.frameAt tv).drop k).take n = ((m.frameAt first).drop k).take n ↔ m.headerIndex ≠ 0 ∨
      ∀ i, k ≤ i → i < k + n → 8 ≤ i → i < 16 →
        (Msg.timeBytes tv)[i - 8]? = (Msg.timeBytes first)[i - 8]? := by
  have hbytes : ((m.frameAt tv).drop k).take n = ((m.frameAt first).drop k).take n ↔
      ∀ i, k ≤ i → i < k + n → (m.frameAt tv)[i]? = (m.frameAt first)[i]? := by
    constructor
    · intro h i hki hin
      have hi := congrArg (·[i - k]?) h
      simp only [List.getElem?_take, List.getElem?_drop, if_pos (show i - k < n by omega)] at hi
      rwa [show k + (i - k) = i by omega] at hi
    · intro h
      apply List.ext_getElem?
      intro i
      simp only [List.getElem?_take, List.getElem?_drop]
      split_ifs
      · exact h _ (by omega) (by omega)
      · rfl
  rw [hbytes]
  by_cases hi : m.headerIndex = 0
  · simp only [hi, ne_eq, not_true_eq_false, false_or]
    constructor
    · intro h i hki hin h8 h16
      have := (Msg.frameAt_getElem? m tv first (by omega)).mp (h i hki hin)
      simpa [hi] using this.resolve_left (by simp [hi]) h8 h16
    · intro h i hki hin
      exact (Msg.frameAt_getElem? m tv first (by omega)).mpr (.inr (h i hki hin))
  · refine iff_of_true (fun i hki hin => ?_) (.inl hi)
    exact (Msg.frameAt_getElem? m tv first (by omega)).mpr (.inl hi)

theorem Attempt.count_le (a : Attempt) (left : ℕ) : a.count left ≤ left := min_le_right ..

theorem timeKept_done (first : Timeval) (dlen : ℕ) (as : List Attempt) :
    TimeKept first dlen as dlen := by
  induction as with
  | nil => trivial
  | cons a as ih =>
    have hcount : a.count (dlen - dlen) = 0 := by
      have := a.count_le (dlen - dlen)
      omega
    rw [TimeKept, hcount]
    exact ⟨fun i hki hin => by omega, ih⟩

/-- What is written from a position on is the rest of the frame at a time just if the time is
kept. -/
theorem retryR_spec (h : m.Writable) (hw : windex.toNat < m.dlen.toNat) (first : Timeval)
    (out : List UInt8) :
    ∃ ret m' windex' rest, retryR as m windex out = some (ret, m', windex', out ++ rest) ∧
      (ret = .ok () → windex' = 0 ∧
        (rest = (m.frameAt first).drop windex.toNat ↔
          m.headerIndex ≠ 0 ∨ TimeKept first m.dlen.toNat as windex.toNat)) := by
  induction as generalizing m windex out with
  | nil =>
    refine ⟨.error .eagain, m, windex, [], by rw [retryR, List.append_nil], fun h => ?_⟩
    cases h
  | cons a as ih =>
    have hcount := a.count_le (m.dlen.toNat - windex.toNat)
    have hpiece := piece_iff m a.clock first
      (show windex.toNat + a.count (m.dlen.toNat - windex.toNat) ≤ m.dlen.toNat by omega)
    rw [retryR, h.writeR_eq a hw.le, finishWrite_eq _ (h.length_frameAt _) hw]
    simp only [Option.bind_eq_bind, Option.bind_some, TimeKept]
    by_cases hdone : windex.toNat + a.count (m.dlen.toNat - windex.toNat) = m.dlen.toNat
    · have hall : ((m.frameAt first).drop windex.toNat).take
          (a.count (m.dlen.toNat - windex.toNat)) = (m.frameAt first).drop windex.toNat := by
        rw [List.take_of_length_le]
        rw [List.length_drop, h.length_frameAt]
        omega
      rw [hall] at hpiece
      rw [if_pos hdone, hdone]
      refine ⟨_, _, _, _, rfl, fun _ => ⟨rfl, ?_⟩⟩
      rw [hpiece, hdone]
      simp [timeKept_done]
    · have hbound := m.dlen.toNat_lt
      have hnext : (windex + UInt32.ofNat (a.count (m.dlen.toNat - windex.toNat))).toNat =
          windex.toNat + a.count (m.dlen.toNat - windex.toNat) := toNat_add_ofNat (by omega)
      obtain ⟨ret, m', windex', rest, hretry, hspec⟩ := @ih (m.stampedAt a.clock)
        (windex + UInt32.ofNat (a.count (m.dlen.toNat - windex.toNat))) (h.stampedAt a.clock)
        (by rw [hnext, Msg.stampedAt_dlen]; omega)
        (out ++ ((m.frameAt a.clock).drop windex.toNat).take
          (a.count (m.dlen.toNat - windex.toNat)))
      rw [if_neg hdone]
      refine ⟨ret, m', windex', _, hretry.trans (by rw [List.append_assoc]), fun hok => ?_⟩
      obtain ⟨hzero, hiff⟩ := hspec hok
      rw [Msg.stampedAt_frameAt, (m.stampedAt_fields a.clock).1, Msg.stampedAt_dlen, hnext] at hiff
      refine ⟨hzero, ?_⟩
      have hlength := (h.length_frameAt a.clock).trans (h.length_frameAt first).symm
      generalize m.frameAt a.clock = piece at hpiece hlength
      generalize m.frameAt first = frame at hpiece hiff hlength
      rw [← List.take_append_drop (a.count (m.dlen.toNat - windex.toNat))
        (frame.drop windex.toNat), List.append_eq_append_iff_of_size_eq_left
          (by simp only [List.length_take, List.length_drop, hlength]), List.drop_drop, hpiece,
        hiff]
      exact or_and_left.symm

/-- Until the first byte is written the attempts change nothing that is written. -/
theorem retryR_first (h : m.Writable) (as : List Attempt) (out : List UInt8) :
    ∃ ret m' windex' rest, retryR as m 0 out = some (ret, m', windex', out ++ rest) ∧
      (ret = .ok () → windex' = 0 ∧ ∃ first, firstClock as = some first ∧
        (rest = m.frameAt first ↔ m.headerIndex ≠ 0 ∨ TimeKept first m.dlen.toNat as 0)) := by
  have hzero : (0 : UInt32).toNat < m.dlen.toNat := h.toNat_dlen.1.trans' (by decide)
  induction as generalizing m with
  | nil =>
    refine ⟨.error .eagain, m, 0, [], by rw [retryR, List.append_nil], fun h => ?_⟩
    cases h
  | cons a as ih =>
    by_cases ha : a.accepts.getD 0 = 0
    · have hcount : ∀ left, a.count left = 0 := fun left => by rw [Attempt.count, ha, Nat.zero_min]
      have hfirst : firstClock (a :: as) = firstClock as := by
        rw [firstClock, List.find?_cons_of_neg (by simpa using ha), ← firstClock]
      obtain ⟨ret, m', windex', rest, hretry, hspec⟩ := @ih (m.stampedAt a.clock)
        (h.stampedAt a.clock) (by rwa [Msg.stampedAt_dlen])
      have hstep : retryR (a :: as) m 0 out = retryR as (m.stampedAt a.clock) 0 out := by
        rw [retryR, h.writeR_eq a hzero.le, finishWrite_eq _ (h.length_frameAt _) hzero, hcount,
          if_neg (by omega), List.take_zero, List.append_nil]
        rfl
      refine ⟨ret, m', windex', rest, hstep.trans hretry, fun hok => ?_⟩
      obtain ⟨hdone, first, hclock, hiff⟩ := hspec hok
      refine ⟨hdone, first, hfirst.trans hclock, ?_⟩
      rw [Msg.stampedAt_frameAt, (m.stampedAt_fields a.clock).1, Msg.stampedAt_dlen] at hiff
      rw [hiff, TimeKept, hcount, Nat.add_zero]
      refine or_congr_right ⟨fun hkept => ⟨fun i _ hi => by omega, hkept⟩, fun hkept => hkept.2⟩
    · obtain ⟨ret, m', windex', rest, hretry, hspec⟩ :=
        @retryR_spec m 0 (a :: as) h hzero a.clock out
      refine ⟨ret, m', windex', rest, hretry, fun hok => ?_⟩
      obtain ⟨hdone, hiff⟩ := hspec hok
      refine ⟨hdone, a.clock, ?_, by simpa using hiff⟩
      rw [firstClock, List.find?_cons_of_pos (by simpa using ha)]
      rfl

theorem stampedAt_withIndex (m : Msg) (windex : UInt32) (tv : Timeval) :
    Msg.stampedAt { m with fdWriteIndex := windex } tv =
      { m.stampedAt tv with fdWriteIndex := windex } := by
  by_cases hi : m.headerIndex = 0
  · simp only [Msg.stampedAt, if_pos hi, Msg.bufferAt, Msg.header]
  · simp only [Msg.stampedAt, if_neg hi]

theorem retry_eq (h : m.Writable) (hw : windex.toNat < m.dlen.toNat) (as : List Attempt)
    (out : List UInt8) :
    retry as { m with fdWriteIndex := windex } out = (retryR as m windex out).map fun r =>
      (r.1, { r.2.1 with fdWriteIndex := r.2.2.1 }, r.2.2.2) := by
  induction as generalizing m windex out with
  | nil => rfl
  | cons a as ih =>
    have hwith : Msg.Writable { m with fdWriteIndex := windex } := ⟨h.data, h.ended, h.payload⟩
    have hdlen : Msg.dlen { m with fdWriteIndex := windex } = m.dlen := by simp only [Msg.dlen]
    have hframe : Msg.frameAt { m with fdWriteIndex := windex } a.clock = m.frameAt a.clock := by
      simp only [Msg.frameAt, Msg.bufferAt, Msg.header, hdlen]
    have hcount := a.count_le (m.dlen.toNat - windex.toNat)
    have hwrite := @Msg.Writable.writeR_eq { m with fdWriteIndex := windex } hwith a windex
      (by rw [hdlen]; exact hw.le) out
    rw [hdlen, hframe, finishWrite_eq _ (h.length_frameAt _) hw, stampedAt_withIndex] at hwrite
    rw [retry, preludeMsgWrite, retryR, hwrite, h.writeR_eq a hw.le,
      finishWrite_eq _ (h.length_frameAt _) hw]
    by_cases hdone : windex.toNat + a.count (m.dlen.toNat - windex.toNat) = m.dlen.toNat
    · rw [if_pos hdone, if_pos hdone]
      rfl
    · have hbound := m.dlen.toNat_lt
      have hnext : (windex + UInt32.ofNat (a.count (m.dlen.toNat - windex.toNat))).toNat =
          windex.toNat + a.count (m.dlen.toNat - windex.toNat) := toNat_add_ofNat (by omega)
      rw [if_neg hdone, if_neg hdone]
      exact ih (h.stampedAt a.clock) (by rw [hnext, Msg.stampedAt_dlen]; omega) _

end

/-- Retried until it is written, a message is written once and as it was when its first byte was
written, just if it was ended or each byte of the time in its header is the same as then when it
is written. -/
theorem retried_write_iff (m : Msg) (h : m.Writable) (as : List Attempt) (out : List UInt8) :
    (∃ ret m' windex' out', retryR as m 0 out = some (ret, m', windex', out') ∧
      (ret = .ok () → windex' = 0 ∧ ∃ first, firstClock as = some first ∧
        (out' = out ++ m.frameAt first ↔
          m.headerIndex ≠ 0 ∨ TimeKept first m.dlen.toNat as 0))) ∧
    ∃ ret m' out', retry as { m with fdWriteIndex := 0 } out = some (ret, m', out') ∧
      (ret = .ok () → m'.fdWriteIndex = 0 ∧ ∃ first, firstClock as = some first ∧
        (out' = out ++ m.frameAt first ↔
          m.headerIndex ≠ 0 ∨ TimeKept first m.dlen.toNat as 0)) := by
  obtain ⟨ret, m', windex', rest, hretry, hspec⟩ := retryR_first h as out
  have hsame : ∀ first, out ++ rest = out ++ m.frameAt first ↔ rest = m.frameAt first :=
    fun first => List.append_right_inj out
  constructor
  · refine ⟨ret, m', windex', out ++ rest, hretry, fun hok => ?_⟩
    obtain ⟨hdone, first, hclock, hiff⟩ := hspec hok
    exact ⟨hdone, first, hclock, (hsame first).trans hiff⟩
  · refine ⟨ret, { m' with fdWriteIndex := windex' }, out ++ rest, ?_, fun hok => ?_⟩
    · rw [@retry_eq m 0 h (h.toNat_dlen.1.trans' (by decide)), hretry]
      rfl
    · obtain ⟨hdone, first, hclock, hiff⟩ := hspec hok
      exact ⟨hdone, first, hclock, (hsame first).trans hiff⟩

def shortMsg : Msg where
  readIndex := 0
  headerIndex := 0
  writeIndex := 17
  fdWriteIndex := 0
  hdr := ⟨preludeMsgVersion, 3, 0, 0, 17, 0, 0⟩
  hdrbuf := List.replicate 16 0
  payload := some (List.replicate 16 0 ++ [97])

theorem shortMsg_writable : shortMsg.Writable :=
  ⟨by decide, fun h => absurd rfl h, _, rfl, by decide⟩

theorem retried_write_short :
    (∃ ret m' windex' out', retryR [⟨⟨1, 2⟩, none⟩, ⟨⟨1, 3⟩, some 20⟩] shortMsg 0 [] =
        some (ret, m', windex', out') ∧
      (ret = .ok () → windex' = 0 ∧
        ∃ first, firstClock [⟨⟨1, 2⟩, none⟩, ⟨⟨1, 3⟩, some 20⟩] = some first ∧
          (out' = [] ++ shortMsg.frameAt first ↔ shortMsg.headerIndex ≠ 0 ∨
            TimeKept first shortMsg.dlen.toNat [⟨⟨1, 2⟩, none⟩, ⟨⟨1, 3⟩, some 20⟩] 0))) ∧
    ∃ ret m' out', retry [⟨⟨1, 2⟩, none⟩, ⟨⟨1, 3⟩, some 20⟩]
        { shortMsg with fdWriteIndex := 0 } [] =
        some (ret, m', out') ∧
      (ret = .ok () → m'.fdWriteIndex = 0 ∧
        ∃ first, firstClock [⟨⟨1, 2⟩, none⟩, ⟨⟨1, 3⟩, some 20⟩] = some first ∧
          (out' = [] ++ shortMsg.frameAt first ↔ shortMsg.headerIndex ≠ 0 ∨
            TimeKept first shortMsg.dlen.toNat [⟨⟨1, 2⟩, none⟩, ⟨⟨1, 3⟩, some 20⟩] 0)) :=
  retried_write_iff shortMsg shortMsg_writable _ []

/-- After 15 bytes the microseconds of the second attempt follow those of the first. -/
theorem retried_write_torn :
    ¬ ∀ ret m' windex' out', retryR [⟨⟨1, 2⟩, some 15⟩, ⟨⟨1, 3⟩, some 20⟩] shortMsg 0 [] =
      some (ret, m', windex', out') → ret = .ok () → out' = shortMsg.frameAt ⟨1, 2⟩ := by
  intro h
  have hframe := h _ _ _ _ rfl rfl
  revert hframe
  decide

end LibPrelude
