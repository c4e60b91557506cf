import LibPrelude.Message.Frames
import LibPrelude.Message.Write

/-! # Emitting a frame

A message object that holds data is written as one frame, over any number of
short writes. Each of them may stamp the header with a new time, so the bytes on
the wire are those of a header that differs in the time only.
-/

namespace LibPrelude

open Bytes

/-- A header that describes data of a given length, whatever the time. -/
structure Hdr.Describes (h g : Hdr) (n : ℕ) : Prop where
  version : h.version = preludeMsgVersion
  tag : h.tag = g.tag
  priority : h.priority = g.priority
  isFragment : h.isFragment = g.isFragment
  datalen : h.datalen.toNat = n

theorem Hdr.describes_iff_take {h h' g : Hdr} {n : ℕ} (hd : h.Describes g n) :
    h'.Describes g n ↔ h'.bytes.take 8 = h.bytes.take 8 := by
  have take8 (x : Hdr) : x.bytes.take 8 =
      [x.version, x.tag, x.priority, x.isFragment] ++ beBytes 4 x.datalen.toNat := by
    rw [Hdr.bytes, List.append_assoc, List.take_left' (by simp)]
  rw [take8, take8]
  constructor
  · intro hd'
    rw [hd'.version, hd'.tag, hd'.priority, hd'.isFragment, hd'.datalen, hd.version, hd.tag,
      hd.priority, hd.isFragment, hd.datalen]
  · intro heq
    obtain ⟨h₁, h₂⟩ := List.append_inj heq rfl
    simp only [List.cons.injEq, and_true] at h₁
    obtain ⟨hv, ht, hp, hf⟩ := h₁
    have hlt : h.datalen.toNat < 256 ^ 4 := h.datalen.toNat_lt
    have hlt' : h'.datalen.toNat < 256 ^ 4 := h'.datalen.toNat_lt
    have hn := congrArg ofBe h₂
    rw [ofBe_beBytes_of_lt hlt, ofBe_beBytes_of_lt hlt'] at hn
    exact ⟨hv.trans hd.version, ht.trans hd.tag, hp.trans hd.priority,
      hf.trans hd.isFragment, hn.trans hd.datalen⟩

theorem take_splice {a b : List UInt8} {k n : ℕ} (hk : k ≤ a.length) (h : b.take n = a.take n) :
    (a.take k ++ b.drop k).take n = a.take n := by
  rw [List.take_append, List.length_take_of_le hk]
  by_cases hn : k ≤ n
  · rw [List.take_of_length_le (by rw [List.length_take_of_le hk]; exact hn), List.take_drop,
      Nat.add_sub_cancel' hn, h]
    conv_lhs => rw [show a.take k = (a.take n).take k by rw [List.take_take, Nat.min_eq_left hn]]
    exact List.take_append_drop k _
  · rw [Nat.sub_eq_zero_of_le (by omega), List.take_zero, List.append_nil, List.take_take,
      Nat.min_eq_left (by omega)]

theorem Hdr.Describes.congr {h g g' : Hdr} {n : ℕ} (hd : h.Describes g n) (ht : g'.tag = g.tag)
    (hp : g'.priority = g.priority) (hf : g'.isFragment = g.isFragment) : h.Describes g' n :=
  ⟨hd.version, hd.tag.trans ht.symm, hd.priority.trans hp.symm, hd.isFragment.trans hf.symm,
    hd.datalen⟩

theorem Hdr.Describes.splice {h h' g : Hdr} {n : ℕ} (hd : h.Describes g n)
    (hd' : h'.Describes g n) (body : List UInt8) (k : ℕ) :
    ∃ h'' : Hdr, h''.Describes g n ∧
      (h.bytes ++ body).take k ++ (h'.bytes ++ body).drop k = h''.bytes ++ body := by
  by_cases hk : 16 ≤ k
  · refine ⟨h, hd, ?_⟩
    obtain ⟨j, rfl⟩ := Nat.exists_eq_add_of_le hk
    have hj (x : Hdr) : 16 + j = x.bytes.length + j := by rw [Hdr.length_bytes]
    conv_lhs => rw [hj h, List.take_length_add_append, ← hj h, hj h', List.drop_length_add_append]
    rw [List.append_assoc, List.take_append_drop]
  · obtain ⟨h'', hh⟩ := exists_hdr_bytes (h.bytes.take k ++ h'.bytes.drop k)
      (by simp; omega)
    have h8 := (Hdr.describes_iff_take hd).mp hd'
    refine ⟨h'', ?_, ?_⟩
    · rw [Hdr.describes_iff_take hd, hh]
      exact take_splice (by simp; omega) h8
    · rw [hh, List.take_append_of_le_length (by simp; omega),
        List.drop_append_of_le_length (by simp; omega), List.append_assoc]

namespace Msg

/-- An object that holds data to be written as one frame: either its header is still to be
written, or the message was ended and the room for the next header follows. -/
structure Holds (m : Msg) (body : List UInt8) : Prop where
  nonempty : body ≠ []
  bounded : body.length + 32 < 2 ^ 32
  payload : ∃ p, m.payload = some p ∧ 16 + body.length ≤ p.length ∧
    (p.drop 16).take body.length = body ∧
    ((m.headerIndex = 0 ∧ m.writeIndex.toNat = 16 + body.length) ∨
      (m.headerIndex ≠ 0 ∧ m.hdr.isFragment = 0 ∧ m.writeIndex.toNat = 32 + body.length ∧
        ∃ h : Hdr, p.take 16 = h.bytes ∧ h.Describes m.hdr body.length))

/-- The object with a new time, header bytes and write position, and nothing else changed. -/
structure Stamped (m m' : Msg) : Prop where
  readIndex : m'.readIndex = m.readIndex
  headerIndex : m'.headerIndex = m.headerIndex
  writeIndex : m'.writeIndex = m.writeIndex
  tag : m'.hdr.tag = m.hdr.tag
  priority : m'.hdr.priority = m.hdr.priority
  isFragment : m'.hdr.isFragment = m.hdr.isFragment
  datalen : m'.hdr.datalen = m.hdr.datalen
  payload : ∃ p p', m.payload = some p ∧ m'.payload = some p' ∧ p'.length = p.length

theorem Stamped.of_update {m : Msg} {p p' : List UInt8} (hp : m.payload = some p)
    (hl : p'.length = p.length) (sec usec : UInt32) :
    m.Stamped { m with
      hdr := { m.hdr with tvSec := sec, tvUsec := usec }
      payload := some p' } :=
  ⟨rfl, rfl, rfl, rfl, rfl, rfl, rfl, p, p', hp, rfl, hl⟩

/-- The time in the header of the frame: that of the write, or of the end mark. -/
def HeaderAt (m : Msg) (tv : Timeval) (h : Hdr) : Prop :=
  (m.headerIndex = 0 ∧ h.tvSec = tv.tvSec ∧ h.tvUsec = tv.tvUsec) ∨
    (m.headerIndex ≠ 0 ∧ ∃ p, m.payload = some p ∧ p.take 16 = h.bytes)

variable {σ : Type} (gettimeofday : σ → Timeval × σ)

theorem writeMessageHeader_spec {m : Msg} {body : List UInt8} {p : List UInt8}
    (hp : m.payload = some p) (hi : m.headerIndex = 0) (hl : 16 + body.length ≤ p.length)
    (hw : m.writeIndex.toNat = 16 + body.length) (s : σ) :
    ∃ m' p', ∃ h : Hdr, writeMessageHeader gettimeofday m s = some (m', (gettimeofday s).2) ∧
      m.Stamped m' ∧ m'.payload = some p' ∧ p'.length = p.length ∧
      p' = h.bytes ++ p.drop 16 ∧ m'.fdWriteIndex = m.fdWriteIndex ∧
      m.HeaderAt (gettimeofday s).1 h ∧ h.Describes m.hdr body.length := by
  have hdl : (m.writeIndex - m.headerIndex - preludeMsgHdrSize).toNat = body.length := by
    have h16 : preludeMsgHdrSize.toNat = 16 := rfl
    rw [hi, UInt32.sub_zero, UInt32.toNat_sub_of_le _ _ (by
      rw [UInt32.le_iff_toNat_le, hw, h16]; exact Nat.le_add_right _ _), hw, h16]
    exact Nat.add_sub_cancel_left ..
  obtain ⟨h, hh⟩ : ∃ h : Hdr, h = ⟨preludeMsgVersion, m.hdr.tag, m.hdr.priority,
    m.hdr.isFragment, m.writeIndex - m.headerIndex - preludeMsgHdrSize,
    (gettimeofday s).1.tvSec, (gettimeofday s).1.tvUsec⟩ := ⟨_, rfl⟩
  have hst : store p m.headerIndex.toNat h.bytes = some (h.bytes ++ p.drop 16) := by
    rw [hi, store_eq_some (by simp; omega)]
    simp
  have hlen : (h.bytes ++ p.drop 16).length = p.length := by simp; omega
  refine ⟨{ m with
    hdr := { m.hdr with
      tvSec := htonl (gettimeofday s).1.tvSec, tvUsec := htonl (gettimeofday s).1.tvUsec }
    payload := some (h.bytes ++ p.drop 16) }, _, h, ?_, ?_, rfl, hlen, rfl, rfl, ?_, ?_⟩
  · rw [hh, Hdr.bytes] at hst
    simp only [writeMessageHeader, hp, leBytes_htonl, Option.bind_eq_bind, Option.bind_some, hst]
    rw [hh, Hdr.bytes]
  · exact .of_update hp hlen _ _
  · subst hh
    exact .inl ⟨hi, rfl, rfl⟩
  · subst hh
    exact ⟨rfl, rfl, rfl, rfl, hdl⟩

theorem Stamped.refl {m : Msg} {p : List UInt8} (hp : m.payload = some p) : m.Stamped m :=
  ⟨rfl, rfl, rfl, rfl, rfl, rfl, rfl, p, p, hp, hp, rfl⟩

theorem Stamped.trans {m₁ m₂ m₃ : Msg} (h₁ : m₁.Stamped m₂) (h₂ : m₂.Stamped m₃) :
    m₁.Stamped m₃ := by
  obtain ⟨p, q, hp, hq, hpq⟩ := h₁.payload
  obtain ⟨q', r, hq', hr, hqr⟩ := h₂.payload
  obtain rfl := Option.some.inj (hq.symm.trans hq')
  exact ⟨h₂.readIndex.trans h₁.readIndex, h₂.headerIndex.trans h₁.headerIndex,
    h₂.writeIndex.trans h₁.writeIndex,
    h₂.tag.trans h₁.tag, h₂.priority.trans h₁.priority, h₂.isFragment.trans h₁.isFragment,
    h₂.datalen.trans h₁.datalen, p, r, hp, hr, hqr.trans hpq⟩

theorem Stamped.describes {m m' : Msg} {h : Hdr} {n : ℕ} (hs : m.Stamped m') :
    h.Describes m'.hdr n ↔ h.Describes m.hdr n :=
  ⟨fun hd => hd.congr hs.tag.symm hs.priority.symm hs.isFragment.symm,
    fun hd => hd.congr hs.tag hs.priority hs.isFragment⟩

theorem Holds.withIndex {m : Msg} {body : List UInt8} (h : m.Holds body) (k : UInt32) :
    { m with fdWriteIndex := k }.Holds body := ⟨h.nonempty, h.bounded, h.payload⟩

theorem Stamped.withIndex {m m' : Msg} (h : m.Stamped m') (k : UInt32) :
    m.Stamped { m' with fdWriteIndex := k } :=
  ⟨h.readIndex, h.headerIndex, h.writeIndex, h.tag, h.priority, h.isFragment, h.datalen,
    h.payload⟩

variable (ioWrite : List UInt8 → σ → Except ErrorCode ℕ × σ)

/-- What a write makes of the answer of the descriptor, with `k` of `n` bytes written before. -/
def afterWrite (m : Msg) (k n : ℕ) : Except ErrorCode ℕ × σ → Ret × Msg × σ
  | (.error e, s) => (.error e, { m with fdWriteIndex := UInt32.ofNat k }, s)
  | (.ok j, s) =>
    if k + j = n then (.ok (), { m with fdWriteIndex := 0 }, s)
    else (.error .eagain, { m with fdWriteIndex := UInt32.ofNat (k + j) }, s)

theorem finishWrite_afterWrite {m : Msg} {windex dlen : UInt32} {n : ℕ} (hd : dlen.toNat = n)
    (r : Except ErrorCode ℕ × σ) (hr : ∀ j, r.1 = .ok j → windex.toNat + j ≤ n) :
    (match finishWrite m windex dlen r with
      | (ret, m, windex, s) => (ret, { m with fdWriteIndex := windex }, s)) =
      afterWrite m windex.toNat n r := by
  rcases r with ⟨e | j, s⟩
  · simp [finishWrite, afterWrite]
  · have hlt : dlen.toNat < 2 ^ 32 := dlen.toNat_lt
    have hj := hr j rfl
    have hsum : (windex + UInt32.ofNat j).toNat = windex.toNat + j := toNat_add_ofNat (by omega)
    have hiff : windex + UInt32.ofNat j = dlen ↔ windex.toNat + j = n := by
      rw [← UInt32.toNat_inj, hsum, hd]
    simp only [finishWrite, afterWrite, hiff]
    split
    · rfl
    · simp [UInt32.ofNat_add]

/-- A write offers the descriptor what is left of a frame with the data. -/
theorem Holds.write_spec {m : Msg} {body : List UInt8} (hm : m.Holds body)
    (hk : m.fdWriteIndex.toNat ≤ 16 + body.length) (s : σ)
    (hw : ∀ buf s j s', ioWrite buf s = (.ok j, s') → j ≤ buf.length) :
    ∃ m' s', ∃ h : Hdr, h.Describes m.hdr body.length ∧ m.HeaderAt (gettimeofday s).1 h ∧
      m.Stamped m' ∧ m'.Holds body ∧
      (s' = s ∨ s' = (gettimeofday s).2) ∧
      preludeMsgWrite gettimeofday ioWrite m s = some (afterWrite m' m.fdWriteIndex.toNat
        (16 + body.length) (ioWrite ((h.bytes ++ body).drop m.fdWriteIndex.toNat) s')) := by
  obtain ⟨p, hp, hl, hbody, hshape⟩ := hm.payload
  have hpos := List.length_pos_iff.mpr hm.nonempty
  have hbound := hm.bounded
  have h16 : preludeMsgHdrSize.toNat = 16 := rfl
  have hne : m.writeIndex - preludeMsgHdrSize ≠ 0 := by
    rw [ne_eq, ← UInt32.toNat_inj, UInt32.toNat_sub_of_le _ _ (by
      rw [UInt32.le_iff_toNat_le, h16]; omega), h16]
    simp
    omega
  have hfit {q : List UInt8} (hq : q.length = p.length) :
      m.fdWriteIndex.toNat + (16 + body.length - m.fdWriteIndex.toNat) ≤ q.length := by omega
  have hleft {h : Hdr} {rest : List UInt8} (hrest : rest.take body.length = body) :
      ((h.bytes ++ rest).drop m.fdWriteIndex.toNat).take
        (16 + body.length - m.fdWriteIndex.toNat) =
      (h.bytes ++ body).drop m.fdWriteIndex.toNat := by
    rw [← List.drop_take, ← h.length_bytes, List.take_length_add_append, hrest]
  have htaken {buf : List UInt8} (hbuf : buf.length = 16 + body.length - m.fdWriteIndex.toNat)
      (s' : σ) (j : ℕ) (hj : (ioWrite buf s').1 = .ok j) :
      m.fdWriteIndex.toNat + j ≤ 16 + body.length := by
    have := hw buf s' j _ (Prod.ext hj rfl)
    omega
  rcases hshape with ⟨hi, hwi⟩ | ⟨hi, hfrag, hwi, h, hh, hdesc⟩
  · obtain ⟨m', p', h, hwrite, hst, hp', hlen, hp'eq, -, hat, hdesc⟩ :=
      writeMessageHeader_spec gettimeofday hp hi hl hwi s
    refine ⟨m', (gettimeofday s).2, h, hdesc, hat, hst, ?_, .inr rfl, ?_⟩
    · refine ⟨hm.nonempty, hbound, p', hp', hlen ▸ hl, ?_, .inl ⟨hst.headerIndex.trans hi, ?_⟩⟩
      · rw [hp'eq, ← h.length_bytes, List.drop_left, h.length_bytes, hbody]
      · rw [hst.writeIndex, hwi]
    · have hdlen : (m.writeIndex - m.fdWriteIndex).toNat =
          16 + body.length - m.fdWriteIndex.toNat := by
        rw [UInt32.toNat_sub_of_le _ _ (by rw [UInt32.le_iff_toNat_le]; omega), hwi]
      simp only [preludeMsgWrite, preludeMsgWriteR, if_neg hne, hwrite,
        Option.bind_eq_bind, Option.bind_some, hp', hi, ne_eq, not_true_eq_false, false_and,
        if_false]
      rw [hdlen, load_eq_some (hfit hlen), hp'eq, hleft hbody, Option.bind_some]
      exact congrArg some (finishWrite_afterWrite hwi _ (htaken (by simp) _))
  · have hlast : (m.writeIndex - preludeMsgHdrSize).toNat = 16 + body.length := by
      rw [UInt32.toNat_sub_of_le _ _ (by rw [UInt32.le_iff_toNat_le, h16]; omega), hwi, h16]
      omega
    have hdlen : (m.writeIndex - preludeMsgHdrSize - m.fdWriteIndex).toNat =
        16 + body.length - m.fdWriteIndex.toNat := by
      rw [UInt32.toNat_sub_of_le _ _ (by rw [UInt32.le_iff_toNat_le]; omega), hlast]
    refine ⟨m, s, h, hdesc, .inr ⟨hi, p, hp, hh⟩, .refl hp, hm, .inl rfl, ?_⟩
    simp only [preludeMsgWrite, preludeMsgWriteR, if_neg hne, hp, hfrag,
      Option.bind_eq_bind, Option.bind_some, ne_eq, hi, not_false_eq_true, true_and, if_true]
    rw [hdlen, load_eq_some (hfit rfl), ← List.take_append_drop 16 p, hh, hleft hbody,
      Option.bind_some]
    exact congrArg some (finishWrite_afterWrite hlast _ (htaken (by simp) _))

/-- The frame that a message not written yet is emitted as at a given time. -/
structure Emits (m : Msg) (tv : Timeval) (f : Frame) : Prop where
  holds : m.Holds f.body
  start : m.fdWriteIndex = 0
  describes : f.hdr.Describes m.hdr f.body.length
  header : m.HeaderAt tv f.hdr

end Msg

theorem Hdr.bytes_injective {h h' : Hdr} (heq : h.bytes = h'.bytes) : h = h' := by
  obtain ⟨hv, ht, hp, hf⟩ := h.getD_bytes
  obtain ⟨hv', ht', hp', hf'⟩ := h'.getD_bytes
  have hd := extractUint32_hdr h
  have hs := h.extractUint32_tvSec
  have hu := h.extractUint32_tvUsec
  rw [heq] at hv ht hp hf hd hs hu
  rw [extractUint32_hdr] at hd
  rw [Hdr.extractUint32_tvSec] at hs
  rw [Hdr.extractUint32_tvUsec] at hu
  cases h
  cases h'
  simp_all

theorem Msg.Emits.hdr_eq {m : Msg} {tv : Timeval} {f : Frame} {h : Hdr} (hm : m.Emits tv f)
    (hd : h.Describes m.hdr f.body.length) (hat : m.HeaderAt tv h) : h = f.hdr := by
  have hdf := hm.describes
  rcases hat with ⟨hi, hs, hu⟩ | ⟨hi, p, hp, hh⟩
  · rcases hm.header with ⟨-, hs', hu'⟩ | ⟨hi', -⟩
    · have hdl : h.datalen = f.hdr.datalen := by
        rw [← UInt32.toNat_inj, hd.datalen, hdf.datalen]
      have h₁ := hd.version.trans hdf.version.symm
      have h₂ := hd.tag.trans hdf.tag.symm
      have h₃ := hd.priority.trans hdf.priority.symm
      have h₄ := hd.isFragment.trans hdf.isFragment.symm
      have h₅ := hs.trans hs'.symm
      have h₆ := hu.trans hu'.symm
      cases h
      cases hfh : f.hdr
      simp_all
    · exact absurd hi hi'
  · rcases hm.header with ⟨hi', -⟩ | ⟨-, p', hp', hh'⟩
    · exact absurd hi' hi
    · obtain rfl := Option.some.inj (hp.symm.trans hp')
      exact Hdr.bytes_injective (hh.symm.trans hh')

end LibPrelude
