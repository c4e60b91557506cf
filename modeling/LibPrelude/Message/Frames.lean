import LibPrelude.Message.Safety

/-! # Messages on the wire

A message on the wire is a sequence of frames, none of them empty, of which all
but the last carry the fragment flag. Reading it merges the data of its frames;
the tag and the time are those of its first frame.
-/

namespace LibPrelude

open Bytes Resume

namespace Hdr

variable (h : Hdr)

theorem getD_bytes : h.bytes.getD 0 0 = h.version ∧ h.bytes.getD 1 0 = h.tag ∧
    h.bytes.getD 2 0 = h.priority ∧ h.bytes.getD 3 0 = h.isFragment := ⟨rfl, rfl, rfl, rfl⟩

theorem extractUint32_tvSec : extractUint32 h.bytes 8 = h.tvSec := by
  have := extractUint32_beBytes
    ([h.version, h.tag, h.priority, h.isFragment] ++ beBytes 4 h.datalen.toNat)
    (beBytes 4 h.tvUsec.toNat) h.tvSec
  simpa [Hdr.bytes] using this

theorem extractUint32_tvUsec : extractUint32 h.bytes 12 = h.tvUsec := by
  have := extractUint32_beBytes
    ([h.version, h.tag, h.priority, h.isFragment] ++ beBytes 4 h.datalen.toNat ++
      beBytes 4 h.tvSec.toNat) [] h.tvUsec
  simpa [Hdr.bytes] using this

/-- The fields of a message object after a header was added to those it had. -/
def merge (g h : Hdr) : Hdr where
  version := if g.datalen = 0 then h.version else g.version
  tag := if g.datalen = 0 then h.tag else g.tag
  priority := if g.priority = preludeMsgPriorityNone then h.priority else g.priority
  isFragment := h.isFragment
  datalen := g.datalen + h.datalen
  tvSec := if g.datalen = 0 then h.tvSec else g.tvSec
  tvUsec := if g.datalen = 0 then h.tvUsec else g.tvUsec

end Hdr

theorem sliceMessageHeader_bytes {m : Msg} {h : Hdr} (hpos : 0 < h.datalen.toNat)
    (hmax : m.hdr.datalen.toNat + h.datalen.toNat < maxMessageSize) :
    sliceMessageHeader m h.bytes = (.ok (), { m with hdr := m.hdr.merge h }) := by
  have hm : m.hdr.datalen.toNat + h.datalen.toNat < 2 ^ 32 := by
    unfold maxMessageSize at hmax; omega
  have hsum := toNat_add_of_lt hm
  have hn : ¬ m.hdr.datalen + h.datalen ≤ m.hdr.datalen := by
    rw [UInt32.le_iff_toNat_le, hsum]; omega
  have hlt : ¬ maxMessageSize ≤ (m.hdr.datalen + h.datalen).toNat := by rw [hsum]; omega
  unfold sliceMessageHeader
  obtain ⟨hv, ht, hp, hf⟩ := h.getD_bytes
  extract_lets h₀ h₁ h₂ h₃ tmp
  have htmp : tmp = h.datalen := extractUint32_hdr h
  have hmerge : h₃ = { m.hdr.merge h with datalen := m.hdr.datalen } := by
    simp only [h₃, h₂, h₁, h₀, hv, ht, hp, hf, h.extractUint32_tvSec, h.extractUint32_tvUsec,
      Hdr.merge]
    split_ifs <;> rfl
  rw [htmp, hmerge, if_neg hn, if_neg hlt]
  rfl

namespace Msg

/-- The payload, or the room for a header that it starts with. -/
def buffer (m : Msg) : List UInt8 := m.payload.getD (List.replicate 16 0)

theorem Reading.length_buffer {m : Msg} (hr : m.Reading) : m.buffer.length = m.size := by
  unfold buffer
  cases hp : m.payload with
  | none => simp [size, hr.payload_none hp]
  | some p => exact hr.length_payload p hp

/-- The object after all bytes of a frame were read, before the frame is closed. -/
def addFrame (m : Msg) (f : Frame) : Msg :=
  { m with
    hdr := m.hdr.merge f.hdr
    hdrbuf := f.hdr.bytes
    headerIndex := preludeMsgHdrSize
    writeIndex := m.hdr.datalen + f.hdr.datalen + preludeMsgHdrSize
    readIndex := m.readIndex + f.hdr.datalen
    payload := some (m.buffer ++ f.body) }

/-- The object ready for the header of the frame after a fragment. -/
def addFragment (m : Msg) (f : Frame) : Msg := { m.addFrame f with headerIndex := 0 }

/-- A frame that a message object can take in where it stands. -/
structure Fits (m : Msg) (f : Frame) : Prop where
  nonempty : f.body ≠ []
  bounded : m.hdr.datalen.toNat + f.body.length < maxMessageSize
  version : (m.hdr.merge f.hdr).version = preludeMsgVersion

theorem putHeader_bytes {m : Msg} (hr : m.Reading) (hi : m.headerIndex = 0) (h : Hdr) :
    m.putHeader h.bytes = { m with hdrbuf := h.bytes, headerIndex := preludeMsgHdrSize } := by
  have hst : store m.hdrbuf m.headerIndex.toNat h.bytes = some h.bytes := by
    rw [store_eq_some (by simp [hi, hr.length_hdrbuf]), hi]
    simp [hr.length_hdrbuf]
  rw [putHeader, hst, hi, Hdr.length_bytes]
  rfl

theorem completeHeader_bytes {m : Msg} (hr : m.Reading) (hi : m.headerIndex = 0) {f : Frame}
    (hf : m.Fits f) :
    completeHeader (m.putHeader f.hdr.bytes) = (.ok (), { m with
      hdr := m.hdr.merge f.hdr
      hdrbuf := f.hdr.bytes
      headerIndex := preludeMsgHdrSize
      writeIndex := m.hdr.datalen + f.hdr.datalen + preludeMsgHdrSize
      payload := some (m.buffer ++
        List.replicate f.body.length 0) }) := by
  have hpos : 0 < f.hdr.datalen.toNat := f.length_body ▸ List.length_pos_iff.mpr hf.nonempty
  have hb := hf.bounded
  rw [f.length_body] at hb
  have hsum : (m.hdr.datalen + f.hdr.datalen).toNat =
      m.hdr.datalen.toNat + f.hdr.datalen.toNat :=
    toNat_add_of_lt (by unfold maxMessageSize at hb; omega)
  have hend : (m.hdr.datalen + f.hdr.datalen + preludeMsgHdrSize).toNat =
      m.hdr.datalen.toNat + f.hdr.datalen.toNat + 16 := by
    rw [toNat_add_of_lt
      (by rw [hsum]; unfold maxMessageSize at hb; simp [preludeMsgHdrSize]; omega),
      hsum]
    rfl
  have hpay : preludeRealloc (m.payload.getD [])
      (preludeMsgHdrSize.toNat + (m.hdr.datalen + f.hdr.datalen).toNat) =
      m.buffer ++ List.replicate f.body.length 0 := by
    rw [hsum, f.length_body]
    unfold buffer
    cases hp : m.payload with
    | none =>
      have hd := hr.payload_none hp
      simp only [preludeRealloc, hd, Option.getD_none, List.take_nil, List.nil_append,
        List.length_nil, Nat.sub_zero, UInt32.toNat_zero, Nat.zero_add, preludeMsgHdrSize]
      exact List.replicate_add ..
    | some p =>
      have hl := hr.length_payload p hp
      unfold size at hl
      rw [Option.getD_some, Option.getD_some,
        preludeRealloc_of_le (by simp [preludeMsgHdrSize]; omega)]
      congr 2
      simp [preludeMsgHdrSize]; omega
  rw [putHeader_bytes hr hi, LibPrelude.completeHeader]
  simp only [sliceMessageHeader_bytes (m := { m with
    hdrbuf := f.hdr.bytes, headerIndex := preludeMsgHdrSize }) hpos hb]
  rw [if_neg, if_neg (not_not.mpr hf.version)]
  · exact congrArg (fun p => (Except.ok (), { m with
      hdr := m.hdr.merge f.hdr
      hdrbuf := f.hdr.bytes
      headerIndex := preludeMsgHdrSize
      writeIndex := m.hdr.datalen + f.hdr.datalen + preludeMsgHdrSize
      payload := some p })) hpay
  · rw [UInt32.le_iff_toNat_le]
    change ¬ (m.hdr.datalen + f.hdr.datalen + preludeMsgHdrSize).toNat ≤ m.hdr.datalen.toNat
    omega

theorem feed_frame {m : Msg} (hr : m.Reading) (hi : m.headerIndex = 0) {f : Frame} (hf : m.Fits f)
    (rest : List UInt8) :
    feed absorb m (f.bytes ++ rest) = (m.addFrame f).closeBody.fed absorb rest := by
  have hpos := List.length_pos_iff.mpr hf.nonempty
  have hb := hf.bounded
  have hsum : (m.hdr.datalen + f.hdr.datalen).toNat = m.hdr.datalen.toNat + f.body.length := by
    rw [f.length_body] at hb ⊢
    exact toNat_add_of_lt (by unfold maxMessageSize at hb; omega)
  have hne : m.headerIndex ≠ preludeMsgHdrSize := by rw [hi]; decide
  have hidx := hr.header hne
  have hbytes : f.hdr.bytes ≠ [] := List.ne_nil_of_length_pos (by simp)
  have hhdr := feed_header (m := m) hr.length_hdrbuf hbytes (by simp [hi]) (f.body ++ rest)
  rw [Frame.bytes, List.append_assoc, hhdr, closeHeader, completeHeader_bytes hr hi hf, Step.fed]
  have hlen : m.buffer.length = m.readIndex.toNat := hr.length_buffer.trans hidx.symm
  generalize ht : ({ m with
    hdr := m.hdr.merge f.hdr
    hdrbuf := f.hdr.bytes
    headerIndex := preludeMsgHdrSize
    writeIndex := m.hdr.datalen + f.hdr.datalen + preludeMsgHdrSize
    payload := some (m.buffer ++
      List.replicate f.body.length 0) } : Msg) = t
  have hsize : t.size = m.readIndex.toNat + f.body.length := by
    rw [← ht, hidx]
    change 16 + (m.hdr.datalen + f.hdr.datalen).toNat = 16 + m.hdr.datalen.toNat + _
    rw [hsum, Nat.add_assoc]
  have hti : t.readIndex = m.readIndex := by rw [← ht]
  have htp : t.payload = some (m.buffer ++
      List.replicate f.body.length 0) := by rw [← ht]
  have hsz : t.size < 2 ^ 32 := by
    rw [hsize, hidx]
    unfold size maxMessageSize at *
    omega
  have hput : t.putBody f.body = m.addFrame f := by
    rw [putBody_eq htp (by simp [hti, hlen]), hti, List.take_left' hlen,
      List.drop_eq_nil_of_le (by simp [hlen]), List.append_nil, f.length_body, UInt32.ofNat_toNat,
      ← ht]
    rfl
  rw [feed_body (m := t) (by rw [← ht]) htp (by simp [hlen, hsize]) hsz hf.nonempty
    (by rw [hti, hsize]) rest, hput]

theorem Reading.addFragment {m : Msg} (hr : m.Reading) (hi : m.headerIndex = 0) {f : Frame}
    (hf : m.Fits f) : (m.addFragment f).Reading := by
  have hb := hf.bounded
  have hne : m.headerIndex ≠ preludeMsgHdrSize := by rw [hi]; decide
  have hidx := hr.header hne
  have hsum : (m.hdr.datalen + f.hdr.datalen).toNat = m.hdr.datalen.toNat + f.body.length := by
    rw [f.length_body] at hb ⊢
    exact toNat_add_of_lt (by unfold maxMessageSize at hb; omega)
  have hsize : (m.addFragment f).size = m.size + f.body.length := by
    change 16 + (m.hdr.datalen + f.hdr.datalen).toNat = 16 + m.hdr.datalen.toNat + _
    rw [hsum, Nat.add_assoc]
  refine ⟨f.hdr.length_bytes, Nat.zero_le _, ?_, ?_, nofun, fun _ => ?_, nofun⟩
  · exact hsum.trans_lt hb
  · rintro p hp
    cases hp
    rw [hsize, List.length_append, hr.length_buffer]
  · change (m.readIndex + f.hdr.datalen).toNat = _
    rw [hsize, f.length_body, ← hidx]
    refine toNat_add_of_lt ?_
    rw [hidx, ← f.length_body]
    unfold size maxMessageSize at *
    omega

theorem feed_fragment {m : Msg} (hr : m.Reading) (hi : m.headerIndex = 0) {f : Frame}
    (hf : m.Fits f) (hfrag : f.hdr.isFragment ≠ 0) (rest : List UInt8) :
    feed absorb m (f.bytes ++ rest) = feed absorb (m.addFragment f) rest := by
  rw [feed_frame hr hi hf, closeBody, if_pos (show (m.addFrame f).hdr.isFragment ≠ 0 from hfrag)]
  rfl

theorem feed_last {m : Msg} (hr : m.Reading) (hi : m.headerIndex = 0) {f : Frame}
    (hf : m.Fits f) (hfrag : f.hdr.isFragment = 0) (rest : List UInt8) :
    feed absorb m (f.bytes ++ rest) = .complete (m.addFrame f).finish rest := by
  rw [feed_frame hr hi hf, closeBody,
    if_neg (not_not.mpr (show (m.addFrame f).hdr.isFragment = 0 from hfrag))]
  rfl

/-- The object after some fragments. -/
def addFragments (m : Msg) (fs : List Frame) : Msg := fs.foldl addFragment m

structure Between (m : Msg) : Prop where
  reading : m.Reading
  headerIndex : m.headerIndex = 0
  version : m.hdr.datalen ≠ 0 → m.hdr.version = preludeMsgVersion

theorem between_fresh : fresh.Between := ⟨reading_fresh, rfl, fun h => absurd rfl h⟩

theorem Between.fits {m : Msg} (h : m.Between) {f : Frame} (hn : f.body ≠ [])
    (hb : m.hdr.datalen.toNat + f.body.length < maxMessageSize)
    (hv : f.hdr.version = preludeMsgVersion) : m.Fits f where
  nonempty := hn
  bounded := hb
  version := by
    unfold Hdr.merge
    by_cases hd : m.hdr.datalen = 0
    · simpa [hd] using hv
    · simpa [hd] using h.version hd

theorem toNat_datalen_merge {g h : Hdr}
    (hb : g.datalen.toNat + h.datalen.toNat < maxMessageSize) :
    (g.merge h).datalen.toNat = g.datalen.toNat + h.datalen.toNat :=
  toNat_add_of_lt (by unfold maxMessageSize at hb; omega)

theorem Between.addFragment {m : Msg} (h : m.Between) {f : Frame} (hf : m.Fits f) :
    (m.addFragment f).Between :=
  ⟨h.reading.addFragment h.headerIndex hf, rfl, fun _ => hf.version⟩

theorem buffer_addFragments (m : Msg) (fs : List Frame) :
    (m.addFragments fs).buffer = m.buffer ++ bodies fs := by
  induction fs generalizing m with
  | nil => simp [addFragments]
  | cons f fs ih =>
    have := ih (m.addFragment f)
    rw [addFragments] at this ⊢
    rw [List.foldl_cons, this, bodies_cons, ← List.append_assoc]
    rfl

theorem feed_fragments {m : Msg} (h : m.Between) {fs : List Frame}
    (hfrag : ∀ f ∈ fs, f.hdr.isFragment ≠ 0) (hver : ∀ f ∈ fs, f.hdr.version = preludeMsgVersion)
    (hne : ∀ f ∈ fs, f.body ≠ [])
    (hb : m.hdr.datalen.toNat + (bodies fs).length < maxMessageSize) (rest : List UInt8) :
    feed absorb m (wire fs ++ rest) = feed absorb (m.addFragments fs) rest ∧
      (m.addFragments fs).Between ∧
      (m.addFragments fs).hdr.datalen.toNat = m.hdr.datalen.toNat + (bodies fs).length := by
  induction fs generalizing m with
  | nil => exact ⟨rfl, h, rfl⟩
  | cons f fs ih =>
    rw [List.forall_mem_cons] at hfrag hver hne
    rw [bodies_cons, List.length_append] at hb
    have hf := h.fits hne.1 (by omega) hver.1
    have hd : (m.addFragment f).hdr.datalen.toNat = m.hdr.datalen.toNat + f.body.length := by
      have := toNat_datalen_merge (g := m.hdr) (h := f.hdr) (by rw [← f.length_body]; omega)
      rwa [← f.length_body] at this
    obtain ⟨hfeed, hbet, hdl⟩ := ih (h.addFragment hf) hfrag.2 hver.2 hne.2 (by omega)
    refine ⟨?_, hbet, ?_⟩
    · rw [wire_cons, List.append_assoc, feed_fragment h.reading h.headerIndex hf hfrag.1]
      exact hfeed
    · rw [bodies_cons, List.length_append, ← Nat.add_assoc, ← hd]
      exact hdl

end Msg

/-- A message on the wire: fragments and a last frame, none of them empty. -/
structure WireMsg where
  fragments : List Frame
  last : Frame
  flagged : ∀ f ∈ fragments, f.hdr.isFragment ≠ 0
  unflagged : last.hdr.isFragment = 0
  version : ∀ f ∈ fragments ++ [last], f.hdr.version = preludeMsgVersion
  nonempty : ∀ f ∈ fragments ++ [last], f.body ≠ []
  bounded : (bodies (fragments ++ [last])).length < maxMessageSize

namespace WireMsg

def frames (w : WireMsg) : List Frame := w.fragments ++ [w.last]

def bytes (w : WireMsg) : List UInt8 := wire w.frames

def data (w : WireMsg) : List UInt8 := bodies w.frames

/-- The first frame, which gives the message its tag and time. -/
def head (w : WireMsg) : Frame := w.fragments.headD w.last

def msg (w : WireMsg) : Msg := ((Msg.fresh.addFragments w.fragments).addFrame w.last).finish

variable (w : WireMsg)

theorem length_data : (bodies w.fragments).length + w.last.body.length = w.data.length := by
  simp [data, frames]

theorem addFragments_spec (rest : List UInt8) :
    feed Msg.absorb .fresh (wire w.fragments ++ rest) =
        feed Msg.absorb (Msg.fresh.addFragments w.fragments) rest ∧
      (Msg.fresh.addFragments w.fragments).Between ∧
      (Msg.fresh.addFragments w.fragments).hdr.datalen.toNat = (bodies w.fragments).length := by
  have hb := w.bounded
  have hl := w.length_data
  unfold data frames at hl
  have := Msg.feed_fragments Msg.between_fresh w.flagged
    (fun f hf => w.version f (List.mem_append_left _ hf))
    (fun f hf => w.nonempty f (List.mem_append_left _ hf))
    (show 0 + _ < maxMessageSize by omega) rest
  simpa [Msg.fresh] using this

theorem fits_last : (Msg.fresh.addFragments w.fragments).Fits w.last := by
  have hb := w.bounded
  have hl := w.length_data
  unfold data frames at hl
  obtain ⟨-, hbet, hd⟩ := w.addFragments_spec []
  have hmem : w.last ∈ w.fragments ++ [w.last] := by simp
  exact hbet.fits (w.nonempty _ hmem) (by rw [hd]; omega) (w.version _ hmem)

/-- Reading the bytes of a message yields the message. -/
theorem feed_bytes (rest : List UInt8) :
    feed Msg.absorb .fresh (w.bytes ++ rest) = .complete w.msg rest := by
  obtain ⟨hfeed, hbet, -⟩ := w.addFragments_spec (w.last.bytes ++ rest)
  rw [bytes, frames, wire_append, List.append_assoc, wire_cons, wire_nil, List.append_nil, hfeed]
  exact Msg.feed_last hbet.reading hbet.headerIndex w.fits_last w.unflagged rest

theorem payload_msg : w.msg.payload = some (List.replicate 16 0 ++ w.data) := by
  change some ((Msg.fresh.addFragments w.fragments).buffer ++ w.last.body) = _
  rw [Msg.buffer_addFragments, List.append_assoc, data, frames, bodies_append]
  simp [Msg.buffer, Msg.fresh]

theorem toNat_datalen_msg : w.msg.hdr.datalen.toNat = w.data.length := by
  obtain ⟨-, -, hd⟩ := w.addFragments_spec []
  have hb := w.fits_last.bounded
  rw [w.last.length_body] at hb
  have h : w.msg.hdr.datalen.toNat = _ := Msg.toNat_datalen_merge hb
  rw [h, hd, ← w.last.length_body, w.length_data]

theorem toNat_writeIndex_msg : w.msg.writeIndex.toNat = 16 + w.data.length := by
  have hd := w.toNat_datalen_msg
  have hb := w.bounded
  have h16 : preludeMsgHdrSize.toNat = 16 := rfl
  have h : w.msg.writeIndex = w.msg.hdr.datalen + preludeMsgHdrSize := rfl
  unfold data frames maxMessageSize at *
  rw [h, toNat_add_of_lt (by omega), hd, h16, Nat.add_comm]

theorem length_bytes_pos : 0 < w.bytes.length := by
  rw [bytes, frames, wire_append, wire_cons, List.length_append, List.length_append,
    Frame.length_bytes]
  omega

theorem readable_msg : w.msg.Readable := by
  have hne := w.nonempty w.last (by simp)
  have hl := w.length_data
  have hb := w.bounded
  refine ⟨?_, ?_, ⟨_, w.payload_msg, ?_⟩, le_rfl, Nat.le_add_right _ _⟩
  · have := List.length_pos_iff.mpr hne
    rw [w.toNat_datalen_msg]; omega
  · rw [w.toNat_datalen_msg]; exact hb
  · rw [w.toNat_datalen_msg, List.length_append, List.length_replicate]

theorem head_msg : w.msg.hdr.tag = w.head.hdr.tag ∧ w.msg.hdr.tvSec = w.head.hdr.tvSec ∧
    w.msg.hdr.tvUsec = w.head.hdr.tvUsec := by
  have later {m : Msg} (f : Frame) (hd : 0 < m.hdr.datalen.toNat) :
      (m.hdr.merge f.hdr).tag = m.hdr.tag ∧ (m.hdr.merge f.hdr).tvSec = m.hdr.tvSec ∧
        (m.hdr.merge f.hdr).tvUsec = m.hdr.tvUsec := by
    have hne : m.hdr.datalen ≠ 0 := by
      intro h0
      simp [h0] at hd
    simp [Hdr.merge, hne]
  have rest {m : Msg} (fs : List Frame) (hd : 0 < m.hdr.datalen.toNat)
      (hb : m.hdr.datalen.toNat + (bodies fs).length < maxMessageSize) :
      (m.addFragments fs).hdr.tag = m.hdr.tag ∧ (m.addFragments fs).hdr.tvSec = m.hdr.tvSec ∧
        (m.addFragments fs).hdr.tvUsec = m.hdr.tvUsec ∧
        0 < (m.addFragments fs).hdr.datalen.toNat := by
    induction fs generalizing m with
    | nil => exact ⟨rfl, rfl, rfl, hd⟩
    | cons f fs ih =>
      rw [bodies_cons, List.length_append] at hb
      have hm : (m.addFragment f).hdr.datalen.toNat = _ :=
        Msg.toNat_datalen_merge (by rw [← f.length_body]; omega)
      obtain ⟨h₁, h₂, h₃, h₄⟩ := ih (m := m.addFragment f) (by omega)
        (by rw [hm, ← f.length_body]; omega)
      obtain ⟨k₁, k₂, k₃⟩ := later f hd
      exact ⟨h₁.trans k₁, h₂.trans k₂, h₃.trans k₃, h₄⟩
  unfold msg head
  cases hfs : w.fragments with
  | nil => exact ⟨rfl, rfl, rfl⟩
  | cons f fs =>
    have hb := w.bounded
    have hn := w.nonempty f (by simp [hfs])
    rw [hfs, List.cons_append, bodies_cons, List.length_append, bodies_append,
      List.length_append] at hb
    have hm : (Msg.fresh.addFragment f).hdr.datalen.toNat = _ :=
      Msg.toNat_datalen_merge (show 0 + _ < _ by rw [← f.length_body]; omega)
    have hpos := List.length_pos_iff.mpr hn
    have h0 : Msg.fresh.hdr.datalen.toNat = 0 := rfl
    obtain ⟨h₁, h₂, h₃, h₄⟩ := rest (m := Msg.fresh.addFragment f) fs
      (by rw [hm, ← f.length_body]; omega) (by rw [hm, h0, ← f.length_body]; omega)
    obtain ⟨k₁, k₂, k₃⟩ := later w.last h₄
    exact ⟨k₁.trans h₁, k₂.trans h₂, k₃.trans h₃⟩

end WireMsg

theorem outputs_wireMsgs (final : ErrorCode) (ws : List WireMsg) (rest : List UInt8) :
    outputs Msg.absorb .fresh final .fresh (ws.flatMap WireMsg.bytes ++ rest) =
      (ws.map WireMsg.msg ++ (outputs Msg.absorb .fresh final .fresh rest).1,
        (outputs Msg.absorb .fresh final .fresh rest).2) := by
  induction ws with
  | nil => rfl
  | cons w ws ih =>
    have hw := w.feed_bytes []
    rw [List.append_nil] at hw
    rw [List.flatMap_cons, List.append_assoc, outputs_of_complete hw, ih]
    rfl

theorem readAll_wireMsgs {d : Stream} {ws : List WireMsg} {fuel : ℕ}
    (hd : d.pending = ws.flatMap WireMsg.bytes)
    (hf : Delivery.blocks d.turns + d.pending.length < fuel) :
    readAll fuel none d = some (ws.map WireMsg.msg, d.final) := by
  have h := outputs_wireMsgs d.final ws []
  rw [List.append_nil] at h
  rw [readAll_eq_outputs hf, hd, h]
  simp [outputs]

end LibPrelude
