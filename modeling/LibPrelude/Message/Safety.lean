import LibPrelude.Message.Get
import LibPrelude.Message.Resumption

/-! # Reading from hostile peers

Whatever bytes a peer sends, the length of a message object is the exact sum of
the lengths in the headers read for it. With that, every store of the reader
and every access of a get stays inside the bytes allocated for the message.
-/

namespace LibPrelude

open Bytes Resume

theorem exists_hdr_bytes (bs : List UInt8) (h : bs.length = 16) : ∃ hdr : Hdr, hdr.bytes = bs := by
  obtain ⟨v, t, p, f, d₀, d₁, d₂, d₃, s₀, s₁, s₂, s₃, u₀, u₁, u₂, u₃, rfl⟩ :
      ∃ v t p f d₀ d₁ d₂ d₃ s₀ s₁ s₂ s₃ u₀ u₁ u₂ u₃, bs =
        [v, t, p, f, d₀, d₁, d₂, d₃, s₀, s₁, s₂, s₃, u₀, u₁, u₂, u₃] := by
    match bs, h with
    | [v, t, p, f, d₀, d₁, d₂, d₃, s₀, s₁, s₂, s₃, u₀, u₁, u₂, u₃], _ =>
      exact ⟨v, t, p, f, d₀, d₁, d₂, d₃, s₀, s₁, s₂, s₃, u₀, u₁, u₂, u₃, rfl⟩
  have field (a b c d : UInt8) :
      beBytes 4 (UInt32.ofNat (ofBe [a, b, c, d])).toNat = [a, b, c, d] := by
    have hlt : ofBe [a, b, c, d] < 2 ^ 32 := (ofBe_lt [a, b, c, d]).trans_eq (by simp)
    rw [UInt32.toNat_ofNat_of_lt' hlt]
    exact beBytes_ofBe [a, b, c, d]
  refine ⟨⟨v, t, p, f, .ofNat (ofBe [d₀, d₁, d₂, d₃]), .ofNat (ofBe [s₀, s₁, s₂, s₃]),
    .ofNat (ofBe [u₀, u₁, u₂, u₃])⟩, ?_⟩
  simp only [Hdr.bytes, field]
  rfl

theorem extractUint32_hdr (h : Hdr) : extractUint32 h.bytes 4 = h.datalen := by
  have := extractUint32_beBytes [h.version, h.tag, h.priority, h.isFragment]
    (beBytes 4 h.tvSec.toNat ++ beBytes 4 h.tvUsec.toNat) h.datalen
  simpa [Hdr.bytes] using this

def bodies (fs : List Frame) : List UInt8 := fs.flatMap Frame.body

@[simp] theorem bodies_nil : bodies [] = [] := rfl

@[simp] theorem bodies_cons (f : Frame) (fs : List Frame) :
    bodies (f :: fs) = f.body ++ bodies fs := by simp [bodies]

@[simp] theorem bodies_append (fs gs : List Frame) :
    bodies (fs ++ gs) = bodies fs ++ bodies gs := by
  simp [bodies]

namespace Msg

/-- The bytes read for a message object: whole frames, then a header or a frame cut short. -/
inductive Accounts (m : Msg) : List UInt8 → Prop where
  | header (fs : List Frame) (tail : List UInt8) : m.headerIndex ≠ preludeMsgHdrSize →
      m.hdrbuf.take m.headerIndex.toNat = tail → tail.length = m.headerIndex.toNat →
      m.hdr.datalen.toNat = (bodies fs).length → Accounts m (wire fs ++ tail)
  | content (fs : List Frame) (h : Hdr) (part : List UInt8) :
      m.headerIndex = preludeMsgHdrSize →
      m.hdr.datalen.toNat = (bodies fs).length + h.datalen.toNat →
      m.readIndex.toNat = 16 + (bodies fs).length + part.length →
      Accounts m (wire fs ++ (h.bytes ++ part))

theorem accounts_fresh : fresh.Accounts [] :=
  .header [] [] (by decide) rfl rfl rfl

theorem take_hdrbuf_putHeader {m : Msg} (hb : m.hdrbuf.length = 16) (b : UInt8)
    (h : m.headerIndex.toNat + 1 ≤ 16) :
    (m.putHeader [b]).hdrbuf.take (m.headerIndex.toNat + 1) =
      m.hdrbuf.take m.headerIndex.toNat ++ [b] := by
  have hs : store m.hdrbuf m.headerIndex.toNat [b] = some _ := store_eq_some (by simpa [hb] using h)
  simp only [putHeader, hs, Option.getD_some]
  rw [List.take_left']
  simp; omega

/-- What the end of a stretch of bytes leaves is accounted for by the bytes. -/
def Outcome (bs : List UInt8) : Step Msg Msg ErrorCode → Prop
  | .more m => m.Reading ∧ m.Accounts bs
  | .done m => m.Readable ∧ m.readIndex = preludeMsgHdrSize ∧
      ∃ fs, bs = wire fs ∧ m.hdr.datalen.toNat = (bodies fs).length
  | .fail _ => True

theorem outcome_closeHeader {m : Msg} {bs : List UInt8} {fs : List Frame} {h : Hdr} (hr : m.Reading)
    (hne : m.headerIndex ≠ preludeMsgHdrSize) (hl : m.headerIndex.toNat + bs.length = 16)
    (hh : (m.putHeader bs).hdrbuf = h.bytes) (hd : m.hdr.datalen.toNat = (bodies fs).length) :
    Outcome (wire fs ++ h.bytes) (m.putHeader bs).closeHeader := by
  rcases hc : LibPrelude.completeHeader (m.putHeader bs) with ⟨ret, m'⟩
  rw [closeHeader, hc]
  cases ret with
  | error e => trivial
  | ok =>
    obtain ⟨hr', hi'⟩ := hr.completeHeader hne hl hc
    obtain ⟨s, hs, -, rfl⟩ := completeHeader_ok hc
    obtain ⟨hsum, -, -, he⟩ := sliceMessageHeader_ok hs
    rw [hh, extractUint32_hdr] at hsum
    have hidx : s.readIndex = m.readIndex := by rw [he]; rfl
    refine ⟨hr', ?_⟩
    have := Accounts.content (m := _) fs h [] hi' (hsum.trans (by rw [← hd]; rfl)) ?_
    · simpa using this
    · change s.readIndex.toNat = _
      rw [hidx, hr.header hne, size, hd]
      simp

theorem Readable.finish {m : Msg} (h : m.Readable) : m.finish.Readable :=
  ⟨h.datalen_pos, h.datalen_lt, h.length_payload, le_rfl, Nat.le_add_right _ _⟩

theorem Reading.readable_putBody {m : Msg} (hr : m.Reading) (hc : m.headerIndex = preludeMsgHdrSize)
    {bs : List UInt8} (h : m.readIndex.toNat + bs.length = m.size) : (m.putBody bs).Readable := by
  obtain ⟨hsome, hge, hlt⟩ := hr.content hc
  obtain ⟨p, hp⟩ := Option.isSome_iff_exists.mp hsome
  obtain ⟨q, hq, hql⟩ := payload_putBody bs hp
  have hsz := hr.size_lt
  have hi := toNat_readIndex_putBody (m := m) bs (by unfold maxMessageSize at hsz; omega)
    (by omega)
  unfold size at hlt h
  refine ⟨?_, hr.datalen_lt, ⟨q, hq, by rw [hql, hr.length_payload p hp]; rfl⟩, by omega, ?_⟩
  · change 0 < m.hdr.datalen.toNat
    omega
  · change _ ≤ 16 + m.hdr.datalen.toNat
    omega

/-- One byte is accounted for, whether it ends a header, a frame or neither. -/
theorem outcome_absorb {m : Msg} {bs : List UInt8} (hr : m.Reading) (ha : m.Accounts bs)
    (b : UInt8) : Outcome (bs ++ [b]) (m.absorb b) := by
  have hsz := hr.size_lt
  unfold maxMessageSize at hsz
  cases ha with
  | header fs tail hne htake hlen hd =>
    have hi16 : m.headerIndex.toNat ≠ 16 := fun h => hne (headerIndex_eq_iff.mpr h)
    have hle := hr.headerIndex_le
    have hi : (m.putHeader [b]).headerIndex.toNat = m.headerIndex.toNat + 1 :=
      toNat_headerIndex_putHeader [b] (by simp; omega)
    have hbuf := take_hdrbuf_putHeader hr.length_hdrbuf b (m := m) (by omega)
    rw [htake] at hbuf
    rw [absorb, if_pos hne, List.append_assoc]
    by_cases hfull : m.headerIndex.toNat + 1 = 16
    · obtain ⟨h, hh⟩ := exists_hdr_bytes (tail ++ [b]) (by simp; omega)
      have hl : (m.putHeader [b]).hdrbuf.length = 16 := length_hdrbuf_putHeader hr.length_hdrbuf
      rw [hfull, ← hl, List.take_length] at hbuf
      simp only [if_pos (headerIndex_eq_iff.mpr (hi.trans hfull))]
      rw [← hh]
      exact outcome_closeHeader hr hne (by simpa using hfull) (hbuf.trans hh.symm) hd
    · have hne' : (m.putHeader [b]).headerIndex ≠ preludeMsgHdrSize := by
        rw [ne_eq, headerIndex_eq_iff]; omega
      simp only [if_neg hne']
      refine ⟨hr.putHeader (by simp; omega), .header fs (tail ++ [b]) hne' ?_ ?_ hd⟩
      · rw [hi]; exact hbuf
      · rw [hi]; simpa using hlen
  | content fs h part hc hd hidx =>
    obtain ⟨-, hge, hlt⟩ := hr.content hc
    have hi : (m.putBody [b]).readIndex.toNat = m.readIndex.toNat + 1 :=
      toNat_readIndex_putBody [b] (by omega) (by simp; omega)
    have hsize : m.size = 16 + m.hdr.datalen.toNat := rfl
    rw [absorb_body hc, List.append_assoc, List.append_assoc]
    by_cases hfull : m.readIndex.toNat + 1 = m.size
    · let f : Frame := ⟨h, part ++ [b], by simp; omega⟩
      have hwire : wire fs ++ (h.bytes ++ (part ++ [b])) = wire (fs ++ [f]) := by
        simp [f, Frame.bytes]
      have hdata : m.hdr.datalen.toNat = (bodies (fs ++ [f])).length := by
        simp [f]; omega
      rw [if_pos (hi.trans hfull), hwire, closeBody]
      split
      · refine ⟨hr.nextFragment hc hfull, ?_⟩
        rw [← List.append_nil (wire _)]
        exact .header _ [] (by simp [preludeMsgHdrSize]) rfl rfl hdata
      · exact ⟨(hr.readable_putBody hc (show _ + [b].length = _ from hfull)).finish, rfl, _, rfl,
          hdata⟩
    · rw [if_neg (by rw [hi]; exact hfull)]
      refine ⟨hr.putBody hc (by simp; omega), .content fs h (part ++ [b]) hc hd ?_⟩
      rw [hi, hidx]; simp; omega

theorem outcome_feed {m : Msg} {bs : List UInt8} (xs : List UInt8) (hr : m.Reading)
    (ha : m.Accounts bs) :
    match feed absorb m xs with
    | .starved m' => m'.Reading ∧ m'.Accounts (bs ++ xs)
    | .complete m' rest => ∃ pre, xs = pre ++ rest ∧ Outcome (bs ++ pre) (.done m')
    | .failed _ _ => True := by
  induction xs generalizing m bs with
  | nil => simpa [feed] using ⟨hr, ha⟩
  | cons x xs ih =>
    have hx := outcome_absorb hr ha x
    rw [feed_cons]
    cases hs : m.absorb x with
    | more m' =>
      rw [hs] at hx
      have := ih hx.1 hx.2
      rw [Step.fed]
      cases hf : feed absorb m' xs with
      | starved m'' => simpa [hf] using this
      | complete m'' rest =>
        rw [hf] at this
        obtain ⟨pre, rfl, ho⟩ := this
        exact ⟨x :: pre, rfl, by simpa using ho⟩
      | failed e rest => trivial
    | done m' => exact ⟨[x], rfl, hs ▸ hx⟩
    | fail e => trivial

end Msg

/-- The objects that interrupted calls leave to be resumed, with the bytes read for them. -/
inductive Reached : Msg → List UInt8 → Prop where
  | fresh : Reached .fresh []
  | resumed {m m' : Msg} {bs pre : List UInt8} {d d' : Stream} : Reached m bs →
      readMsg (some m) d = some (.error .eagain, some m', d') →
      d.pending = pre ++ d'.pending → Reached m' (bs ++ pre)

/-- The messages that calls complete, with the bytes read for them. -/
inductive Received : Msg → List UInt8 → Prop where
  | intro {m m' : Msg} {bs pre : List UInt8} {d d' : Stream} : Reached m bs →
      readMsg (some m) d = some (.ok (), some m', d') →
      d.pending = pre ++ d'.pending → Received m' (bs ++ pre)

/-- The messages that any sequence of gets leads to. -/
inductive Gets (m : Msg) : Msg → Prop where
  | refl : Gets m m
  | get {m₁ m₂ : Msg} {out out' : Chunk} {ret : Ret} : Gets m m₁ →
      preludeMsgGet m₁ out = some (ret, m₂, out') → Gets m m₂

/-- A call cut short leaves an object whose bytes are accounted for, as does a complete one. -/
theorem readMsg_accounts {m m' : Msg} {bs pre : List UInt8} {d d' : Stream} {ret : Ret}
    (hr : m.Reading) (ha : m.Accounts bs) (h : readMsg (some m) d = some (ret, some m', d'))
    (hp : d.pending = pre ++ d'.pending) :
    (ret = .error .eagain ∧ m'.Reading ∧ m'.Accounts (bs ++ pre)) ∨
      (ret = .ok () ∧ Msg.Outcome (bs ++ pre) (.done m')) := by
  obtain ⟨reply, pre', post, turns, hp', -, hout, hag, -⟩ := readMsg_spec hr d
  rw [h] at hout
  have hfeed := Msg.outcome_feed pre' hr ha
  cases reply with
  | blocked t =>
    cases hout
    obtain rfl := List.append_cancel_right (hp.symm.trans hp')
    rw [hag.1] at hfeed
    exact .inl ⟨rfl, hfeed⟩
  | done t =>
    cases hout
    obtain rfl := List.append_cancel_right (hp.symm.trans hp')
    rw [show feed Msg.absorb m pre = .complete m' [] from hag] at hfeed
    obtain ⟨pre', hpre, ho⟩ := hfeed
    rw [List.append_nil] at hpre
    exact .inr ⟨rfl, hpre ▸ ho⟩
  | failed e => simp [result] at hout

theorem Reached.accounts {m : Msg} {bs : List UInt8} (h : Reached m bs) :
    m.Reading ∧ m.Accounts bs := by
  induction h with
  | fresh => exact ⟨Msg.reading_fresh, Msg.accounts_fresh⟩
  | resumed _ hread hp ih =>
    rcases readMsg_accounts ih.1 ih.2 hread hp with ⟨-, h⟩ | ⟨h, -⟩
    · exact h
    · cases h

theorem Received.outcome {m : Msg} {bs : List UInt8} (h : Received m bs) :
    Msg.Outcome bs (.done m) := by
  obtain ⟨hm, hread, hp⟩ := h
  obtain ⟨hr, ha⟩ := hm.accounts
  rcases readMsg_accounts hr ha hread hp with ⟨h, -⟩ | ⟨-, h⟩
  · cases h
  · exact h

theorem Gets.readable {m m' : Msg} (h : Gets m m') (hm : m.Readable) :
    m'.Readable ∧ m'.hdr = m.hdr ∧ m'.payload = m.payload := by
  induction h with
  | refl => exact ⟨hm, rfl, rfl⟩
  | get _ hget ih =>
    obtain ⟨ret, m₂, out', hget', hg⟩ := preludeMsgGet_spec ih.1 _
    cases hget.symm.trans hget'
    exact ⟨hg.readable ih.1, hg.hdr_eq.trans ih.2.1, hg.payload_eq.trans ih.2.2⟩

/-- A header whose length would make the sum wrap is refused, and the sum is not stored. -/
theorem sliceMessageHeader_of_wrap {m : Msg} {buf : List UInt8}
    (h : 2 ^ 32 ≤ m.hdr.datalen.toNat + (extractUint32 buf 4).toNat) :
    ∃ m', sliceMessageHeader m buf = (.error .invalLength, m') ∧
      m'.hdr.datalen = m.hdr.datalen := by
  unfold sliceMessageHeader
  extract_lets h₀ h₁ h₂ h₃ tmp
  have hd : h₃.datalen = m.hdr.datalen := by
    simp only [h₃, h₂, h₁, h₀]; split_ifs <;> rfl
  have hb := tmp.toNat_lt
  have hw : h₃.datalen + tmp ≤ h₃.datalen := by
    have ht : tmp = extractUint32 buf 4 := rfl
    rw [← ht, ← hd] at h
    rw [UInt32.le_iff_toNat_le, UInt32.toNat_add]
    omega
  rw [if_pos hw]
  exact ⟨_, rfl, hd⟩

/-- Reading and getting stay inside the bytes allocated for a message, on any stream. -/
theorem read_and_get_inside :
    (∀ m bs, Reached m bs →
      m.hdrbuf.length = 16 ∧ (∀ p, m.payload = some p → p.length = 16 + m.hdr.datalen.toNat) ∧
      m.Accounts bs ∧ m.hdr.datalen.toNat < maxMessageSize ∧
      ∀ d, ∃ ret msg d', readMsg (some m) d = some (ret, msg, d')) ∧
    (∀ m buf, 2 ^ 32 ≤ m.hdr.datalen.toNat + (extractUint32 buf 4).toNat →
      ∃ m', sliceMessageHeader m buf = (.error .invalLength, m') ∧
        m'.hdr.datalen = m.hdr.datalen) ∧
    (∀ m bs, Received m bs →
      (∃ fs, bs = wire fs ∧ m.hdr.datalen.toNat = (bodies fs).length) ∧
      m.hdr.datalen.toNat < maxMessageSize ∧
      (∃ p, m.payload = some p ∧ p.length = 16 + m.hdr.datalen.toNat) ∧
      ∀ m₁, Gets m m₁ →
        m₁.readIndex.toNat ≤ 16 + m.hdr.datalen.toNat ∧
        (∀ out, ∃ ret m₂ out', preludeMsgGet m₁ out = some (ret, m₂, out') ∧
          (ret = .ok () →
            m₂.readIndex.toNat = m₁.readIndex.toNat + 5 + out'.len.toNat ∧
            ((out'.len = 0 ∧ out'.buf = out.buf) ∨
              ∃ off, out'.buf = some off ∧ off = m₁.readIndex.toNat + 5 ∧
                off + out'.len.toNat ≤ 16 + m.hdr.datalen.toNat)) ∧
          (∀ e, ret = .error e →
            m₂.readIndex.toNat ≤ m₁.readIndex.toNat + 5 ∧ out'.buf = out.buf) ∧
          (2 ^ 32 ≤ m₁.readIndex.toNat + 5 + out'.len.toNat → ret ≠ .ok ())) ∧
        ∀ out, ∃ chunks e, getAll (16 + m.hdr.datalen.toNat) m₁ out = some (chunks, e)) := by
  refine ⟨fun m bs h => ?_, fun m buf h => sliceMessageHeader_of_wrap h, fun m bs h => ?_⟩
  · obtain ⟨hr, ha⟩ := h.accounts
    refine ⟨hr.length_hdrbuf, hr.length_payload, ha, hr.datalen_lt, fun d => ?_⟩
    obtain ⟨reply, pre, post, turns, -, -, hout, -⟩ := readMsg_spec hr d
    exact ⟨_, _, _, hout⟩
  · obtain ⟨hm, -, hfs⟩ := h.outcome
    refine ⟨hfs, hm.datalen_lt, hm.length_payload, fun m₁ hg => ?_⟩
    obtain ⟨hm₁, hhdr, -⟩ := hg.readable hm
    have hle := hm₁.readIndex_le
    have hge := hm₁.readIndex_ge
    have hlt := hm.datalen_lt
    rw [hhdr] at hle
    refine ⟨hle, fun out => ?_, fun out => ?_⟩
    · obtain ⟨ret, m₂, out', hget, hgot⟩ := preludeMsgGet_spec hm₁ out
      refine ⟨ret, m₂, out', hget, ?_, ?_, ?_⟩
      · rintro rfl
        exact ⟨(hgot.toNat_readIndex hm₁).1, hhdr ▸ hgot.chunk_inside⟩
      · rintro e rfl
        exact hgot.error hm₁
      · rintro hw rfl
        have := hgot.toNat_readIndex hm₁
        unfold maxMessageSize at hlt
        rw [hhdr] at this
        omega
    · obtain ⟨⟨chunks, e⟩, hall⟩ := Option.isSome_iff_exists.mp
        (getAll_isSome (16 + m.hdr.datalen.toNat) hm₁ out (by rw [hhdr]; omega))
      exact ⟨chunks, e, hall⟩

def overrunStream : Stream where
  pending := [1, 0, 0, 0, 0, 0, 0, 5, 0, 0, 0, 0, 0, 0, 0, 0, 7, 255, 255, 255, 255]
  turns := [.upTo 2, .wouldBlock]
  final := .eof
  final_ne := eof_ne_eagain

/-- Header bytes are stored while there is no payload, and a bound check computes a sum that
wraps. -/
theorem overrun_wraps :
    (readMsg none overrunStream).map
        (fun r => r.2.1.map fun m => (m.headerIndex.toNat, m.hdrbuf.take 3, m.payload)) =
      some (some (3, [1, 0, 0], none)) ∧
    ((readMsg none overrunStream.contiguous).bind fun r => r.2.1.bind fun m =>
        (preludeMsgGet m ⟨0, 0, none⟩).map fun (ret, m, out) =>
          (ret, m.readIndex.toNat + out.len.toNat, (m.readIndex + out.len).toNat)) =
      some (.error .invalLength, 2 ^ 32 + 20, 20) := by
  decide

end LibPrelude
