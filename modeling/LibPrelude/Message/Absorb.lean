import LibPrelude.Message.Read

/-! # Reading byte by byte

The effect of a read is described by a machine that absorbs one byte. A stretch
of bytes inside a header or inside the data of a frame only moves an index; the
last byte of a header or of a frame runs the checks of the source.
-/

namespace LibPrelude

open Bytes Resume

namespace Msg

def putHeader (m : Msg) (bs : List UInt8) : Msg :=
  { m with
    hdrbuf := (store m.hdrbuf m.headerIndex.toNat bs).getD m.hdrbuf
    headerIndex := m.headerIndex + UInt32.ofNat bs.length }

def putBody (m : Msg) (bs : List UInt8) : Msg :=
  let payload := m.payload.getD []
  { m with
    payload := some ((store payload m.readIndex.toNat bs).getD payload)
    readIndex := m.readIndex + UInt32.ofNat bs.length }

/-- What a full header buffer leads to. -/
def closeHeader (m : Msg) : Step Msg Msg ErrorCode :=
  match completeHeader m with
  | (.ok (), m) => .more m
  | (.error e, _) => .fail e

/-- What the last byte of a frame leads to. -/
def closeBody (m : Msg) : Step Msg Msg ErrorCode :=
  if m.hdr.isFragment ≠ 0 then .more { m with headerIndex := 0 } else .done m.finish

def size (m : Msg) : ℕ := 16 + m.hdr.datalen.toNat

def absorb (m : Msg) (b : UInt8) : Step Msg Msg ErrorCode :=
  if m.headerIndex ≠ preludeMsgHdrSize then
    let m := m.putHeader [b]
    if m.headerIndex = preludeMsgHdrSize then m.closeHeader else .more m
  else
    let m := m.putBody [b]
    if m.readIndex.toNat = m.size then m.closeBody else .more m

/-- The objects met between two calls of the reader. -/
structure Reading (m : Msg) : Prop where
  length_hdrbuf : m.hdrbuf.length = 16
  headerIndex_le : m.headerIndex.toNat ≤ 16
  datalen_lt : m.hdr.datalen.toNat < maxMessageSize
  length_payload : ∀ p, m.payload = some p → p.length = m.size
  payload_none : m.payload = none → m.hdr.datalen = 0
  header : m.headerIndex ≠ preludeMsgHdrSize → m.readIndex.toNat = m.size
  content : m.headerIndex = preludeMsgHdrSize →
    m.payload.isSome ∧ 16 ≤ m.readIndex.toNat ∧ m.readIndex.toNat < m.size

theorem reading_fresh : Reading fresh where
  length_hdrbuf := rfl
  headerIndex_le := by decide
  datalen_lt := by decide
  length_payload := by simp [fresh]
  payload_none := fun _ => rfl
  header := fun _ => rfl
  content := by simp [fresh, preludeMsgHdrSize]

theorem Reading.size_lt {m : Msg} (h : m.Reading) : m.size < 16 + maxMessageSize := by
  have := h.datalen_lt
  unfold size; omega

theorem headerIndex_eq_iff {m : Msg} : m.headerIndex = preludeMsgHdrSize ↔
    m.headerIndex.toNat = 16 := by
  rw [← UInt32.toNat_inj]; rfl

section Header

variable {m : Msg} {bs : List UInt8}

theorem toNat_headerIndex_putHeader (bs : List UInt8)
    (h : m.headerIndex.toNat + bs.length ≤ 16) :
    (m.putHeader bs).headerIndex.toNat = m.headerIndex.toNat + bs.length :=
  toNat_add_ofNat (by omega)

theorem putHeader_putHeader (hb : m.hdrbuf.length = 16) {as : List UInt8}
    (h : m.headerIndex.toNat + as.length + bs.length ≤ 16) :
    (m.putHeader as).putHeader bs = m.putHeader (as ++ bs) := by
  have hi := toNat_headerIndex_putHeader (m := m) as (by omega)
  have hs := store_store m.hdrbuf as bs m.headerIndex.toNat
  have ha : store m.hdrbuf m.headerIndex.toNat as = some _ := store_eq_some (by omega)
  have hab : store m.hdrbuf m.headerIndex.toNat (as ++ bs) = some _ :=
    store_eq_some (by simp; omega)
  rw [ha, Option.bind_some, hab] at hs
  unfold putHeader at hi ⊢
  simp only [ha, Option.getD_some] at hi ⊢
  simp only [hi, hs, hab, Option.getD_some, add_ofNat_add_ofNat, List.length_append]

theorem length_hdrbuf_putHeader (hb : m.hdrbuf.length = 16) :
    (m.putHeader bs).hdrbuf.length = 16 := by
  unfold putHeader
  cases hs : store m.hdrbuf m.headerIndex.toNat bs with
  | none => simpa using hb
  | some buf => simpa [length_of_store hs] using hb

theorem feed_header_unfinished (hb : m.hdrbuf.length = 16)
    (h : m.headerIndex.toNat + bs.length < 16) :
    feed absorb m bs = .starved (m.putHeader bs) := by
  induction bs generalizing m with
  | nil =>
    have hn : store m.hdrbuf m.headerIndex.toNat [] = some m.hdrbuf := by
      rw [store_eq_some (by simp; omega)]; simp
    simp [feed, putHeader, hn]
  | cons b bs ih =>
    have hlen : m.headerIndex.toNat + 1 + bs.length < 16 := by simp at h; omega
    have hi := toNat_headerIndex_putHeader (m := m) [b] (by simp; omega)
    have hne : m.headerIndex ≠ preludeMsgHdrSize := by rw [ne_eq, headerIndex_eq_iff]; omega
    have hne' : (m.putHeader [b]).headerIndex ≠ preludeMsgHdrSize := by
      rw [ne_eq, headerIndex_eq_iff, hi]; simp; omega
    rw [feed, absorb, if_pos hne]
    simp only [if_neg hne']
    rw [ih (length_hdrbuf_putHeader hb) (by rw [hi]; simpa using hlen),
      putHeader_putHeader hb (by simp; omega), List.singleton_append]

theorem feed_header (hb : m.hdrbuf.length = 16) (hn : bs ≠ [])
    (h : m.headerIndex.toNat + bs.length = 16) (rest : List UInt8) :
    feed absorb m (bs ++ rest) = (m.putHeader bs).closeHeader.fed absorb rest := by
  obtain ⟨as, b, rfl⟩ := (List.eq_nil_or_concat' bs).resolve_left hn
  simp only [List.length_append, List.length_singleton] at h
  have hi := toNat_headerIndex_putHeader (m := m) as (by omega)
  have hi' := toNat_headerIndex_putHeader (m := m) (as ++ [b]) (by simp; omega)
  have hne : (m.putHeader as).headerIndex ≠ preludeMsgHdrSize := by
    rw [ne_eq, headerIndex_eq_iff]; omega
  have heq : (m.putHeader (as ++ [b])).headerIndex = preludeMsgHdrSize := by
    rw [headerIndex_eq_iff, hi']; simp; omega
  rw [List.append_assoc, feed_append_of_starved (feed_header_unfinished hb (by omega)),
    List.singleton_append, feed_cons, absorb, if_pos hne,
    putHeader_putHeader hb (by simp; omega)]
  simp only [if_pos heq]

end Header

section Body

variable {m : Msg} {p bs : List UInt8}

theorem putBody_eq (hp : m.payload = some p) (h : m.readIndex.toNat + bs.length ≤ p.length) :
    m.putBody bs = { m with
      payload := some (p.take m.readIndex.toNat ++ bs ++ p.drop (m.readIndex.toNat + bs.length))
      readIndex := m.readIndex + UInt32.ofNat bs.length } := by
  simp [putBody, hp, store_eq_some h]

theorem size_putBody : (m.putBody bs).size = m.size := rfl

theorem toNat_readIndex_putBody (bs : List UInt8) (hs : m.size < 2 ^ 32)
    (h : m.readIndex.toNat + bs.length ≤ m.size) :
    (m.putBody bs).readIndex.toNat = m.readIndex.toNat + bs.length :=
  toNat_add_ofNat (by omega)

theorem payload_putBody (bs : List UInt8) (hp : m.payload = some p) :
    ∃ q, (m.putBody bs).payload = some q ∧ q.length = p.length := by
  cases hs : store p m.readIndex.toNat bs with
  | none => exact ⟨p, by simp [putBody, hp, hs]⟩
  | some q => exact ⟨q, by simp [putBody, hp, hs], length_of_store hs⟩

theorem putBody_putBody (hp : m.payload = some p) (hl : p.length = m.size) (hs : m.size < 2 ^ 32)
    {as : List UInt8} (h : m.readIndex.toNat + as.length + bs.length ≤ m.size) :
    (m.putBody as).putBody bs = m.putBody (as ++ bs) := by
  have hi := toNat_readIndex_putBody (m := m) as hs (by omega)
  have ht := store_store p as bs m.readIndex.toNat
  have ha : store p m.readIndex.toNat as = some _ := store_eq_some (by omega)
  have hab : store p m.readIndex.toNat (as ++ bs) = some _ := store_eq_some (by simp; omega)
  rw [ha, Option.bind_some, hab] at ht
  unfold putBody at hi ⊢
  simp only [hp, Option.getD_some, ha] at hi ⊢
  simp only [hi, ht, hab, Option.getD_some, add_ofNat_add_ofNat, List.length_append]

theorem absorb_body (hc : m.headerIndex = preludeMsgHdrSize) (b : UInt8) :
    absorb m b = if (m.putBody [b]).readIndex.toNat = m.size then (m.putBody [b]).closeBody
      else .more (m.putBody [b]) := if_neg (not_not.mpr hc)

theorem feed_body_unfinished (hc : m.headerIndex = preludeMsgHdrSize) (hp : m.payload = some p)
    (hl : p.length = m.size) (hs : m.size < 2 ^ 32)
    (h : m.readIndex.toNat + bs.length < m.size) :
    feed absorb m bs = .starved (m.putBody bs) := by
  induction bs generalizing m p with
  | nil =>
    have hn : store p m.readIndex.toNat [] = some p := by
      rw [store_eq_some (by simp at h ⊢; omega)]; simp
    cases m
    simp_all [feed, putBody]
  | cons b bs ih =>
    have hlen : m.readIndex.toNat + 1 + bs.length < m.size := by simp at h; omega
    have hi := toNat_readIndex_putBody (m := m) [b] hs (by simp; omega)
    obtain ⟨q, hq, hql⟩ := payload_putBody [b] hp
    have hne : (m.putBody [b]).readIndex.toNat ≠ m.size := by rw [hi]; simp; omega
    rw [feed_cons, absorb_body hc, if_neg hne, Step.fed,
      ih (m := m.putBody [b]) hc hq (by rw [hql, hl]; rfl) hs
      (by rw [hi, size_putBody]; simpa using hlen),
      putBody_putBody hp hl hs (by simp; omega), List.singleton_append]

theorem feed_body (hc : m.headerIndex = preludeMsgHdrSize) (hp : m.payload = some p)
    (hl : p.length = m.size) (hs : m.size < 2 ^ 32) (hn : bs ≠ [])
    (h : m.readIndex.toNat + bs.length = m.size) (rest : List UInt8) :
    feed absorb m (bs ++ rest) = (m.putBody bs).closeBody.fed absorb rest := by
  obtain ⟨as, b, rfl⟩ := (List.eq_nil_or_concat' bs).resolve_left hn
  simp only [List.length_append, List.length_singleton] at h
  have hi := toNat_readIndex_putBody (m := m) (as ++ [b]) hs (by simp; omega)
  have heq : (m.putBody (as ++ [b])).readIndex.toNat = m.size := by rw [hi]; simp; omega
  rw [List.append_assoc, feed_append_of_starved (feed_body_unfinished hc hp hl hs (by omega)),
    List.singleton_append, feed_cons, absorb_body (m := m.putBody as) hc,
    putBody_putBody hp hl hs (by simp; omega), size_putBody, if_pos heq]

end Body

theorem sliceMessageHeader_ok {m m' : Msg} {buf : List UInt8}
    (h : sliceMessageHeader m buf = (.ok (), m')) :
    m'.hdr.datalen.toNat = m.hdr.datalen.toNat + (extractUint32 buf 4).toNat ∧
      0 < (extractUint32 buf 4).toNat ∧ m'.hdr.datalen.toNat < maxMessageSize ∧
      m' = { m with hdr := m'.hdr } := by
  unfold sliceMessageHeader at h
  extract_lets h₀ h₁ h₂ h₃ tmp at h
  have hd : h₃.datalen = m.hdr.datalen := by
    simp only [h₃, h₂, h₁, h₀]; split_ifs <;> rfl
  have hb := tmp.toNat_lt
  have hb' := h₃.datalen.toNat_lt
  split_ifs at h with hw hm
  · cases h
  · cases h
  · obtain rfl := (Prod.mk.inj h).2
    rw [UInt32.le_iff_toNat_le, UInt32.toNat_add] at hw
    rw [UInt32.toNat_add] at hm
    have ht : tmp = extractUint32 buf 4 := rfl
    rw [← ht, ← hd]
    simp only [UInt32.toNat_add]
    unfold maxMessageSize at hm ⊢
    refine ⟨?_, ?_, ?_, trivial⟩ <;> omega

theorem completeHeader_ok {m m' : Msg} (h : completeHeader m = (.ok (), m')) :
    ∃ s, sliceMessageHeader m m.hdrbuf = (.ok (), s) ∧ s.hdr.version = preludeMsgVersion ∧
      m' = { s with
        writeIndex := s.hdr.datalen + preludeMsgHdrSize
        payload := some (preludeRealloc (m.payload.getD []) s.size) } := by
  unfold completeHeader at h
  rcases hs : sliceMessageHeader m m.hdrbuf with ⟨ret, s⟩
  cases ret with
  | error e => simp [hs] at h
  | ok =>
    simp only [hs] at h
    split_ifs at h with hw hv
    · simp at h
    · simp at h
    · obtain ⟨-, -, -, he⟩ := sliceMessageHeader_ok hs
      have hp : s.payload = m.payload := by rw [he]
      refine ⟨s, rfl, not_not.mp hv, ?_⟩
      rw [← (Prod.mk.inj h).2, hp]
      rfl

theorem completeHeader_error {m m' : Msg} {e : ErrorCode}
    (h : completeHeader m = (.error e, m')) : e ≠ .eagain := by
  rintro rfl
  unfold completeHeader sliceMessageHeader at h
  grind

theorem Reading.completeHeader {m m' : Msg} {bs : List UInt8} (hr : m.Reading)
    (hne : m.headerIndex ≠ preludeMsgHdrSize) (hl : m.headerIndex.toNat + bs.length = 16)
    (h : LibPrelude.completeHeader (m.putHeader bs) = (.ok (), m')) :
    m'.Reading ∧ m'.headerIndex = preludeMsgHdrSize := by
  obtain ⟨s, hs, -, rfl⟩ := completeHeader_ok h
  obtain ⟨hsum, hpos, hlt, he⟩ := sliceMessageHeader_ok hs
  have hi : s.headerIndex = preludeMsgHdrSize := by
    rw [he, headerIndex_eq_iff]
    exact (toNat_headerIndex_putHeader bs (by omega)).trans hl
  have hidx : s.readIndex = m.readIndex := by rw [he]; rfl
  have hsz := hr.header hne
  have hlen : (m.payload.getD []).length ≤ s.size := by
    cases hp : m.payload with
    | none => simp
    | some p =>
      have := hr.length_payload p hp
      simp only [Option.getD_some, this, size, hsum]
      exact Nat.add_le_add_left (Nat.le_add_right _ _) _
  refine ⟨⟨?_, ?_, hlt, ?_, by simp, fun hn => absurd hi hn, fun _ => ⟨rfl, ?_, ?_⟩⟩, hi⟩
  · change s.hdrbuf.length = 16
    rw [he]; exact length_hdrbuf_putHeader hr.length_hdrbuf
  · change s.headerIndex.toNat ≤ 16
    rw [hi]; rfl
  · rintro p hp
    cases hp
    exact length_preludeRealloc hlen
  · change 16 ≤ s.readIndex.toNat
    rw [hidx, hsz]; exact Nat.le_add_right _ _
  · change s.readIndex.toNat < s.size
    rw [hidx, hsz]
    have hd : (m.putHeader bs).hdr = m.hdr := rfl
    rw [hd] at hsum
    simp only [size, hsum]; omega

end Msg

end LibPrelude
