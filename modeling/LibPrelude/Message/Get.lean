import LibPrelude.Message.Read

/-! # Getting the chunks of a message

The data of a received message is a sequence of chunks: a tag, a length and as
many bytes. Every access to the payload is checked against the allocated size,
so a get that would leave it has no result.
-/

namespace LibPrelude

open Bytes

/-- The output parameters of a get; the pointer is an offset in the payload, unset at first. -/
structure Chunk where
  tag : UInt8
  len : UInt32
  buf : Option ℕ
  deriving DecidableEq, Repr

/-- The pointer is left as it was when the chunk is empty. -/
def preludeMsgGet (m : Msg) (out : Chunk) : Option (Ret × Msg × Chunk) :=
  if m.readIndex = m.hdr.datalen + preludeMsgHdrSize then some (.error .eof, m, out)
  else if m.readIndex > m.hdr.datalen + preludeMsgHdrSize - 5 then
    some (.error .invalLength, m, out)
  else do
    let payload ← m.payload
    let tag ← load payload m.readIndex.toNat 1
    let len ← load payload (m.readIndex + 1).toNat 4
    let m := { m with readIndex := m.readIndex + 1 + 4 }
    let out := { out with tag := tag.getD 0 0, len := extractUint32 len 0 }
    if out.len = 0 then some (.ok (), m, out)
    else if m.readIndex + out.len ≤ m.readIndex then some (.error .invalLength, m, out)
    else if m.readIndex + out.len > m.hdr.datalen + preludeMsgHdrSize then
      some (.error .invalLength, m, out)
    else some (.ok (), { m with readIndex := m.readIndex + out.len },
      { out with buf := some m.readIndex.toNat })

/-- The bytes a get returned: none at all for an empty chunk, whatever the pointer. -/
def Chunk.bytes (m : Msg) (out : Chunk) : Option (List UInt8) :=
  if out.len = 0 then some []
  else do load (← m.payload) (← out.buf) out.len.toNat

def getAll : ℕ → Msg → Chunk → Option (List (UInt8 × List UInt8) × ErrorCode)
  | 0, _, _ => none
  | fuel + 1, m, out => do
    match ← preludeMsgGet m out with
    | (.error e, _, _) => some ([], e)
    | (.ok (), m, out) => do
      let bytes ← out.bytes m
      let (chunks, e) ← getAll fuel m out
      some ((out.tag, bytes) :: chunks, e)

/-- A message whose data is delimited by its length and whose index is inside of it. -/
structure Msg.Readable (m : Msg) : Prop where
  datalen_pos : 0 < m.hdr.datalen.toNat
  datalen_lt : m.hdr.datalen.toNat < maxMessageSize
  length_payload : ∃ p, m.payload = some p ∧ p.length = 16 + m.hdr.datalen.toNat
  readIndex_ge : 16 ≤ m.readIndex.toNat
  readIndex_le : m.readIndex.toNat ≤ 16 + m.hdr.datalen.toNat

theorem Msg.Readable.toNat_end {m : Msg} (h : m.Readable) :
    (m.hdr.datalen + preludeMsgHdrSize).toNat = 16 + m.hdr.datalen.toNat := by
  have := h.datalen_lt
  rw [UInt32.toNat_add]
  unfold maxMessageSize at this
  simp [preludeMsgHdrSize]; omega

/-- What one get does: nothing at the end, nothing in a rest too short for a chunk, only the
head consumed when the length overruns the message, or a chunk returned. -/
inductive Got (m : Msg) (out : Chunk) : Ret → Msg → Chunk → Prop where
  | eof : m.readIndex.toNat = 16 + m.hdr.datalen.toNat → Got m out (.error .eof) m out
  | cut : m.readIndex.toNat ≠ 16 + m.hdr.datalen.toNat →
      16 + m.hdr.datalen.toNat < m.readIndex.toNat + 5 →
      Got m out (.error .invalLength) m out
  | overrun {p : List UInt8} {tag : UInt8} {bs : List UInt8} : m.payload = some p →
      load p m.readIndex.toNat 5 = some (tag :: bs) →
      16 + m.hdr.datalen.toNat < m.readIndex.toNat + 5 + (extractUint32 bs 0).toNat →
      Got m out (.error .invalLength) { m with readIndex := m.readIndex + 5 }
        { out with tag, len := extractUint32 bs 0 }
  | empty {p : List UInt8} {tag : UInt8} {bs : List UInt8} : m.payload = some p →
      load p m.readIndex.toNat 5 = some (tag :: bs) → extractUint32 bs 0 = 0 →
      Got m out (.ok ()) { m with readIndex := m.readIndex + 5 } { out with tag, len := 0 }
  | chunk {p : List UInt8} {tag : UInt8} {bs : List UInt8} : m.payload = some p →
      load p m.readIndex.toNat 5 = some (tag :: bs) → extractUint32 bs 0 ≠ 0 →
      m.readIndex.toNat + 5 + (extractUint32 bs 0).toNat ≤ 16 + m.hdr.datalen.toNat →
      Got m out (.ok ()) { m with readIndex := m.readIndex + 5 + extractUint32 bs 0 }
        ⟨tag, extractUint32 bs 0, some (m.readIndex.toNat + 5)⟩

theorem load_succ {p : List UInt8} (off k : ℕ) (h : off + (k + 1) ≤ p.length) :
    ∃ a bs, load p off (k + 1) = some (a :: bs) ∧ load p off 1 = some [a] ∧
      load p (off + 1) k = some bs := by
  have ha : off < p.length := by omega
  refine ⟨p[off], (p.drop (off + 1)).take k, ?_, ?_, load_eq_some (by omega)⟩
  · rw [load_eq_some h, List.drop_eq_getElem_cons ha, List.take_succ_cons]
  · rw [load_eq_some (by omega), List.drop_eq_getElem_cons ha, List.take_succ_cons, List.take_zero]

theorem preludeMsgGet_spec {m : Msg} (h : m.Readable) (out : Chunk) :
    ∃ ret m' out', preludeMsgGet m out = some (ret, m', out') ∧ Got m out ret m' out' := by
  have he := h.toNat_end
  have hlt := h.datalen_lt
  have hle := h.readIndex_le
  unfold maxMessageSize at hlt
  obtain ⟨p, hp, hl⟩ := h.length_payload
  have hpos := h.datalen_pos
  have hend : (m.hdr.datalen + preludeMsgHdrSize - 5).toNat = 11 + m.hdr.datalen.toNat := by
    rw [UInt32.toNat_sub_of_le _ _ (by rw [UInt32.le_iff_toNat_le, he]; simp; omega), he]
    simp; omega
  by_cases h₁ : m.readIndex = m.hdr.datalen + preludeMsgHdrSize
  · exact ⟨_, _, _, if_pos h₁, .eof (by rw [h₁, he])⟩
  by_cases h₂ : m.readIndex > m.hdr.datalen + preludeMsgHdrSize - 5
  · refine ⟨_, _, _, by rw [preludeMsgGet, if_neg h₁, if_pos h₂], .cut ?_ ?_⟩
    · rwa [← he, ne_eq, UInt32.toNat_inj]
    rw [gt_iff_lt, UInt32.lt_iff_toNat_lt, hend] at h₂
    omega
  have hroom : m.readIndex.toNat + 5 ≤ 16 + m.hdr.datalen.toNat := by
    rw [gt_iff_lt, UInt32.lt_iff_toNat_lt, hend] at h₂
    omega
  have hi₁ : (m.readIndex + 1).toNat = m.readIndex.toNat + 1 := toNat_add_of_lt (by simp; omega)
  have hi₅ : (m.readIndex + 5).toNat = m.readIndex.toNat + 5 := toNat_add_of_lt (by simp; omega)
  have h₅ : m.readIndex + 1 + 4 = m.readIndex + 5 := by rw [UInt32.add_assoc]; rfl
  obtain ⟨tag, bs, hload, htag, hbs⟩ :=
    load_succ (p := p) m.readIndex.toNat 4 (by omega)
  have hover {n : UInt32} : m.readIndex + 5 + n ≤ m.readIndex + 5 ↔
      n = 0 ∨ 2 ^ 32 ≤ m.readIndex.toNat + 5 + n.toNat := by
    have hn := n.toNat_lt
    rw [UInt32.le_iff_toNat_le, UInt32.toNat_add, hi₅, ← UInt32.toNat_inj]
    simp; omega
  simp only [preludeMsgGet, if_neg h₁, if_neg h₂, hp, hi₁, htag, hbs, h₅, Option.bind_eq_bind,
    Option.bind_some, List.getD_cons_zero]
  rw [← hp]
  by_cases h₃ : extractUint32 bs 0 = 0
  · refine ⟨_, _, _, if_pos h₃, ?_⟩
    rw [h₃]
    exact .empty hp hload h₃
  rw [if_neg h₃]
  by_cases h₄ : 2 ^ 32 ≤ m.readIndex.toNat + 5 + (extractUint32 bs 0).toNat
  · exact ⟨_, _, _, if_pos (hover.mpr (.inr h₄)), .overrun hp hload (by omega)⟩
  have hsum : (m.readIndex + 5 + extractUint32 bs 0).toNat =
      m.readIndex.toNat + 5 + (extractUint32 bs 0).toNat := by
    rw [toNat_add_of_lt (by omega), hi₅]
  rw [if_neg fun hc => (hover.mp hc).elim h₃ h₄]
  have hgt : m.readIndex + 5 + extractUint32 bs 0 > m.hdr.datalen + preludeMsgHdrSize ↔
      16 + m.hdr.datalen.toNat < m.readIndex.toNat + 5 + (extractUint32 bs 0).toNat := by
    rw [gt_iff_lt, UInt32.lt_iff_toNat_lt, hsum, he]
  by_cases h₆ : m.readIndex + 5 + extractUint32 bs 0 > m.hdr.datalen + preludeMsgHdrSize
  · exact ⟨_, _, _, if_pos h₆, .overrun hp hload (hgt.mp h₆)⟩
  · refine ⟨_, _, _, if_neg h₆, ?_⟩
    rw [hi₅]
    exact .chunk hp hload h₃ (by rw [hgt] at h₆; omega)

theorem Got.hdr_eq {m m' : Msg} {out out' : Chunk} {ret : Ret} (hg : Got m out ret m' out') :
    m'.hdr = m.hdr := by
  cases hg <;> rfl

theorem Got.payload_eq {m m' : Msg} {out out' : Chunk} {ret : Ret}
    (hg : Got m out ret m' out') : m'.payload = m.payload := by
  cases hg <;> rfl

theorem Got.head {m m' : Msg} {out out' : Chunk} (hg : Got m out (.ok ()) m' out') :
    ∃ p tag bs, m.payload = some p ∧ load p m.readIndex.toNat 5 = some (tag :: bs) ∧
      out'.tag = tag ∧ out'.len = extractUint32 bs 0 := by
  cases hg with
  | empty hp hl h0 => exact ⟨_, _, _, hp, hl, rfl, h0.symm⟩
  | chunk hp hl _ _ => exact ⟨_, _, _, hp, hl, rfl, rfl⟩

theorem Msg.Readable.room {m : Msg} (h : m.Readable) {p bs : List UInt8} (hp : m.payload = some p)
    (hl : load p m.readIndex.toNat 5 = some bs) :
    m.readIndex.toNat + 5 ≤ 16 + m.hdr.datalen.toNat := by
  obtain ⟨q, hq, hql⟩ := h.length_payload
  obtain rfl := Option.some.inj (hp.symm.trans hq)
  unfold load at hl
  split at hl
  · omega
  · cases hl

theorem Got.toNat_readIndex {m m' : Msg} {out out' : Chunk} (h : m.Readable)
    (hg : Got m out (.ok ()) m' out') :
    m'.readIndex.toNat = m.readIndex.toNat + 5 + out'.len.toNat ∧
      m.readIndex.toNat + 5 + out'.len.toNat ≤ 16 + m.hdr.datalen.toNat := by
  have hlt := h.datalen_lt
  unfold maxMessageSize at hlt
  have h₅ : m.readIndex.toNat + 5 ≤ 16 + m.hdr.datalen.toNat := by
    cases hg with
    | empty hp hl _ => exact h.room hp hl
    | chunk hp hl _ _ => exact h.room hp hl
  have hi₅ : (m.readIndex + 5).toNat = m.readIndex.toNat + 5 := toNat_add_of_lt (by simp; omega)
  cases hg with
  | empty hp hl _ => exact ⟨hi₅, h₅⟩
  | chunk hp hl _ hle => exact ⟨by rw [toNat_add_of_lt (by omega), hi₅], hle⟩

/-- The chunk a successful get returns lies inside the payload, behind its own head. -/
theorem Got.chunk_inside {m m' : Msg} {out out' : Chunk} (hg : Got m out (.ok ()) m' out') :
    (out'.len = 0 ∧ out'.buf = out.buf) ∨ (∃ off, out'.buf = some off ∧
      off = m.readIndex.toNat + 5 ∧ off + out'.len.toNat ≤ 16 + m.hdr.datalen.toNat) := by
  cases hg with
  | empty _ _ _ => exact .inl ⟨rfl, rfl⟩
  | chunk _ _ _ hle => exact .inr ⟨_, rfl, rfl, hle⟩

theorem Got.error {m m' : Msg} {out out' : Chunk} {e : ErrorCode} (h : m.Readable)
    (hg : Got m out (.error e) m' out') :
    m'.readIndex.toNat ≤ m.readIndex.toNat + 5 ∧ out'.buf = out.buf := by
  cases hg with
  | eof => exact ⟨Nat.le_add_right _ _, rfl⟩
  | cut => exact ⟨Nat.le_add_right _ _, rfl⟩
  | overrun hp hl _ =>
    have hlt := h.datalen_lt
    have h₅ := h.room hp hl
    unfold maxMessageSize at hlt
    have hi₅ : (m.readIndex + 5).toNat = m.readIndex.toNat + 5 :=
      toNat_add_of_lt (by simp; omega)
    exact ⟨hi₅.le, rfl⟩

theorem Got.readable {m m' : Msg} {out out' : Chunk} {ret : Ret} (h : m.Readable)
    (hg : Got m out ret m' out') : m'.Readable := by
  have hge := h.readIndex_ge
  have hle : m'.readIndex.toNat ≤ 16 + m.hdr.datalen.toNat ∧
      m.readIndex.toNat ≤ m'.readIndex.toNat := by
    have hlt := h.datalen_lt
    unfold maxMessageSize at hlt
    cases ret with
    | ok =>
      have := hg.toNat_readIndex h
      omega
    | error e => cases hg with
      | eof => exact ⟨h.readIndex_le, le_rfl⟩
      | cut => exact ⟨h.readIndex_le, le_rfl⟩
      | overrun hp hl _ =>
        have h₅ := h.room hp hl
        have hi₅ : (m.readIndex + 5).toNat = m.readIndex.toNat + 5 :=
          toNat_add_of_lt (by simp; omega)
        simp only [hi₅]
        omega
  have hhdr := hg.hdr_eq
  have hpay := hg.payload_eq
  refine ⟨?_, ?_, ?_, by omega, ?_⟩
  · rw [hhdr]; exact h.datalen_pos
  · rw [hhdr]; exact h.datalen_lt
  · rw [hhdr, hpay]; exact h.length_payload
  · rw [hhdr]; exact hle.1

theorem Got.bytes_isSome {m m' : Msg} {out out' : Chunk} (h : m.Readable)
    (hg : Got m out (.ok ()) m' out') : (out'.bytes m').isSome := by
  rcases hg.chunk_inside with ⟨hlen, -⟩ | ⟨off, hbuf, -, hle⟩
  · simp [Chunk.bytes, hlen]
  · obtain ⟨p, hp, hl⟩ := h.length_payload
    rw [Chunk.bytes]
    split
    · rfl
    · rw [hg.payload_eq, hp, hbuf]
      simp [load, hl, hle]

/-- Getting chunks until an error ends, after at most one get for each five bytes left. -/
theorem getAll_isSome (fuel : ℕ) {m : Msg} (h : m.Readable) (out : Chunk)
    (hf : 16 + m.hdr.datalen.toNat < m.readIndex.toNat + 5 * fuel) :
    (getAll fuel m out).isSome := by
  induction fuel generalizing m out with
  | zero =>
    have := h.readIndex_le
    omega
  | succ fuel ih =>
    obtain ⟨ret, m', out', hget, hg⟩ := preludeMsgGet_spec h out
    cases ret with
    | error e => simp [getAll, hget]
    | ok =>
      obtain ⟨bytes, hb⟩ := Option.isSome_iff_exists.mp (hg.bytes_isSome h)
      have hi := hg.toNat_readIndex h
      obtain ⟨⟨chunks, e⟩, hrest⟩ := Option.isSome_iff_exists.mp
        (ih (hg.readable h) out' (by rw [hg.hdr_eq]; omega))
      simp [getAll, hget, hb, hrest]

/-- A chunk as it is laid out in the data of a message. -/
def chunkBytes (chunk : UInt8 × List UInt8) : List UInt8 :=
  chunk.1 :: (beBytes 4 chunk.2.length ++ chunk.2)

theorem length_chunkBytes (chunk : UInt8 × List UInt8) :
    (chunkBytes chunk).length = 5 + chunk.2.length := by
  simp [chunkBytes]; omega

theorem extractUint32_length {n : ℕ} (h : n < 2 ^ 32) :
    extractUint32 (beBytes 4 n) 0 = UInt32.ofNat n := by
  have := extractUint32_beBytes [] [] (UInt32.ofNat n)
  rwa [UInt32.toNat_ofNat_of_lt' h, List.nil_append, List.append_nil] at this

theorem preludeMsgGet_chunk {m : Msg} (h : m.Readable) {p rest : List UInt8}
    {chunk : UInt8 × List UInt8} (hp : m.payload = some p)
    (hd : p.drop m.readIndex.toNat = chunkBytes chunk ++ rest) (out : Chunk) :
    ∃ m' out', preludeMsgGet m out = some (.ok (), m', out') ∧ Got m out (.ok ()) m' out' ∧
      out'.tag = chunk.1 ∧ out'.bytes m' = some chunk.2 ∧
      p.drop m'.readIndex.toNat = rest := by
  obtain ⟨q, hq, hl⟩ := h.length_payload
  obtain rfl := Option.some.inj (hp.symm.trans hq)
  obtain ⟨tag, data⟩ := chunk
  have hlt := h.datalen_lt
  unfold maxMessageSize at hlt
  have hlen : p.length = m.readIndex.toNat + (5 + data.length + rest.length) := by
    have := congrArg List.length hd
    have hle := h.readIndex_le
    rw [List.length_drop, List.length_append, length_chunkBytes] at this
    dsimp only at this
    omega
  have hload : load p m.readIndex.toNat 5 = some (tag :: beBytes 4 data.length) := by
    rw [load_eq_some (by omega), hd, chunkBytes, List.cons_append, List.take_succ_cons,
      List.append_assoc, List.take_left' (length_beBytes 4 _)]
  have hsize : (extractUint32 (beBytes 4 data.length) 0).toNat = data.length := by
    rw [extractUint32_length (by omega), UInt32.toNat_ofNat', Nat.mod_eq_of_lt (by omega)]
  obtain ⟨ret, m', out', hget, hg⟩ := preludeMsgGet_spec h out
  have hok : ret = .ok () := by
    cases hg with
    | eof he => omega
    | cut _ he => omega
    | overrun hr hb ho =>
      obtain rfl := Option.some.inj (hp.symm.trans hr)
      rw [hload] at hb
      cases hb
      omega
    | empty => rfl
    | chunk => rfl
  subst hok
  obtain ⟨r, tag', bs, hr, hb, htag, hlen'⟩ := hg.head
  obtain rfl := Option.some.inj (hp.symm.trans hr)
  obtain ⟨rfl, rfl⟩ := List.cons.inj (Option.some.inj (hload.symm.trans hb))
  rw [← hlen'] at hsize
  have hdrop (k : ℕ) : p.drop (m.readIndex.toNat + 5 + k) = (data ++ rest).drop k := by
    rw [Nat.add_assoc, ← List.drop_drop, hd, chunkBytes, ← List.drop_drop]
    simp
  have hrest : p.drop m'.readIndex.toNat = rest := by
    rw [(hg.toNat_readIndex h).1, hsize, hdrop, List.drop_left]
  refine ⟨m', out', hget, hg, htag, ?_, hrest⟩
  have hbody := hdrop 0
  rw [Nat.add_zero, List.drop_zero] at hbody
  rcases hg.chunk_inside with ⟨h0, -⟩ | ⟨off, hbuf, rfl, -⟩
  · rw [h0, UInt32.toNat_zero] at hsize
    rw [Chunk.bytes, if_pos h0, List.length_eq_zero_iff.mp hsize.symm]
  · unfold Chunk.bytes
    split
    · next h0 =>
      rw [h0, UInt32.toNat_zero] at hsize
      rw [List.length_eq_zero_iff.mp hsize.symm]
    · rw [hg.payload_eq, hp, hbuf]
      simp only [Option.bind_eq_bind, Option.bind_some]
      rw [hsize, load_eq_some (by omega), hbody, List.take_left]

theorem getAll_chunks {m : Msg} (h : m.Readable) {p : List UInt8} (hp : m.payload = some p)
    {chunks : List (UInt8 × List UInt8)}
    (hd : p.drop m.readIndex.toNat = chunks.flatMap chunkBytes) {fuel : ℕ}
    (hf : chunks.length < fuel) (out : Chunk) : getAll fuel m out = some (chunks, .eof) := by
  induction fuel generalizing m chunks out with
  | zero => omega
  | succ fuel ih =>
    cases chunks with
    | nil =>
      obtain ⟨q, hq, hl⟩ := h.length_payload
      obtain rfl := Option.some.inj (hp.symm.trans hq)
      have hlen := congrArg List.length hd
      rw [List.length_drop] at hlen
      have hend : m.readIndex = m.hdr.datalen + preludeMsgHdrSize := by
        rw [← UInt32.toNat_inj, h.toNat_end]
        have := h.readIndex_le
        simp at hlen
        omega
      simp [getAll, preludeMsgGet, hend]
    | cons chunk chunks =>
      rw [List.flatMap_cons] at hd
      obtain ⟨m', out', hget, hg, ht, hb, hrest⟩ := preludeMsgGet_chunk h hp hd out
      have hall := ih (hg.readable h) (hg.payload_eq.trans hp) hrest (by simpa using hf) out'
      simp [getAll, hget, hb, hall, ht]

end LibPrelude
