import LibPrelude.Message.Resumption

/-! # Reading from the backends

A descriptor, a `FILE` and a buffer end in different ways: the first two answer an error, a
buffer answers that no byte was read. The reader asks again until it has its bytes, so on a
buffer that ends within a message it never returns.
-/

namespace LibPrelude

open Bytes Resume

/-- The bytes behind `fd_ptr` and how many of them were read. -/
structure Buffer where
  content : List UInt8
  rindex : ℕ
  rindex_le : rindex ≤ content.length

def bufferRead (count : ℕ) (pio : Buffer) : Except ErrorCode (List UInt8) × Buffer :=
  if pio.content.length - pio.rindex = 0 then (.ok [], pio)
  else
    let size := min count (pio.content.length - pio.rindex)
    (.ok ((pio.content.drop pio.rindex).take size),
      { content := pio.content, rindex := pio.rindex + size,
        rindex_le := by have := pio.rindex_le; omega })

/-- What is left of a `FILE`, and the error behind it if that is not the end of the file. -/
structure File where
  content : List UInt8
  error : Option ErrorCode

/-- One item of `count` bytes is read whole or not at all. -/
def fileRead (count : ℕ) (pio : File) : Except ErrorCode (List UInt8) × File :=
  if count = 0 then (.error .eof, pio)
  else if count ≤ pio.content.length then
    (.ok (pio.content.take count), { pio with content := pio.content.drop count })
  else (.error (pio.error.getD .eof), { pio with content := [] })

inductive Backend where
  | sys
  | file
  | buffer
  deriving DecidableEq

namespace Backend

abbrev State : Backend → Type
  | .sys => Stream
  | .file => File
  | .buffer => Buffer

def read : (b : Backend) → ℕ → b.State → Except ErrorCode (List UInt8) × b.State
  | .sys => Delivery.read
  | .file => fileRead
  | .buffer => bufferRead

def pending : (b : Backend) → b.State → List UInt8
  | .sys => Delivery.pending
  | .file => File.content
  | .buffer => fun pio => pio.content.drop pio.rindex

def final : (b : Backend) → b.State → ErrorCode
  | .sys => Delivery.final
  | .file => fun pio => pio.error.getD .eof
  | .buffer => fun _ => .eof

/-- What a read behind the end answers, unless it delivers nothing. -/
def ending : (b : Backend) → b.State → Option ErrorCode
  | .sys => fun d => some d.final
  | .file => fun pio => some (pio.error.getD .eof)
  | .buffer => fun _ => none

/-- How often a read would block. -/
def blocks : (b : Backend) → b.State → ℕ
  | .sys => fun d => Delivery.blocks d.turns
  | .file => fun _ => 0
  | .buffer => fun _ => 0

end Backend

/-- A read returns: a complete message, an error, the end of the content where it is reached, or
that it would block. -/
def ReadSettles (b : Backend) (msg : Option Msg) (s : b.State) : Prop :=
  ∃ fuel ret msg' s', preludeMsgRead b.read fuel msg s = some (ret, msg', s') ∧
    ((ret = .error .eagain ∧ b.blocks s ≠ 0) ∨
      match feed Msg.absorb (msg.getD .fresh) (b.pending s) with
      | .complete m rest => ret = .ok () ∧ msg' = some m ∧ b.pending s' = rest
      | .failed e _ => ret = .error e ∧ msg' = none
      | .starved _ => ret = .error (b.final s))

theorem settles_sys {m : Msg} (hr : m.Reading) (d : Stream) : ReadSettles .sys (some m) d := by
  obtain ⟨reply, pre, post, turns, hp, hb, hout, ha, he⟩ := readMsg_spec hr d
  refine ⟨_, _, _, _, hout, ?_⟩
  simp only [Option.getD_some, Backend.pending, Backend.final, Backend.blocks]
  rw [hp, feed_append]
  cases reply with
  | blocked m' => exact .inl ⟨rfl, Nat.ne_zero_of_lt ha.2.2⟩
  | done m' =>
    rw [ha]
    exact .inr ⟨rfl, rfl, rfl⟩
  | failed e =>
    rcases ha with ha | ⟨rfl, rfl, m', ha⟩
    · rw [ha]
      exact .inr ⟨rfl, rfl⟩
    · rw [ha]
      exact .inr rfl

/-- Reads that deliver what they are asked for as long as it is there; what a loop does once it is
not is an error or, with `none`, not to end. -/
structure Contiguous {σ : Type} (rd : ℕ → σ → Except ErrorCode (List UInt8) × σ)
    (pend : σ → List UInt8) (final : σ → Option ErrorCode) : Prop where
  read : ∀ s count, 0 < count → count ≤ (pend s).length →
    ∃ s', rd count s = (.ok ((pend s).take count), s') ∧ pend s' = (pend s).drop count ∧
      final s' = final s
  error : ∀ s count e, final s = some e → (pend s).length < count →
    ∀ fuel dst off, ∃ dst' size s',
      readMessageData rd (fuel + 1) dst off 0 count s = some (dst', size, .error e, s')
  spin : ∀ s count, final s = none → (pend s).length < count →
    ∀ fuel dst off, readMessageData rd fuel dst off 0 count s = none

theorem contiguous_file :
    Contiguous fileRead File.content fun pio => some (pio.error.getD .eof) where
  read := by
    intro pio count hpos hle
    refine ⟨{ pio with content := pio.content.drop count }, ?_, rfl, rfl⟩
    rw [fileRead, if_neg (by omega), if_pos hle]
  error := by
    rintro pio count e ⟨⟩ hlt fuel dst off
    refine ⟨dst, 0, { pio with content := [] }, ?_⟩
    rw [readMessageData, Nat.sub_zero, fileRead, if_neg (by omega), if_neg (by omega)]
  spin := by
    rintro pio count ⟨⟩

theorem bufferRead_spin {pio : Buffer} (hend : pio.content.length - pio.rindex = 0)
    {fuel size count : ℕ} (hlt : size < count) (dst : List UInt8) (off : ℕ) :
    readMessageData bufferRead fuel dst off size count pio = none := by
  induction fuel generalizing dst with
  | zero => rfl
  | succ fuel ih =>
    rw [readMessageData, bufferRead, if_pos hend]
    dsimp only
    rw [Option.bind_eq_none_iff]
    intro dst' _
    rw [List.length_nil, Nat.add_zero, if_neg hlt.ne, ih]

theorem contiguous_buffer :
    Contiguous bufferRead (fun pio => pio.content.drop pio.rindex) fun _ => none where
  read := by
    intro pio count hpos hle
    rw [List.length_drop] at hle
    have hmin : min count (pio.content.length - pio.rindex) = count := by omega
    have hrle := pio.rindex_le
    refine ⟨⟨pio.content, pio.rindex + count, by omega⟩, ?_, ?_, rfl⟩
    · rw [bufferRead, if_neg (by omega)]
      simp only [hmin]
    · rw [List.drop_drop]
  error := by
    rintro pio count e ⟨⟩
  spin := by
    intro pio count _ hlt fuel dst off
    rw [List.length_drop] at hlt
    by_cases hend : pio.content.length - pio.rindex = 0
    · exact bufferRead_spin hend (by omega) dst off
    · cases fuel with
      | zero => rfl
      | succ fuel =>
        rw [readMessageData, bufferRead, if_neg (by omega)]
        dsimp only
        rw [Option.bind_eq_none_iff]
        intro dst' _
        have hmin : min (count - 0) (pio.content.length - pio.rindex) =
            pio.content.length - pio.rindex := by omega
        simp only [hmin, List.length_take, List.length_drop, Nat.min_self, Nat.zero_add]
        rw [if_neg (by omega)]
        exact bufferRead_spin (by dsimp only; omega) hlt dst' off

/-- What a reader of such reads comes to, by what its object makes of the content. -/
def ReadsTo {σ : Type} (pend : σ → List UInt8) (final : Option ErrorCode) (enough : Prop)
    (fed : Fed Msg UInt8 Msg ErrorCode) (out : Option (Ret × Option Msg × σ)) : Prop :=
  match fed, final with
  | .complete m rest, _ => enough → ∃ s', out = some (.ok (), some m, s') ∧ pend s' = rest
  | .failed e _, _ => enough → e ≠ .eagain ∧ ∃ s', out = some (.error e, none, s')
  | .starved _, some e => enough → ∃ msg s', out = some (.error e, msg, s')
  | .starved _, none => out = none

section Contiguous

variable {σ : Type} {rd : ℕ → σ → Except ErrorCode (List UInt8) × σ} {pend : σ → List UInt8}
  {final : σ → Option ErrorCode}

variable {f : Option ErrorCode} {enough enough' : Prop} {fed : Fed Msg UInt8 Msg ErrorCode}
  {out : Option (Ret × Option Msg × σ)}

theorem ReadsTo.mono (h : ReadsTo pend f enough fed out) (he : enough' → enough) :
    ReadsTo pend f enough' fed out := by
  cases fed with
  | complete m rest => exact fun hen => h (he hen)
  | failed e rest => exact fun hen => h (he hen)
  | starved m =>
    cases f with
    | none => exact h
    | some e => exact fun hen => h (he hen)

/-- An outcome stays when the message of an error is released once more. -/
theorem ReadsTo.release (h : ReadsTo pend f enough fed out) :
    ReadsTo pend f enough fed (out.map releaseOnError) := by
  cases fed with
  | complete m rest =>
    intro hen
    obtain ⟨s', rfl, hp⟩ := h hen
    exact ⟨s', rfl, hp⟩
  | failed e rest =>
    intro hen
    obtain ⟨hne, s', rfl⟩ := h hen
    exact ⟨hne, s', by simp [releaseOnError, hne]⟩
  | starved m =>
    cases f with
    | none => exact congrArg (Option.map releaseOnError) h
    | some e =>
      intro hen
      obtain ⟨msg, s', rfl⟩ := h hen
      by_cases hne : e ≠ .eagain
      · exact ⟨none, s', by simp [releaseOnError, hne]⟩
      · exact ⟨msg, s', by simp [releaseOnError, hne]⟩

theorem Contiguous.readMessageData (hc : Contiguous rd pend final) {s : σ} {count : ℕ}
    (dst : List UInt8) (off : ℕ) (hpos : 0 < count) (hle : count ≤ (pend s).length)
    (hd : off + count ≤ dst.length) (fuel : ℕ) : ∃ s' dst',
      pend s' = (pend s).drop count ∧ final s' = final s ∧
        store dst off ((pend s).take count) = some dst' ∧
        LibPrelude.readMessageData rd (fuel + 1) dst off 0 count s =
          some (dst', count, .ok (), s') := by
  obtain ⟨s', hr, hp, hf⟩ := hc.read s count hpos hle
  have hlen : ((pend s).take count).length = count := by
    rw [List.length_take, Nat.min_eq_left hle]
  have hst : store dst off ((pend s).take count) = some _ := store_eq_some (by omega)
  refine ⟨s', _, hp, hf, hst, ?_⟩
  rw [LibPrelude.readMessageData, Nat.sub_zero, hr]
  dsimp only
  rw [Nat.add_zero, hst, Option.bind_some, hlen, Nat.zero_add, if_pos rfl]

theorem Contiguous.content (hc : Contiguous rd pend final) {fuel : ℕ}
    {msgRead : Option Msg → σ → Option (Ret × Option Msg × σ)} {m : Msg} {s : σ} (hr : m.Reading)
    (hi : m.headerIndex = preludeMsgHdrSize)
    (ih : ∀ m' s', m'.Reading → final s' = final s → (pend s').length < (pend s).length →
      ReadsTo pend (final s) ((pend s').length < fuel) (feed Msg.absorb m' (pend s'))
        (msgRead (some m') s')) :
    ReadsTo pend (final s) ((pend s).length < fuel + 1) (feed Msg.absorb m (pend s))
      ((readMessageContent rd (fuel + 1) msgRead m s).map releaseOnError) := by
  obtain ⟨hsome, hge, hlt⟩ := hr.content hi
  obtain ⟨p, hp⟩ := Option.isSome_iff_exists.mp hsome
  have hl := hr.length_payload p hp
  have hsz := hr.size_lt
  unfold maxMessageSize at hsz
  have hcount : (m.hdr.datalen + preludeMsgHdrSize - m.readIndex).toNat =
      m.size - m.readIndex.toNat := by
    have hd : (m.hdr.datalen + preludeMsgHdrSize).toNat = m.size := by
      rw [UInt32.toNat_add]; unfold Msg.size preludeMsgHdrSize at *; simp; omega
    rw [UInt32.toNat_sub_of_le _ _ (by rw [UInt32.le_iff_toNat_le]; omega), hd]
  simp only [readMessageContent, hcount, hp, Option.getD_some]
  by_cases hle : m.size - m.readIndex.toNat ≤ (pend s).length
  · obtain ⟨s', dst, hps, hf, hst, hdata⟩ := hc.readMessageData p m.readIndex.toNat
      (show 0 < m.size - m.readIndex.toNat by omega) hle (by omega) fuel
    set pre := (pend s).take (m.size - m.readIndex.toNat)
    have hlen : pre.length = m.size - m.readIndex.toNat := by
      rw [List.length_take, Nat.min_eq_left hle]
    have hpend : pend s = pre ++ pend s' := by rw [hps, List.take_append_drop]
    have hput : { m with
        payload := some dst
        readIndex := m.readIndex + UInt32.ofNat (m.size - m.readIndex.toNat) } =
          m.putBody pre := by
      simp [Msg.putBody, hp, hst, hlen]
    have hfeed : feed Msg.absorb m (pre ++ pend s') =
        (m.putBody pre).closeBody.fed Msg.absorb (pend s') :=
      Msg.feed_body hi hp hl (by omega) (List.ne_nil_of_length_pos (by omega)) (by omega) _
    rw [← hpend] at hfeed
    rw [hfeed, hdata, Option.bind_some]
    simp only [hput]
    rw [show m.hdr.isFragment = (m.putBody pre).hdr.isFragment from rfl, Msg.closeBody]
    by_cases hfrag : (m.putBody pre).hdr.isFragment ≠ 0
    · rw [if_pos hfrag, if_pos hfrag]
      have hshort : (pend s').length < (pend s).length := by
        rw [hpend, List.length_append]
        omega
      have hout := ih { m.putBody pre with headerIndex := 0 } s'
        (hr.nextFragment hi (by omega)) hf hshort
      rw [← hput] at hout ⊢
      exact hout.release.mono fun h => by omega
    · rw [if_neg hfrag, if_neg hfrag]
      exact fun _ => ⟨s', rfl, rfl⟩
  · have hfeed : feed Msg.absorb m (pend s) = .starved (m.putBody (pend s)) :=
      Msg.feed_body_unfinished hi hp hl (by omega) (by omega)
    rw [hfeed]
    cases hf : final s with
    | none =>
      rw [hc.spin s _ hf (by omega)]
      rfl
    | some e =>
      intro _
      obtain ⟨dst, size, s', hdata⟩ := hc.error s
        (m.size - m.readIndex.toNat) e hf (by omega) fuel p m.readIndex.toNat
      rw [hdata, Option.bind_some]
      simp only [Option.map_some]
      by_cases hne : e ≠ .eagain
      · exact ⟨none, s', by simp [releaseOnError, hne]⟩
      · exact ⟨_, s', by simp [releaseOnError, hne]; rfl⟩

theorem Contiguous.outcome (hc : Contiguous rd pend final) {fuel : ℕ} {m : Msg} {s : σ}
    (hr : m.Reading) : ReadsTo pend (final s) ((pend s).length < fuel)
      (feed Msg.absorb m (pend s)) (preludeMsgRead rd fuel (some m) s) := by
  induction fuel generalizing m s with
  | zero =>
    unfold ReadsTo
    split
    · exact fun h => absurd h (Nat.not_lt_zero _)
    · exact fun h => absurd h (Nat.not_lt_zero _)
    · exact fun h => absurd h (Nat.not_lt_zero _)
    · rfl
  | succ fuel ih =>
    have content {m' : Msg} {s' : σ} (hr' : m'.Reading)
        (hi : m'.headerIndex = preludeMsgHdrSize) :=
      @Contiguous.content σ rd pend final hc fuel _ m' s' hr' hi
        fun _ _ hr'' hf _ => hf ▸ ih hr''
    rw [preludeMsgRead]
    simp only [Option.getD_some]
    by_cases hi : m.headerIndex = preludeMsgHdrSize
    · have hsome := (hr.content hi).1
      rw [if_neg (not_not.mpr hi), Option.bind_some]
      simp only [hsome, and_self, if_true]
      exact content hr hi
    rw [if_pos hi]
    have hi16 : m.headerIndex.toNat ≠ 16 := fun h => hi (Msg.headerIndex_eq_iff.mpr h)
    have hle16 := hr.headerIndex_le
    have hbuf := hr.length_hdrbuf
    have hcount : (preludeMsgHdrSize - m.headerIndex).toNat = 16 - m.headerIndex.toNat :=
      UInt32.toNat_sub_of_le _ _ (by rw [UInt32.le_iff_toNat_le]; exact hle16)
    simp only [readMessageHeader, hcount]
    by_cases hle : 16 - m.headerIndex.toNat ≤ (pend s).length
    · obtain ⟨s', dst, hps, hf, hst, hdata⟩ := hc.readMessageData m.hdrbuf m.headerIndex.toNat
        (show 0 < 16 - m.headerIndex.toNat by omega) hle (by omega) fuel
      set pre := (pend s).take (16 - m.headerIndex.toNat)
      have hlen : pre.length = 16 - m.headerIndex.toNat := by
        rw [List.length_take, Nat.min_eq_left hle]
      have hpend : pend s = pre ++ pend s' := by rw [hps, List.take_append_drop]
      have hput : { m with
          hdrbuf := dst
          headerIndex := m.headerIndex + UInt32.ofNat (16 - m.headerIndex.toNat) } =
            m.putHeader pre := by
        simp [Msg.putHeader, hst, hlen]
      have hfeed : feed Msg.absorb m (pre ++ pend s') =
          (m.putHeader pre).closeHeader.fed Msg.absorb (pend s') :=
        Msg.feed_header hbuf (List.ne_nil_of_length_pos (by omega)) (by omega) _
      rw [← hpend, Msg.closeHeader] at hfeed
      rw [hfeed, hdata, Option.map_some, Option.bind_some]
      simp only [hput]
      rcases hch : completeHeader (m.putHeader pre) with ⟨e | _, m'⟩
      · simp only [reduceCtorEq, and_false, if_false, Option.map_some]
        have he := Msg.completeHeader_error hch
        exact fun _ => ⟨he, s', by simp [releaseOnError, he]⟩
      · obtain ⟨hr', hi'⟩ := hr.completeHeader hi (by omega) hch
        have hsome := (hr'.content hi').1
        simp only [hsome, and_self, if_true]
        have hout := @content m' s' hr' hi'
        rw [hf] at hout
        exact hout.mono fun h => by rw [hps, List.length_drop]; omega
    · have hfeed : feed Msg.absorb m (pend s) = .starved (m.putHeader (pend s)) :=
        Msg.feed_header_unfinished hbuf (by omega)
      rw [hfeed]
      cases hf : final s with
      | none =>
        rw [hc.spin s _ hf (by omega)]
        rfl
      | some e =>
        intro _
        obtain ⟨dst, size, s', hdata⟩ := hc.error s
          (16 - m.headerIndex.toNat) e hf (by omega) fuel m.hdrbuf m.headerIndex.toNat
        rw [hdata, Option.map_some, Option.bind_some]
        simp only [reduceCtorEq, and_false, if_false, Option.map_some]
        by_cases hne : e ≠ .eagain
        · exact ⟨none, s', by simp [releaseOnError, hne]⟩
        · exact ⟨_, s', by simp [releaseOnError, hne]; rfl⟩

end Contiguous

theorem contiguous_of_ne_sys : ∀ {b : Backend}, b ≠ .sys → Contiguous b.read b.pending b.ending
  | .sys, h => absurd rfl h
  | .file, _ => contiguous_file
  | .buffer, _ => contiguous_buffer

theorem Backend.ending_of_ne_buffer : ∀ {b : Backend}, b ≠ .buffer → ∀ s : b.State,
    b.ending s = some (b.final s)
  | .sys, _, _ => rfl
  | .file, _, _ => rfl
  | .buffer, h, _ => absurd rfl h

/-- A call settles when the content has an end or that is not reached. -/
theorem settles_of_ending {b : Backend} (hb : b ≠ .sys) {m : Msg} (hr : m.Reading) {s : b.State}
    (hf : b ≠ .buffer ∨ ∀ m', feed Msg.absorb m (b.pending s) ≠ .starved m') :
    ReadSettles b (some m) s := by
  have hout := @Contiguous.outcome _ _ _ _ (contiguous_of_ne_sys hb)
    ((b.pending s).length + 1) m s hr
  rw [ReadSettles, Option.getD_some]
  cases hfed : feed Msg.absorb m (b.pending s) with
  | complete w rest =>
    rw [hfed] at hout
    obtain ⟨s', hread, hp⟩ := hout (Nat.lt_succ_self _)
    exact ⟨_, _, _, s', hread, .inr ⟨rfl, rfl, hp⟩⟩
  | failed e rest =>
    rw [hfed] at hout
    obtain ⟨-, s', hread⟩ := hout (Nat.lt_succ_self _)
    exact ⟨_, _, _, s', hread, .inr ⟨rfl, rfl⟩⟩
  | starved m' =>
    have hne := hf.resolve_right fun h => h m' hfed
    rw [hfed, Backend.ending_of_ne_buffer hne] at hout
    obtain ⟨msg, s', hread⟩ := hout (Nat.lt_succ_self _)
    exact ⟨_, _, msg, s', hread, .inr rfl⟩

theorem msgRead_buffer_spin {m m' : Msg} (hr : m.Reading) {pio : Buffer}
    (h : feed Msg.absorb m (pio.content.drop pio.rindex) = .starved m') (fuel : ℕ) :
    preludeMsgRead bufferRead fuel (some m) pio = none := by
  have hout := @Contiguous.outcome _ _ _ _ contiguous_buffer fuel m pio hr
  rwa [h] at hout

theorem not_settles_buffer {m m' : Msg} (hr : m.Reading) {pio : Buffer}
    (h : feed Msg.absorb m (pio.content.drop pio.rindex) = .starved m') :
    ¬ ReadSettles .buffer (some m) pio := by
  rintro ⟨fuel, ret, msg', s', hread, -⟩
  have hnone : preludeMsgRead bufferRead fuel (some m) pio = none := msgRead_buffer_spin hr h fuel
  exact Option.some_ne_none _ (hread.symm.trans hnone)

theorem settles_none {b : Backend} {s : b.State} :
    ReadSettles b none s ↔ ReadSettles b (some .fresh) s := by
  have heq (fuel : ℕ) : preludeMsgRead b.read fuel none s =
      preludeMsgRead b.read fuel (some .fresh) s := by
    cases fuel <;> rfl
  simp only [ReadSettles, heq, Option.getD_none, Option.getD_some]

theorem settles_iff_of_reading (b : Backend) {m : Msg} (hr : m.Reading) (s : b.State) :
    ReadSettles b (some m) s ↔
      (b = .buffer → ∀ m', feed Msg.absorb m (b.pending s) ≠ .starved m') := by
  cases b with
  | sys => exact ⟨fun _ => nofun, fun _ => settles_sys hr s⟩
  | file =>
    exact ⟨fun _ => nofun, fun _ => settles_of_ending (b := .file) nofun hr (.inl nofun)⟩
  | buffer =>
    constructor
    · intro h _ m' hst
      exact not_settles_buffer hr hst h
    · exact fun h => settles_of_ending (b := .buffer) nofun hr (.inr (h rfl))

/-- Reading a message returns on every backend, except on a buffer that ends within the
message. -/
theorem msgRead_settles_iff (b : Backend) (msg : Option Msg) (hr : ∀ m ∈ msg, m.Reading)
    (s : b.State) : ReadSettles b msg s ↔
      (b = .buffer → ∀ m, feed Msg.absorb (msg.getD .fresh) (b.pending s) ≠ .starved m) := by
  cases msg with
  | none => rw [settles_none, settles_iff_of_reading b Msg.reading_fresh, Option.getD_none]
  | some m => rw [settles_iff_of_reading b (hr m rfl), Option.getD_some]

def halfRead : Msg :=
  { Msg.fresh with
    readIndex := 17, headerIndex := 16, writeIndex := 18, hdr := ⟨0, 0, 0, 0, 2, 0, 0⟩
    payload := some (List.replicate 16 0 ++ [7, 0]) }

theorem reading_halfRead : halfRead.Reading where
  length_hdrbuf := rfl
  headerIndex_le := le_rfl
  datalen_lt := by decide
  length_payload := by simp [halfRead, Msg.size]
  payload_none := by simp [halfRead]
  header := by simp [halfRead, preludeMsgHdrSize]
  content := fun _ => ⟨rfl, by decide⟩

/-- The message is completed from a buffer that goes on behind it, and a `FILE` that ends within it
says so. -/
theorem msgRead_settles_half :
    ReadSettles .buffer (some halfRead) (⟨[7, 8, 9], 1, by decide⟩ : Buffer) ∧
      ReadSettles .file (some halfRead) (⟨[], none⟩ : File) := by
  have hr : ∀ m ∈ some halfRead, m.Reading := by
    rintro m ⟨⟩
    exact reading_halfRead
  refine ⟨(msgRead_settles_iff .buffer _ hr _).mpr fun _ m hm => ?_,
    (msgRead_settles_iff .file _ hr _).mpr (by rintro ⟨⟩)⟩
  cases hm

theorem not_settles_empty : ¬ ReadSettles .buffer none (⟨[], 0, Nat.le_refl 0⟩ : Buffer) :=
  fun h => not_settles_buffer Msg.reading_fresh rfl (settles_none.mp h)

end LibPrelude
