import LibPrelude.Message.Absorb

/-! # Resuming an interrupted read

One call of the reader absorbs the bytes that it takes off the stream and
nothing else. What a session of calls yields is therefore independent of the
sizes of the reads and of the would-block errors in between.
-/

namespace LibPrelude

open Bytes Resume

/-- A round of reads stores a prefix of the stream, up to the error that cuts it short. -/
theorem readMessageData_spec {fuel : ℕ} {d : Stream} (dst : List UInt8) (off size count : ℕ)
    (hf : d.pending.length < fuel) (hs : size < count) (hd : off + count ≤ dst.length) :
    ∃ pre post turns dst' ret, d.pending = pre ++ post ∧
      Delivery.blocks turns ≤ Delivery.blocks d.turns ∧
      store dst (off + size) pre = some dst' ∧
      readMessageData Delivery.read fuel dst off size count d =
        some (dst', size + pre.length, ret, d.advance post turns) ∧
      ((ret = .ok () ∧ size + pre.length = count) ∨
        (size + pre.length < count ∧ ret = .error .eagain ∧
          Delivery.blocks turns < Delivery.blocks d.turns) ∨
        (size + pre.length < count ∧ ret = .error d.final ∧ post = [])) := by
  induction fuel generalizing size dst d with
  | zero => omega
  | succ fuel ih =>
    have hnil : store dst (off + size) [] = some dst := by
      rw [store_eq_some (by simp; omega)]; simp
    rw [readMessageData]
    rcases d.read_cases (show 0 < count - size by omega) with
      ⟨xs, post, turns, hn, hle, hp, hb, hr⟩ | ⟨turns, hb, hr⟩ | ⟨turns, hp, hb, hr⟩
    · have hpos := List.length_pos_iff.mpr hn
      have hst : store dst (off + size) xs = some _ := store_eq_some (by omega)
      simp only [hr, hst, Option.bind_some]
      by_cases hfull : size + xs.length = count
      · exact ⟨xs, post, turns, _, _, hp, hb, hst, if_pos hfull, .inl ⟨rfl, hfull⟩⟩
      · have hlen : d.pending.length = xs.length + post.length := by simp [hp]
        have hl := length_of_store hst
        obtain ⟨pre, post', turns', dst', ret, hp', hb', hst', hr', hret⟩ :=
          ih (d := d.advance post turns) _ (size + xs.length) (by simp; omega) (by omega)
            (hl.symm ▸ hd)
        refine ⟨xs ++ pre, post', turns', dst', ret, ?_, hb'.trans hb, ?_, ?_, ?_⟩
        · rw [hp, List.append_assoc, ← hp', Delivery.advance_pending]
        · rw [← store_store, hst, Option.bind_some, ← hst', Nat.add_assoc]
        · rw [if_neg hfull, hr']; simp [Nat.add_assoc]
        · rw [List.length_append, ← Nat.add_assoc]
          exact hret.imp_right (Or.imp_left fun ⟨h₁, h₂, h₃⟩ => ⟨h₁, h₂, h₃.trans_le hb⟩)
    · exact ⟨[], d.pending, turns, dst, _, rfl, hb.le, hnil, by simp [hr],
        .inr (.inl ⟨by simpa using hs, rfl, hb⟩)⟩
    · exact ⟨[], [], turns, dst, _, hp, hb, hnil, by simp [hr],
        .inr (.inr ⟨by simpa using hs, rfl, rfl⟩)⟩

/-- The return value and the message pointer of a reply. -/
def result (d : Stream) : Reply Msg Msg ErrorCode → Ret × Option Msg × Stream
  | .blocked m => (.error .eagain, some m, d)
  | .done m => (.ok (), some m, d)
  | .failed e => (.error e, none, d)

/-- A call that reads into `m` absorbs the bytes that it takes off the stream. -/
def CallSpec (m : Msg) (d : Stream) (out : Option (Ret × Option Msg × Stream)) : Prop :=
  ∃ reply pre post turns, d.pending = pre ++ post ∧
    Delivery.blocks turns ≤ Delivery.blocks d.turns ∧
    out = some (result (d.advance post turns) reply) ∧
    Agrees Msg.absorb Msg.Reading m d pre post turns reply ∧
    ∀ e, reply = .failed e → e ≠ .eagain

theorem releaseOnError_result {d : Stream} {reply : Reply Msg Msg ErrorCode}
    (h : ∀ e, reply = .failed e → e ≠ .eagain) :
    releaseOnError (result d reply) = result d reply := by
  cases reply with
  | blocked m => rfl
  | done m => rfl
  | failed e => simp [result, releaseOnError]

theorem CallSpec.of_starved {m m' : Msg} {d : Stream} {pre post : List UInt8}
    {turns : List Turn} {out : Option (Ret × Option Msg × Stream)}
    (hp : d.pending = pre ++ post) (hb : Delivery.blocks turns ≤ Delivery.blocks d.turns)
    (hf : feed Msg.absorb m pre = .starved m') (h : CallSpec m' (d.advance post turns) out) :
    CallSpec m d out := by
  obtain ⟨reply, pre', post', turns', hp', hb', hout, ha, he⟩ := h
  refine ⟨reply, pre ++ pre', post', turns', ?_, hb'.trans hb, hout, ha.of_starved hf hb, he⟩
  rw [hp, List.append_assoc, ← hp', Delivery.advance_pending]

theorem CallSpec.of_fail {m : Msg} {d : Stream} {pre post : List UInt8} {turns : List Turn}
    {e : ErrorCode} (hp : d.pending = pre ++ post)
    (hb : Delivery.blocks turns ≤ Delivery.blocks d.turns) (he : e ≠ .eagain)
    (hf : feed Msg.absorb m pre = .failed e []) :
    CallSpec m d (some (.error e, none, d.advance post turns)) :=
  ⟨.failed e, pre, post, turns, hp, hb, rfl, .inl hf, by rintro _ ⟨⟩; exact he⟩

theorem CallSpec.of_error {m m' : Msg} {d : Stream} {pre post : List UInt8} {turns : List Turn}
    {e : ErrorCode} (hp : d.pending = pre ++ post)
    (hb : Delivery.blocks turns ≤ Delivery.blocks d.turns)
    (hf : feed Msg.absorb m pre = .starved m') (hm : m'.Reading)
    (he : (e = .eagain ∧ Delivery.blocks turns < Delivery.blocks d.turns) ∨
      (e = d.final ∧ post = [])) :
    CallSpec m d (some (releaseOnError (.error e, some m', d.advance post turns))) := by
  rcases he with ⟨rfl, hlt⟩ | ⟨rfl, rfl⟩
  · exact ⟨.blocked m', pre, post, turns, hp, hb, rfl, ⟨hf, hm, hlt⟩, by rintro _ ⟨⟩⟩
  · refine ⟨.failed d.final, pre, [], turns, hp, hb, ?_, .inr ⟨rfl, rfl, m', hf⟩, ?_⟩
    · simp [releaseOnError, result, d.final_ne]
    · rintro _ ⟨⟩; exact d.final_ne

namespace Msg

theorem Reading.putHeader {m : Msg} (hr : m.Reading) {bs : List UInt8}
    (h : m.headerIndex.toNat + bs.length < 16) : (m.putHeader bs).Reading := by
  have hi := toNat_headerIndex_putHeader (m := m) bs (by omega)
  have hne : m.headerIndex ≠ preludeMsgHdrSize := by rw [ne_eq, headerIndex_eq_iff]; omega
  have hne' : (m.putHeader bs).headerIndex ≠ preludeMsgHdrSize := by
    rw [ne_eq, headerIndex_eq_iff]; omega
  exact ⟨length_hdrbuf_putHeader hr.length_hdrbuf, by omega, hr.datalen_lt, hr.length_payload,
    hr.payload_none, fun _ => hr.header hne, fun hc => absurd hc hne'⟩

theorem Reading.putBody {m : Msg} (hr : m.Reading) (hc : m.headerIndex = preludeMsgHdrSize)
    {bs : List UInt8} (h : m.readIndex.toNat + bs.length < m.size) : (m.putBody bs).Reading := by
  obtain ⟨hsome, hge, hlt⟩ := hr.content hc
  obtain ⟨p, hp⟩ := Option.isSome_iff_exists.mp hsome
  obtain ⟨q, hq, hql⟩ := payload_putBody bs hp
  have hsz := hr.size_lt
  have hi := toNat_readIndex_putBody (m := m) bs (by unfold maxMessageSize at hsz; omega)
    (by omega)
  refine ⟨hr.length_hdrbuf, hr.headerIndex_le, hr.datalen_lt, ?_, by simp [hq], ?_, fun _ => ?_⟩
  · intro q' hq'
    obtain rfl := Option.some.inj (hq.symm.trans hq')
    rw [hql, hr.length_payload p hp]; rfl
  · exact fun hn => absurd hc hn
  · rw [size_putBody]
    exact ⟨by simp [hq], by omega, by omega⟩

theorem Reading.nextFragment {m : Msg} (hr : m.Reading) (hc : m.headerIndex = preludeMsgHdrSize)
    {bs : List UInt8} (h : m.readIndex.toNat + bs.length = m.size) :
    ({ m.putBody bs with headerIndex := 0 } : Msg).Reading := by
  obtain ⟨hsome, hge, hlt⟩ := hr.content hc
  obtain ⟨p, hp⟩ := Option.isSome_iff_exists.mp hsome
  obtain ⟨q, hq, hql⟩ := payload_putBody bs hp
  have hsz := hr.size_lt
  have hi := toNat_readIndex_putBody (m := m) bs (by unfold maxMessageSize at hsz; omega)
    (by omega)
  refine ⟨hr.length_hdrbuf, by simp, hr.datalen_lt, ?_, by simp [hq], fun _ => ?_, ?_⟩
  · intro q' hq'
    obtain rfl := Option.some.inj (hq.symm.trans hq')
    rw [hql, hr.length_payload p hp]; rfl
  · exact hi.trans h
  · simp [preludeMsgHdrSize]

end Msg

theorem readMessageContent_spec {fuel : ℕ}
    {msgRead : Option Msg → Stream → Option (Ret × Option Msg × Stream)} {m : Msg} {d : Stream}
    (hr : m.Reading) (hc : m.headerIndex = preludeMsgHdrSize) (hf : d.pending.length < fuel)
    (ih : ∀ m' d', m'.Reading → d'.pending.length < d.pending.length →
      CallSpec m' d' (msgRead (some m') d')) :
    CallSpec m d ((readMessageContent Delivery.read fuel msgRead m d).map releaseOnError) := by
  obtain ⟨hsome, hge, hlt⟩ := hr.content hc
  obtain ⟨p, hp⟩ := Option.isSome_iff_exists.mp hsome
  have hl := hr.length_payload p hp
  have hsz := hr.size_lt
  unfold maxMessageSize at hsz
  have hcount : (m.hdr.datalen + preludeMsgHdrSize - m.readIndex).toNat =
      m.size - m.readIndex.toNat := by
    have hd : (m.hdr.datalen + preludeMsgHdrSize).toNat = m.size := by
      rw [UInt32.toNat_add]; unfold Msg.size preludeMsgHdrSize at *; simp; omega
    rw [UInt32.toNat_sub_of_le _ _ (by rw [UInt32.le_iff_toNat_le]; omega), hd]
  obtain ⟨pre, post, turns, dst, ret, hpre, hb, hst, hdata, hret⟩ :=
    readMessageData_spec p m.readIndex.toNat 0 (m.size - m.readIndex.toNat) hf (by omega)
      (by omega)
  simp only [Nat.add_zero, Nat.zero_add] at hst hdata hret
  have hput : { m with payload := some dst, readIndex := m.readIndex + UInt32.ofNat pre.length } =
      m.putBody pre := by simp [Msg.putBody, hp, hst]
  simp only [readMessageContent, hcount, hp, Option.getD_some, hdata, Option.bind_some]
  rcases hret with ⟨rfl, hfull⟩ | ⟨hpart, rfl, hlt'⟩ | ⟨hpart, rfl, rfl⟩
  · have hn : pre ≠ [] := List.ne_nil_of_length_pos (by omega)
    have hfeed := Msg.feed_body hc hp hl (by omega) hn (by omega) []
    rw [List.append_nil] at hfeed
    simp only [hput]
    rw [show m.hdr.isFragment = (m.putBody pre).hdr.isFragment from rfl]
    by_cases hfrag : (m.putBody pre).hdr.isFragment ≠ 0
    · rw [if_pos hfrag]
      rw [Msg.closeBody, if_pos hfrag] at hfeed
      have hspec := (ih _ (d.advance post turns) (hr.nextFragment hc (by omega)) (by
        have := List.length_pos_iff.mpr hn
        simp [hpre]; omega)).of_starved hpre hb hfeed
      rw [← hput] at hspec
      obtain ⟨reply, pre', post', turns', hp', hb', hout, ha, he⟩ := hspec
      refine ⟨reply, pre', post', turns', hp', hb', ?_, ha, he⟩
      exact (congrArg (Option.map releaseOnError) hout).trans
        (congrArg some (releaseOnError_result he))
    · rw [if_neg hfrag]
      rw [Msg.closeBody, if_neg hfrag] at hfeed
      exact ⟨.done (m.putBody pre).finish, pre, post, turns, hpre, hb, rfl, hfeed,
        by rintro _ ⟨⟩⟩
  · have hfeed : feed Msg.absorb m pre = .starved (m.putBody pre) :=
      Msg.feed_body_unfinished hc hp hl (by omega) (by omega)
    simp only [hput, Option.map_some]
    exact .of_error hpre hb hfeed (hr.putBody hc (by omega)) (.inl ⟨rfl, hlt'⟩)
  · have hfeed : feed Msg.absorb m pre = .starved (m.putBody pre) :=
      Msg.feed_body_unfinished hc hp hl (by omega) (by omega)
    simp only [hput, Option.map_some]
    exact .of_error hpre hb hfeed (hr.putBody hc (by omega)) (.inr ⟨rfl, rfl⟩)

theorem readMessageHeader_spec {fuel : ℕ} {m : Msg} {d : Stream} (hr : m.Reading)
    (hne : m.headerIndex ≠ preludeMsgHdrSize) (hf : d.pending.length < fuel) :
    ∃ ret m' pre post turns, d.pending = pre ++ post ∧
      Delivery.blocks turns ≤ Delivery.blocks d.turns ∧
      readMessageHeader Delivery.read fuel m d = some (ret, m', d.advance post turns) ∧
      match (ret : Ret) with
      | .ok () => pre ≠ [] ∧ m'.Reading ∧ m'.headerIndex = preludeMsgHdrSize ∧
          feed Msg.absorb m pre = .starved m'
      | .error e => (e ≠ .eagain ∧ feed Msg.absorb m pre = .failed e []) ∨
          (feed Msg.absorb m pre = .starved m' ∧ m'.Reading ∧
            ((e = .eagain ∧ Delivery.blocks turns < Delivery.blocks d.turns) ∨
              (e = d.final ∧ post = []))) := by
  have hi16 : m.headerIndex.toNat ≠ 16 := fun h => hne (Msg.headerIndex_eq_iff.mpr h)
  have hle := hr.headerIndex_le
  have hcount : (preludeMsgHdrSize - m.headerIndex).toNat = 16 - m.headerIndex.toNat :=
    UInt32.toNat_sub_of_le _ _ (by rw [UInt32.le_iff_toNat_le]; exact hle)
  obtain ⟨pre, post, turns, dst, ret, hpre, hb, hst, hdata, hret⟩ :=
    readMessageData_spec m.hdrbuf m.headerIndex.toNat 0 (16 - m.headerIndex.toNat) hf (by omega)
      (by have := hr.length_hdrbuf; omega)
  simp only [Nat.add_zero, Nat.zero_add] at hst hdata hret
  have hput : { m with hdrbuf := dst, headerIndex := m.headerIndex + UInt32.ofNat pre.length } =
      m.putHeader pre := by simp [Msg.putHeader, hst]
  simp only [readMessageHeader, hcount, hdata, Option.map_some, hput]
  rcases hret with ⟨rfl, hfull⟩ | ⟨hpart, rfl, hlt⟩ | ⟨hpart, rfl, rfl⟩
  · have hn : pre ≠ [] := List.ne_nil_of_length_pos (by omega)
    have hfeed := Msg.feed_header hr.length_hdrbuf hn (by omega) []
    rw [List.append_nil, Msg.closeHeader] at hfeed
    rcases hch : completeHeader (m.putHeader pre) with ⟨ret, m'⟩
    rw [hch] at hfeed
    refine ⟨ret, m', pre, post, turns, hpre, hb, rfl, ?_⟩
    cases ret with
    | error e => exact .inl ⟨Msg.completeHeader_error hch, hfeed⟩
    | ok =>
      obtain ⟨hr', hi'⟩ := hr.completeHeader hne (by omega) hch
      exact ⟨hn, hr', hi', hfeed⟩
  · exact ⟨_, _, pre, post, turns, hpre, hb, rfl,
      .inr ⟨Msg.feed_header_unfinished hr.length_hdrbuf (by omega), hr.putHeader (by omega),
        .inl ⟨rfl, hlt⟩⟩⟩
  · exact ⟨_, _, pre, [], turns, hpre, hb, rfl,
      .inr ⟨Msg.feed_header_unfinished hr.length_hdrbuf (by omega), hr.putHeader (by omega),
        .inr ⟨rfl, rfl⟩⟩⟩

/-- One call of the reader absorbs exactly the bytes that it takes off the stream. -/
theorem preludeMsgRead_spec {fuel : ℕ} {m : Msg} {d : Stream} (hr : m.Reading)
    (hf : d.pending.length < fuel) :
    CallSpec m d (preludeMsgRead Delivery.read fuel (some m) d) := by
  induction fuel generalizing m d with
  | zero => omega
  | succ fuel ih =>
    have content {m' : Msg} {d' : Stream} (hr' : m'.Reading)
        (hc : m'.headerIndex = preludeMsgHdrSize) (hle : d'.pending.length ≤ d.pending.length) :
        CallSpec m' d' ((readMessageContent Delivery.read (fuel + 1)
          (preludeMsgRead Delivery.read fuel) m' d').map releaseOnError) :=
      readMessageContent_spec hr' hc (by omega) fun _ _ hr'' hlt => ih hr'' (by omega)
    rw [preludeMsgRead]
    simp only [Option.getD_some]
    by_cases hne : m.headerIndex ≠ preludeMsgHdrSize
    · rw [if_pos hne]
      obtain ⟨ret, m', pre, post, turns, hpre, hb, hread, hret⟩ :=
        readMessageHeader_spec hr hne hf
      rw [hread, Option.bind_some]
      cases ret with
      | ok =>
        obtain ⟨-, hr', hi', hfeed⟩ := hret
        have hsome := (hr'.content hi').1
        simp only [hsome, and_self, if_true]
        exact (content hr' hi' (by simp [hpre])).of_starved hpre hb hfeed
      | error e =>
        simp only [reduceCtorEq, and_false, if_false, Option.map_some]
        rcases hret with ⟨he, hfeed⟩ | ⟨hfeed, hr', he⟩
        · simp only [releaseOnError, ne_eq, he, not_false_eq_true, if_true]
          exact .of_fail hpre hb he hfeed
        · exact .of_error hpre hb hfeed hr' he
    · have hc := not_not.mp hne
      have hsome := (hr.content hc).1
      rw [if_neg hne, Option.bind_some]
      simp only [hsome, and_self, if_true]
      exact content hr hc le_rfl

/-- The reply of one call, as the caller tells the cases apart. -/
def call (m : Msg) (d : Stream) : Option (Reply Msg Msg ErrorCode × Stream) :=
  (readMsg (some m) d).bind fun
    | (.ok (), some m, d) => some (.done m, d)
    | (.error .eagain, some m, d) => some (.blocked m, d)
    | (.error e, none, d) => some (.failed e, d)
    | _ => none

theorem readMsg_none (d : Stream) : readMsg none d = readMsg (some Msg.fresh) d := rfl

theorem readMsg_spec {m : Msg} (hr : m.Reading) (d : Stream) : CallSpec m d (readMsg (some m) d) :=
  preludeMsgRead_spec hr (Nat.lt_succ_self _)

theorem call_of_readMsg {m : Msg} {d d' : Stream} {reply : Reply Msg Msg ErrorCode}
    (h : readMsg (some m) d = some (result d' reply)) : call m d = some (reply, d') := by
  rw [call, h, Option.bind_some]
  cases reply with
  | blocked m => rfl
  | done m => rfl
  | failed e => cases e <;> rfl

/-- The reader refines the machine that absorbs one byte at a time. -/
theorem call_refines : Refines Msg.absorb Msg.Reading call := by
  intro m d hr
  obtain ⟨reply, pre, post, turns, hp, hb, hout, ha, -⟩ := readMsg_spec hr d
  exact ⟨reply, pre, post, turns, hp, hb, call_of_readMsg hout, ha⟩

theorem readMsg_of_complete {d : Stream} (ht : d.turns = []) {m : Msg} {rest : List UInt8}
    (h : feed Msg.absorb .fresh d.pending = .complete m rest) :
    ∃ d', readMsg none d = some (.ok (), some m, d') ∧ d'.pending = rest := by
  obtain ⟨reply, pre, post, turns, hp, hb, hout, ha, -⟩ := readMsg_spec Msg.reading_fresh d
  rw [hp, feed_append] at h
  rw [readMsg_none, hout]
  cases reply with
  | blocked m' =>
    have hlt := ha.2.2
    rw [ht] at hlt
    exact absurd hlt (Nat.not_lt_zero _)
  | done m' =>
    rw [ha] at h
    obtain ⟨rfl, rfl⟩ := Fed.complete.inj h
    exact ⟨_, rfl, rfl⟩
  | failed e =>
    rcases ha with ha | ⟨rfl, -, m', ha⟩
    · rw [ha] at h
      cases h
    · rw [ha] at h
      cases h

theorem readMsg_of_starved {d : Stream} (ht : d.turns = []) {m : Msg}
    (h : feed Msg.absorb .fresh d.pending = .starved m) :
    ∃ d', readMsg none d = some (.error d.final, none, d') := by
  obtain ⟨reply, pre, post, turns, hp, hb, hout, ha, -⟩ := readMsg_spec Msg.reading_fresh d
  rw [hp, feed_append] at h
  rw [readMsg_none, hout]
  cases reply with
  | blocked m' =>
    have hlt := ha.2.2
    rw [ht] at hlt
    exact absurd hlt (Nat.not_lt_zero _)
  | done m' =>
    rw [ha] at h
    cases h
  | failed e =>
    rcases ha with ha | ⟨-, rfl, -⟩
    · rw [ha] at h
      cases h
    · exact ⟨_, rfl⟩

def readAll : ℕ → Option Msg → Stream → Option (List Msg × ErrorCode)
  | 0, _, _ => none
  | fuel + 1, msg, d => match readMsg msg d with
    | none => none
    | some (.error e, msg, d) => if e = .eagain then readAll fuel msg d else some ([], e)
    | some (.ok (), msg, d) => (readAll fuel none d).map fun r => (msg.toList ++ r.1, r.2)

theorem readAll_none (fuel : ℕ) (d : Stream) :
    readAll fuel none d = readAll fuel (some Msg.fresh) d := by
  cases fuel <;> rfl

theorem readAll_eq_session {fuel : ℕ} {m : Msg} {d : Stream} (hr : m.Reading) :
    readAll fuel (some m) d = session call Msg.fresh fuel m d := by
  induction fuel generalizing m d with
  | zero => rfl
  | succ fuel ih =>
    obtain ⟨reply, pre, post, turns, hp, hb, hout, ha, he⟩ := readMsg_spec hr d
    rw [readAll, session, call_of_readMsg hout, hout]
    cases reply with
    | blocked m' => exact ih ha.2.1
    | done m' =>
      simp only [result]
      rw [readAll_none, ih Msg.reading_fresh]
      rfl
    | failed e => exact if_neg (he e rfl)

/-- The messages read, and the last error, are those of the machine fed with the whole stream. -/
theorem readAll_eq_outputs {fuel : ℕ} {d : Stream}
    (hf : Delivery.blocks d.turns + d.pending.length < fuel) :
    readAll fuel none d =
      some (outputs Msg.absorb Msg.fresh d.final Msg.fresh d.pending) := by
  rw [readAll_none, readAll_eq_session Msg.reading_fresh]
  exact call_refines.session_eq Msg.reading_fresh Msg.reading_fresh hf

/-- Resumed reading yields the messages and the error of reading the stream in one piece. -/
theorem resumed_read_eq_contiguous (d : Stream) :
    ∃ msgs e,
      (∀ fuel, Delivery.blocks d.turns + d.pending.length < fuel →
        readAll fuel none d = some (msgs, e)) ∧
      (∀ fuel, d.pending.length < fuel →
        readAll fuel none d.contiguous = some (msgs, e)) := by
  refine ⟨_, _, fun fuel hf => readAll_eq_outputs hf, fun fuel hf => ?_⟩
  exact readAll_eq_outputs (d := d.contiguous)
    (by simpa [Delivery.contiguous, Delivery.blocks] using hf)

end LibPrelude
