import LibPrelude.Pool.Channels

/-! # What a broadcast makes of a message

A message object keeps the index of the first byte that is still to be written, also from
one connection to the next. A save takes what is left and starts the object again. So each
connection of the list that gets a message is sent or has stored all of it, in whatever way
its descriptor answers; but a failure behind a short write leaves the one part of the frame
with the peer and the other in the store.
-/

namespace LibPrelude

open Bytes

/-- Answers among which no failure follows a short write, when `k` bytes were written before. -/
def Unbroken (k : ℕ) (ws : List (Except ErrorCode ℕ)) : Prop :=
  ws.Pairwise (fun r r' => (∃ n < 2 ^ 32, r = .ok n) → ∀ e, r' = .error e → e = .eagain) ∧
    (0 < k → ∀ e, .error e ∈ ws → e = .eagain)

theorem Unbroken.suffix {ws ws' : List (Except ErrorCode ℕ)} (h : Unbroken 0 ws) (hs : ws' <:+ ws) :
    Unbroken 0 ws' :=
  ⟨h.1.sublist hs.sublist, fun h0 => absurd h0 (Nat.lt_irrefl 0)⟩

theorem Unbroken.blocked {k : ℕ} {ws : List (Except ErrorCode ℕ)}
    (h : Unbroken k (.error .eagain :: ws)) : Unbroken k ws :=
  ⟨(List.pairwise_cons.mp h.1).2, fun hk e he => h.2 hk e (List.mem_cons_of_mem _ he)⟩

theorem Unbroken.short {k j n : ℕ} {ws : List (Except ErrorCode ℕ)} (h : Unbroken k (.ok n :: ws))
    (hn : n < 2 ^ 32) : Unbroken (k + j) ws := by
  obtain ⟨hhead, htail⟩ := List.pairwise_cons.mp h.1
  exact ⟨htail, fun _ e he => hhead _ he ⟨n, hn, rfl⟩ e rfl⟩

/-- One attempt to send the rest of a frame of `n` bytes, `k` of which were written before and
`k'` after it. -/
inductive Turn (n k : ℕ) (x x' : Channel) : Ret → ℕ → Prop
  | whole {ret : Ret} : x'.writes <:+ x.writes → x'.polls <:+ x.polls →
      ret = .ok () ∨ (∃ r ∈ x.polls, r.1 = ret ∧ r.1 ≠ .ok ()) → Turn n k x x' ret n
  | again {r : Except ErrorCode ℕ} {k' : ℕ} : k' < n → x.writes = r :: x'.writes →
      x'.polls = x.polls → (Unbroken k x.writes → Unbroken k' x'.writes) →
      Turn n k x x' (.error .eagain) k'
  | failed {e : ErrorCode} : e ≠ .eagain → x.writes = .error e :: x'.writes →
      x'.polls = x.polls → Turn n k x x' (.error e) k

/-- All attempts to send the rest of a frame. -/
inductive Turns (n k : ℕ) (x : Channel) : Ret → ℕ → Prop
  | whole {ret : Ret} : ret = .ok () ∨ (∃ r ∈ x.polls, r.1 = ret ∧ r.1 ≠ .ok ()) →
      Turns n k x ret n
  | failed {e : ErrorCode} {k' : ℕ} : k' < n → (Unbroken k x.writes → k' = 0) →
      Turns n k x (.error e) k'

namespace Pool

variable {p : Pool} {c : ℕ} {m : Msg} {body pre : List UInt8} {h : Hdr}

/-- What an attempt writes is a part of a frame whose first bytes were written before. -/
theorem spliced {out : List UInt8} {k j : ℕ} {h' : Hdr} (hd : h.Describes m.hdr body.length)
    (hd' : h'.Describes m.hdr body.length) (hk : k ≤ 16 + body.length)
    (hout : out = pre ++ (h.bytes ++ body).take k) :
    ∃ h'' : Hdr, h''.Describes m.hdr body.length ∧
      out ++ ((h'.bytes ++ body).drop k).take j = pre ++ (h''.bytes ++ body).take (k + j) := by
  obtain ⟨h'', hd'', hsplice⟩ := hd.splice hd' body k
  have hlen : ((h.bytes ++ body).take k).length = k := by simp; omega
  refine ⟨h'', hd'', ?_⟩
  rw [hout, ← hsplice, List.append_assoc, take_append_of_length hlen]

/-- A write fails, or takes some of the bytes; what it leaves is what the descriptor answers. -/
theorem write_cases (c : ℕ) (buf : List UInt8) (p : Pool) :
    (∃ e left, p.env.writes c = .error e :: left ∧
      p.write c buf = (.error e, p.accept c [] left)) ∨
    ∃ j left, left <:+ p.env.writes c ∧ j ≤ buf.length ∧
      p.write c buf = (.ok j, p.accept c (buf.take j) left) ∧
      (j < buf.length → p.env.writes c = .ok j :: left) := by
  unfold write
  split
  · next hw =>
    refine .inr ⟨buf.length, [], List.nil_suffix, le_rfl, ?_, fun h => absurd h (lt_irrefl _)⟩
    rw [List.take_length]
  · next e left hw => exact .inl ⟨e, left, hw, rfl⟩
  · next n left hw =>
    refine .inr ⟨(buf.take n).length, left, ?_, List.length_take_le' .., ?_, fun h => ?_⟩
    · rw [hw]
      exact List.suffix_cons _ _
    · rw [List.length_take, ← List.take_eq_take_min]
    · rw [List.length_take] at h ⊢
      rw [hw, Nat.min_eq_left (by omega)]

theorem write_le (c : ℕ) (buf : List UInt8) (p : Pool) (j : ℕ) (q : Pool)
    (h : p.write c buf = (.ok j, q)) : j ≤ buf.length := by
  obtain ⟨e, left, -, hw⟩ | ⟨j', left, -, hj, hw, -⟩ := write_cases c buf p
  · rw [h] at hw
    cases hw
  · rw [h] at hw
    cases hw
    exact hj

theorem poll_cases (c : ℕ) (p : Pool) : ∃ ret p', isTcpConnectionStillEstablished c p = (ret, p') ∧
    p'.mail = p.mailWith c { p.channel c with polls := (p.channel c).polls.tail } ∧
    p'.cnx = p.cnx ∧ (ret = .ok () ∨ ∃ r ∈ p.env.polls c, r.1 = ret ∧ r.1 ≠ .ok ()) := by
  refine ⟨(isTcpConnectionStillEstablished c p).1, (isTcpConnectionStillEstablished c p).2, rfl,
    mail_poll c p, ?_, ?_⟩
  · unfold isTcpConnectionStillEstablished
    split <;> rfl
  · unfold isTcpConnectionStillEstablished
    split
    · exact .inl rfl
    · next r left hp =>
      by_cases hr : r.1 = .ok ()
      · exact .inl hr
      · exact .inr ⟨r, by rw [hp]; exact List.mem_cons_self, rfl, hr⟩

theorem established_accept (c d : ℕ) (bs : List UInt8) (left : List (Except ErrorCode ℕ))
    (p : Pool) :
    ((p.accept c bs left).cnx d).established = (p.cnx d).established := by
  simp only [accept, modifyCnx, Function.update_apply]
  split_ifs with hd
  · rw [hd]
  · rfl

theorem preludeConnectionSend_spec (he : (p.cnx c).established = true) (hm : m.Holds body)
    (hk : m.fdWriteIndex.toNat < 16 + body.length) (hd : h.Describes m.hdr body.length)
    (hsent : (p.channel c).sent = pre ++ (h.bytes ++ body).take m.fdWriteIndex.toNat) :
    ∃ ret m' p' x k', ∃ h' : Hdr, preludeConnectionSend c m p = some (ret, m', p') ∧
      m.Stamped m' ∧ m'.Holds body ∧ h'.Describes m.hdr body.length ∧
      m'.fdWriteIndex.toNat = (if k' = 16 + body.length then 0 else k') ∧
      (p'.cnx c).established = true ∧ p'.mail = p.mailWith c x ∧
      x.sent = pre ++ (h'.bytes ++ body).take k' ∧ x.store = (p.channel c).store ∧
      Turn (16 + body.length) m.fdWriteIndex.toNat (p.channel c) x ret k' := by
  have hbound := hm.bounded
  obtain ⟨m₁, q, h₁, hd₁, -, hst, hm₁, hq, hwrite⟩ :=
    hm.write_spec gettimeofday (write c) hk.le p (write_le c)
  obtain ⟨hmail, hwr, he'⟩ : q.mail = p.mail ∧ q.env = p.env ∧ (q.cnx c).established = true := by
    rcases hq with rfl | rfl <;> exact ⟨rfl, rfl, he⟩
  have hchannel : q.channel c = p.channel c := congrFun (channel_eq hmail) c
  have hlen : ((h₁.bytes ++ body).drop m.fdWriteIndex.toNat).length =
      16 + body.length - m.fdWriteIndex.toNat := by simp
  have hofNat {j : ℕ} (hj : j ≤ 16 + body.length) : (UInt32.ofNat j).toNat = j := by
    rw [UInt32.toNat_ofNat', Nat.mod_eq_of_lt (by omega)]
  simp only [preludeConnectionSend, he, not_true_eq_false, if_false, hwrite, Option.map_some]
  rcases write_cases c ((h₁.bytes ++ body).drop m.fdWriteIndex.toNat) q with
    ⟨e, left, hw, heq⟩ | ⟨j, left, hleft, hj, heq, hshort⟩
  · have hacc := mail_accept c [] left q
    rw [mailWith_congr hmail, hchannel, List.append_nil] at hacc
    rw [heq]
    refine ⟨_, _, _, _, m.fdWriteIndex.toNat, h, rfl, hst.withIndex _, hm₁.withIndex _, hd, ?_,
      ?_, hacc, hsent, rfl, ?_⟩
    · rw [if_neg hk.ne]
      exact hofNat hk.le
    · rw [established_accept]
      exact he'
    · have hw : (p.channel c).writes = .error e :: left := by rw [← hw, hwr]; rfl
      by_cases hag : e = .eagain
      · subst hag
        refine .again hk hw rfl fun hs => ?_
        rw [hw] at hs
        exact hs.blocked
      · exact .failed hag hw rfl
  · have hacc := mail_accept c (((h₁.bytes ++ body).drop m.fdWriteIndex.toNat).take j) left q
    obtain ⟨h₂, hd₂, hout⟩ := spliced (j := j) hd hd₁ hk.le hsent
    rw [mailWith_congr hmail, hchannel, hout] at hacc
    rw [hwr] at hleft hshort
    rw [heq]
    by_cases hfull : m.fdWriteIndex.toNat + j = 16 + body.length
    · obtain ⟨ret, p', hpoll, hmail', hcnx, hret⟩ := poll_cases c
        (q.accept c (((h₁.bytes ++ body).drop m.fdWriteIndex.toNat).take j) left)
      obtain ⟨hx, -, -⟩ := channel_of_mailWith hacc
      rw [hx] at hmail'
      refine ⟨ret, _, p', _, 16 + body.length, h₂, ?_, hst.withIndex 0, hm₁.withIndex 0, hd₂, ?_,
        ?_, mailWith_trans hacc hmail', by rw [hfull], rfl, .whole hleft (List.tail_suffix _) ?_⟩
      · simp only [Msg.afterWrite, if_pos hfull, hpoll]
      · rw [if_pos rfl]
        rfl
      · rw [hcnx, established_accept]
        exact he'
      · have hpolls : (q.accept c (((h₁.bytes ++ body).drop m.fdWriteIndex.toNat).take j)
            left).env.polls c = (p.channel c).polls := congrArg Channel.polls hx
        rw [hpolls] at hret
        exact hret
    · have hlt : m.fdWriteIndex.toNat + j < 16 + body.length := by omega
      have hw : (p.channel c).writes = .ok j :: left := hshort (by omega)
      refine ⟨_, _, _, _, m.fdWriteIndex.toNat + j, h₂, ?_,
        hst.withIndex (UInt32.ofNat (m.fdWriteIndex.toNat + j)), hm₁.withIndex _, hd₂, ?_, ?_, hacc,
        rfl, rfl, .again hlt hw rfl fun hs => ?_⟩
      · simp only [Msg.afterWrite, if_neg hfull]
      · rw [if_neg hfull]
        exact hofNat hlt.le
      · rw [established_accept]
        exact he'
      · rw [hw] at hs
        exact hs.short (by omega)

/-- The channel after all attempts, and the object: it starts again, or goes on where the last
attempt ended. -/
structure Tried (c : ℕ) (m : Msg) (body pre : List UInt8) (p : Pool) (ret : Ret) (m' : Msg)
    (p' : Pool) (h' : Hdr) (k' : ℕ) : Prop where
  stamped : m.Stamped m'
  holds : m'.Holds body
  describes : h'.Describes m.hdr body.length
  index : m'.fdWriteIndex.toNat = if k' = 16 + body.length then 0 else k'
  others : ∀ d, d ≠ c → p'.channel d = p.channel d
  failover : p'.failover = p.failover
  sent : (p'.channel c).sent = pre ++ (h'.bytes ++ body).take k'
  store : (p'.channel c).store = (p.channel c).store
  writes : (p'.channel c).writes <:+ (p.channel c).writes
  polls : (p'.channel c).polls <:+ (p.channel c).polls
  turns : Turns (16 + body.length) m.fdWriteIndex.toNat (p.channel c) ret k'

theorem Tried.index_le {ret : Ret} {m' : Msg} {p' : Pool} {h' : Hdr} {k' : ℕ}
    (ht : Tried c m body pre p ret m' p' h' k') : m'.fdWriteIndex.toNat ≤ 16 + body.length := by
  rw [ht.index]
  cases ht.turns with
  | whole => simp
  | failed hlt => exact (if_neg hlt.ne).trans_le hlt.le

theorem doSendLoop_spec {fuel : ℕ} (he : (p.cnx c).established = true) (hm : m.Holds body)
    (hk : m.fdWriteIndex.toNat < 16 + body.length) (hd : h.Describes m.hdr body.length)
    (hsent : (p.channel c).sent = pre ++ (h.bytes ++ body).take m.fdWriteIndex.toNat)
    (hf : (p.channel c).writes.length < fuel) :
    ∃ ret m' p' h' k', doSendLoop c fuel m p = some (ret, m', p') ∧
      Tried c m body pre p ret m' p' h' k' := by
  induction fuel generalizing m p h with
  | zero => omega
  | succ fuel ih =>
    obtain ⟨ret, m₁, p₁, x, k₁, h₁, hsend, hst, hm₁, hd₁, hindex, he₁, hmail, hx, hstore, hturn⟩ :=
      preludeConnectionSend_spec he hm hk hd hsent
    obtain ⟨rfl, hothers, hfailover⟩ := channel_of_mailWith hmail
    simp only [doSendLoop, hsend, Option.bind_some]
    cases hturn with
    | whole hw hp hret =>
      have hag : ret ≠ .error .eagain := by
        rcases hret with rfl | ⟨r, -, rfl, -⟩
        · rintro ⟨⟩
        · exact r.2
      rw [if_neg hag]
      exact ⟨ret, m₁, p₁, h₁, _, rfl, hst, hm₁, hd₁, hindex, hothers, hfailover, hx, hstore, hw, hp,
        .whole hret⟩
    | again hlt hw hp hunbroken =>
      rw [if_neg hlt.ne] at hindex
      rw [hw, List.length_cons] at hf
      obtain ⟨ret', m₂, p₂, h₂, k₂, hloop, ht⟩ := ih he₁ hm₁ (hindex ▸ hlt)
        (hst.describes.mpr hd₁) (by rw [hindex]; exact hx) (by omega)
      rw [if_pos rfl, hloop]
      refine ⟨ret', m₂, p₂, h₂, k₂, rfl, hst.trans ht.stamped, ht.holds,
        hst.describes.mp ht.describes, ht.index, fun d hd => (ht.others d hd).trans (hothers d hd),
        ht.failover.trans hfailover, ht.sent, ht.store.trans hstore, ?_, hp ▸ ht.polls, ?_⟩
      · rw [hw]
        exact ht.writes.trans (List.suffix_cons _ _)
      · have hturns := ht.turns
        rw [hindex] at hturns
        cases hturns with
        | whole hret => exact .whole (by rwa [hp] at hret)
        | failed hlt' hs' => exact .failed hlt' fun hs => hs' (hunbroken hs)
    | failed hag hw hp =>
      rw [if_neg fun heq => hag (Except.error.inj heq)]
      refine ⟨_, m₁, p₁, h₁, _, rfl, hst, hm₁, hd₁, hindex, hothers, hfailover, hx, hstore, ?_, ?_,
        .failed hk fun hs => ?_⟩
      · rw [hw]
        exact List.suffix_cons _ _
      · rw [hp]
      · by_contra h0
        exact hag (hs.2 (Nat.pos_of_ne_zero h0) _ (by rw [hw]; exact List.mem_cons_self))

end Pool

/-- What became of a message with some data: its peer got it, its store did, or both did a part
of it. -/
inductive Fate (g : Hdr) (body : List UInt8) (x x' : Channel) : Prop
  | sent (fr : Frame) : fr.hdr.Describes g body.length → fr.body = body →
      x'.sent = x.sent ++ fr.bytes → x'.store = x.store → Fate g body x x'
  | saved (fr : Frame) (f f' : Failover) : fr.hdr.Describes g body.length → fr.body = body →
      x'.sent = x.sent → x.store = some f → x'.store = some f' →
      f.Appended g.isFragment fr.bytes f' → Fate g body x x'
  | twice (fr fr' : Frame) (f f' : Failover) : (∃ r ∈ x.polls, r.1 ≠ .ok ()) →
      fr.hdr.Describes g body.length → fr.body = body → fr'.hdr.Describes g body.length →
      fr'.body = body → x'.sent = x.sent ++ fr.bytes → x.store = some f → x'.store = some f' →
      f.Appended g.isFragment fr'.bytes f' → Fate g body x x'
  | torn (fr : Frame) (f f' : Failover) (k : ℕ) : ¬ Unbroken 0 x.writes → 0 < k →
      k < fr.bytes.length → fr.hdr.Describes g body.length → fr.body = body →
      x'.sent = x.sent ++ fr.bytes.take k → x.store = some f → x'.store = some f' →
      f.Appended g.isFragment (fr.bytes.drop k) f' → Fate g body x x'

/-- A channel that was to carry a message, and has less to answer since. -/
structure Handed (g : Hdr) (body : List UInt8) (x x' : Channel) : Prop where
  fate : Fate g body x x'
  writes : x'.writes <:+ x.writes
  polls : x'.polls <:+ x.polls

/-- A later attempt stamps the message with another time and does not change what it says. -/
theorem Fate.stamped {m m' : Msg} {body : List UInt8} {x x' : Channel} (hst : m.Stamped m')
    (h : Fate m'.hdr body x x') : Fate m.hdr body x x' := by
  have hflag : m'.hdr.isFragment = m.hdr.isFragment := hst.isFragment
  cases h with
  | sent fr hd hb hs hstore => exact .sent fr (hst.describes.mp hd) hb hs hstore
  | saved fr f f' hd hb hs hf hf' ha =>
    exact .saved fr f f' (hst.describes.mp hd) hb hs hf hf' (hflag ▸ ha)
  | twice fr fr' f f' hr hd hb hd' hb' hs hf hf' ha =>
    exact .twice fr fr' f f' hr (hst.describes.mp hd) hb (hst.describes.mp hd') hb' hs hf hf'
      (hflag ▸ ha)
  | torn fr f f' k hn hk hlt hd hb hs hf hf' ha =>
    exact .torn fr f f' k hn hk hlt (hst.describes.mp hd) hb hs hf hf' (hflag ▸ ha)

theorem Handed.stamped {m m' : Msg} {body : List UInt8} {x x' : Channel} (hst : m.Stamped m')
    (h : Handed m'.hdr body x x') : Handed m.hdr body x x' :=
  ⟨h.fate.stamped hst, h.writes, h.polls⟩

/-- A channel whose descriptor takes a message whole or not at all, and whose peer stays. -/
structure Channel.Atomic (x : Channel) : Prop where
  unbroken : Unbroken 0 x.writes
  stays : ∀ r ∈ x.polls, r.1 = .ok ()

/-- A channel whose store has room for a message. -/
def Channel.Accepts (x : Channel) (n : ℕ) : Prop := ∃ f, x.store = some f ∧ f.Room n

namespace Pool

variable {p : Pool} {c : ℕ} {m : Msg} {body : List UInt8} {f : Failover}

theorem doSend_spec (he : (p.cnx c).established = true) (hm : m.Holds body)
    (hstart : m.fdWriteIndex = 0) : ∃ ret m' p' h' k', doSend c m p = some (ret, m', p') ∧
      Tried c m body (p.channel c).sent p ret m' p' h' k' := by
  have hz : m.fdWriteIndex.toNat = 0 := by rw [hstart]; rfl
  have hbound := hm.bounded
  have hlen : (UInt32.ofNat body.length).toNat = body.length := by
    rw [UInt32.toNat_ofNat', Nat.mod_eq_of_lt (by omega)]
  refine doSendLoop_spec (h := ⟨preludeMsgVersion, m.hdr.tag, m.hdr.priority, m.hdr.isFragment,
    UInt32.ofNat body.length, 0, 0⟩) he hm (by omega) ⟨rfl, rfl, rfl, rfl, hlen⟩ ?_
    (Nat.lt_succ_self _)
  rw [hz, List.take_zero, List.append_nil]

theorem saveToCnx_spec (hm : m.Holds body) (hk : m.fdWriteIndex.toNat ≤ 16 + body.length)
    (hstore : (p.channel c).store = some f) (hroom : f.Room (16 + body.length)) :
    ∃ m' p' f', ∃ h : Hdr, saveToCnx c m p = some (m', p') ∧ m.Stamped m' ∧ m'.Holds body ∧
      m'.fdWriteIndex = 0 ∧ h.Describes m.hdr body.length ∧
      f.Appended m.hdr.isFragment ((h.bytes ++ body).drop m.fdWriteIndex.toNat) f' ∧
      p'.mail = p.mailWith c { p.channel c with store := some f' } := by
  obtain ⟨m', f', h, hsave, hst, hm', hstart, hd, ha⟩ :=
    preludeFailoverSaveMsg_rest p.gettimeofday.1 hm hk hroom
  have hstore' : (p.cnx c).failover = some f := hstore
  refine ⟨m', p.gettimeofday.2.modifyCnx c fun x => { x with failover := some f' }, f', h, ?_, hst,
    hm', hstart, hd, ha, ?_⟩
  · simp only [saveToCnx, failoverSaveMsg, hstore', hsave, Option.map_some]
  · exact mail_setStore p.gettimeofday.2 c (some f')

theorem saveToCnx_handed (hm : m.Holds body) (hstart : m.fdWriteIndex = 0)
    (hstore : (p.channel c).store = some f) (hroom : f.Room (16 + body.length)) :
    ∃ m' p', saveToCnx c m p = some (m', p') ∧ m.Stamped m' ∧ m'.Holds body ∧
      m'.fdWriteIndex = 0 ∧ Handed m.hdr body (p.channel c) (p'.channel c) ∧
      (∀ d, d ≠ c → p'.channel d = p.channel d) ∧ p'.failover = p.failover ∧
      (p'.channel c).sent = (p.channel c).sent := by
  have hz : m.fdWriteIndex.toNat = 0 := by rw [hstart]; rfl
  obtain ⟨m', p', f', h, hsave, hst, hm', hstart', hd, ha, hmail⟩ :=
    saveToCnx_spec hm (by omega) hstore hroom
  obtain ⟨hc, hothers, hfailover⟩ := channel_of_mailWith hmail
  rw [hz, List.drop_zero] at ha
  refine ⟨m', p', hsave, hst, hm', hstart', ?_, hothers, hfailover, by rw [hc]⟩
  rw [hc]
  exact ⟨.saved ⟨h, body, hd.datalen.symm⟩ f f' hd rfl rfl hstore rfl ha, List.suffix_rfl,
    List.suffix_rfl⟩

/-- An established connection is sent a message, or it dies and the message is saved. -/
theorem doSend_or_save (he : (p.cnx c).established = true) (hm : m.Holds body)
    (hstart : m.fdWriteIndex = 0) (hstore : (p.channel c).store = some f)
    (hroom : f.Room (16 + body.length)) :
    ∃ ret m₁ p₁ m' p', doSend c m p = some (ret, m₁, p₁) ∧ m.Stamped m' ∧ m'.Holds body ∧
      m'.fdWriteIndex = 0 ∧ Handed m.hdr body (p.channel c) (p'.channel c) ∧
      (∀ d, d ≠ c → p'.channel d = p.channel d) ∧ p'.failover = p.failover ∧
      ((ret = .ok () ∧ m' = m₁ ∧ p' = p₁ ∧ (p'.channel c).store = some f ∧
        ∃ fr : LibPrelude.Frame, fr.hdr.Describes m.hdr body.length ∧ fr.body = body ∧
          (p'.channel c).sent = (p.channel c).sent ++ fr.bytes) ∨
        ∃ e, ret = .error e ∧ saveToCnx c m₁ (setStateDead c true p₁) = some (m', p') ∧
          ((p.channel c).Atomic → (p'.channel c).sent = (p.channel c).sent)) := by
  have hz : m.fdWriteIndex.toNat = 0 := by rw [hstart]; rfl
  obtain ⟨ret, m₁, p₁, h₁, k, hsend, ht⟩ := doSend_spec he hm hstart
  have hd₁ := ht.describes
  have hsent := ht.sent
  have hturns := ht.turns
  rw [hz] at hturns
  by_cases hret : ret = .ok ()
  · subst hret
    cases hturns with
    | whole =>
      rw [List.take_of_length_le (by simp)] at hsent
      refine ⟨_, m₁, p₁, m₁, p₁, hsend, ht.stamped, ht.holds, ?_, ?_, ht.others, ht.failover,
        .inl ⟨rfl, rfl, rfl, ht.store.trans hstore, ⟨h₁, body, hd₁.datalen.symm⟩, hd₁, rfl, hsent⟩⟩
      · rw [← UInt32.toNat_inj, ht.index, if_pos rfl]
        rfl
      · exact ⟨.sent ⟨h₁, body, hd₁.datalen.symm⟩ hd₁ rfl hsent ht.store, ht.writes, ht.polls⟩
  obtain ⟨e, rfl⟩ : ∃ e, ret = .error e := by
    cases ret with
    | error e => exact ⟨e, rfl⟩
    | ok => exact absurd rfl hret
  have hmail := mail_setStateDead c true p₁
  have hstore₁ : ((setStateDead c true p₁).channel c).store = some f := by
    rw [channel_eq hmail, ht.store, hstore]
  obtain ⟨m₂, p₂, f₂, h₂, hsave, hst, hm₂, hstart₂, hd₂, ha, hmail₂⟩ :=
    saveToCnx_spec ht.holds ht.index_le hstore₁ hroom
  obtain ⟨hc, hothers, hfailover⟩ := channel_of_mailWith hmail₂
  rw [channel_eq hmail] at hc
  have hflag : m₁.hdr.isFragment = m.hdr.isFragment := ht.stamped.isFragment
  rw [hflag] at ha
  have hd₂' := ht.stamped.describes.mp hd₂
  refine ⟨_, m₁, p₁, m₂, p₂, hsend, ht.stamped.trans hst, hm₂, hstart₂, ?_, fun d hd => ?_, ?_,
    .inr ⟨e, rfl, hsave, fun hatomic => ?_⟩⟩
  · rw [hc]
    refine ⟨?_, ht.writes, ht.polls⟩
    cases hturns with
    | whole hret =>
      obtain ⟨r, hr, -, hne⟩ := hret.resolve_left (by rintro ⟨⟩)
      rw [ht.index, if_pos rfl, List.drop_zero] at ha
      rw [List.take_of_length_le (by simp)] at hsent
      exact .twice ⟨h₁, body, hd₁.datalen.symm⟩ ⟨h₂, body, hd₂'.datalen.symm⟩ f f₂ ⟨r, hr, hne⟩ hd₁
        rfl hd₂' rfl hsent hstore rfl ha
    | failed hlt hunbroken =>
      rw [ht.index, if_neg hlt.ne] at ha
      by_cases hk : k = 0
      · subst hk
        rw [List.take_zero, List.append_nil] at hsent
        exact .saved ⟨h₂, body, hd₂'.datalen.symm⟩ f f₂ hd₂' rfl hsent hstore rfl ha
      · -- the time stamps of the two parts may differ, so their frame has a header of its own
        obtain ⟨h₃, hd₃, hsplice⟩ := hd₁.splice hd₂' body k
        have hlen : ((h₁.bytes ++ body).take k).length = k := by simp; omega
        refine .torn ⟨h₃, body, hd₃.datalen.symm⟩ f f₂ k (fun hs => hk (hunbroken hs))
          (Nat.pos_of_ne_zero hk) (by simpa using hlt) hd₃ rfl ?_ hstore rfl ?_
        · rw [Frame.bytes, ← hsplice, List.take_left' hlen]
          exact hsent
        · rw [Frame.bytes, ← hsplice, List.drop_left' hlen]
          exact ha
  · rw [hothers d hd, channel_eq hmail, ht.others d hd]
  · rw [hfailover, failover_eq hmail, ht.failover]
  · rw [hc]
    cases hturns with
    | whole hret =>
      obtain ⟨r, hr, -, hne⟩ := hret.resolve_left (by rintro ⟨⟩)
      exact absurd (hatomic.stays r hr) hne
    | failed hlt hunbroken =>
      change (p₁.channel c).sent = _
      rw [hsent, hunbroken hatomic.unbroken, List.take_zero, List.append_nil]

theorem broadcastMessage_cons (cs : List ℕ) (hm : m.Holds body) (hstart : m.fdWriteIndex = 0)
    (hstore : (p.channel c).store = some f) (hroom : f.Room (16 + body.length)) :
    ∃ m' p', broadcastMessage (c :: cs) m p = broadcastMessage cs m' p' ∧ m.Stamped m' ∧
      m'.Holds body ∧ m'.fdWriteIndex = 0 ∧ Handed m.hdr body (p.channel c) (p'.channel c) ∧
      (∀ d, d ≠ c → p'.channel d = p.channel d) ∧ p'.failover = p.failover := by
  by_cases he : (p.cnx c).established = true
  · obtain ⟨ret, m₁, p₁, m', p', hsend, hst, hm', hstart', hhanded, hothers, hfailover, hret⟩ :=
      doSend_or_save he hm hstart hstore hroom
    refine ⟨m', p', ?_, hst, hm', hstart', hhanded, hothers, hfailover⟩
    obtain ⟨rfl, rfl, rfl, -, -⟩ | ⟨e, rfl, hsave, -⟩ := hret
    · simp only [broadcastMessage, he, hsend, Option.bind_some, if_true]
    · simp only [broadcastMessage, he, hsend, hsave, Option.bind_some, if_true]
  · obtain ⟨m', p', hsave, hst, hm', hstart', hhanded, hothers, hfailover, -⟩ :=
      saveToCnx_handed hm hstart hstore hroom
    refine ⟨m', p', ?_, hst, hm', hstart', hhanded, hothers, hfailover⟩
    simp only [broadcastMessage, he, hsave, Option.bind_some, if_false, Bool.false_eq_true]

/-- Every connection of a list is passed the message, and no other is. -/
theorem broadcastMessage_spec {cs : List ℕ} (hm : m.Holds body) (hstart : m.fdWriteIndex = 0)
    (hcs : cs.Nodup) (hroom : ∀ c ∈ cs, (p.channel c).Accepts (16 + body.length)) :
    ∃ m' p', broadcastMessage cs m p = some (m', p') ∧ m.Stamped m' ∧ m'.Holds body ∧
      m'.fdWriteIndex = 0 ∧ (∀ c ∈ cs, Handed m.hdr body (p.channel c) (p'.channel c)) ∧
      (∀ d, d ∉ cs → p'.channel d = p.channel d) ∧ p'.failover = p.failover := by
  induction cs generalizing m p with
  | nil =>
    obtain ⟨q, hq, -⟩ := hm.payload
    exact ⟨m, p, rfl, .refl hq, hm, hstart, List.forall_mem_nil _, fun _ _ => rfl, rfl⟩
  | cons c cs ih =>
    rw [List.nodup_cons] at hcs
    rw [List.forall_mem_cons] at hroom
    obtain ⟨⟨f, hf, hroomf⟩, hroom⟩ := hroom
    obtain ⟨m₁, p₁, hcons, hst, hm₁, hstart₁, hhanded, hothers, hfailover⟩ :=
      broadcastMessage_cons cs hm hstart hf hroomf
    have hrest (d : ℕ) (hd : d ∈ cs) : p₁.channel d = p.channel d :=
      hothers d fun hdc => hcs.1 (hdc ▸ hd)
    obtain ⟨m₂, p₂, hb, hst₂, hm₂, hstart₂, hhanded₂, hothers₂, hfailover₂⟩ :=
      ih hm₁ hstart₁ hcs.2 fun d hd => by rw [hrest d hd]; exact hroom d hd
    refine ⟨m₂, p₂, hcons.trans hb, hst.trans hst₂, hm₂, hstart₂, ?_, fun d hd => ?_,
      hfailover₂.trans hfailover⟩
    · refine List.forall_mem_cons.mpr ⟨?_, fun d hd => ?_⟩
      · rw [hothers₂ c hcs.1]
        exact hhanded
      · rw [← hrest d hd]
        exact (hhanded₂ d hd).stamped hst
    · rw [List.mem_cons, not_or] at hd
      rw [hothers₂ d hd.2, hothers d hd.1]

theorem saveToPool_spec (hm : m.Holds body) (hstart : m.fdWriteIndex = 0)
    (hf : p.failover = some f) (hroom : f.Room (16 + body.length)) :
    ∃ m' p' f', ∃ fr : LibPrelude.Frame, saveToPool m p = some (m', p') ∧
      fr.hdr.Describes m.hdr body.length ∧ fr.body = body ∧
      f.Appended m.hdr.isFragment fr.bytes f' ∧ p'.channel = p.channel ∧ p'.failover = some f' := by
  have hz : m.fdWriteIndex.toNat = 0 := by rw [hstart]; rfl
  obtain ⟨m', f', h, hsave, -, -, -, hd, ha⟩ :=
    preludeFailoverSaveMsg_rest p.gettimeofday.1 hm (by omega) hroom
  rw [hz, List.drop_zero] at ha
  refine ⟨m', { p.gettimeofday.2 with failover := some f' }, f', ⟨h, body, hd.datalen.symm⟩, ?_, hd,
    rfl, ha, rfl, rfl⟩
  simp only [saveToPool, failoverSaveMsg, hf, hsave, Option.map_some]

/-- The list that a broadcast goes to. -/
def chosenList (p : Pool) : Option CnxList := p.orList.find? fun l => ¬ l.skipped p

theorem Tidy.nodup_and (hp : p.Tidy) {l : CnxList} (hl : l ∈ p.orList) : l.and.Nodup :=
  (List.nodup_flatMap.mp hp.nodup).1 l hl

theorem chosenList_mem {l : CnxList} (h : p.chosenList = some l) : l ∈ p.orList :=
  List.mem_of_find?_eq_some h

/-- A broadcast passes the message to every connection of the first list that is not wholly
dead, and to nobody else; if there is none, the store of the pool gets it whole. -/
theorem broadcast_spec (hp : p.Tidy) (hm : m.Holds body) (hstart : m.fdWriteIndex = 0)
    (hroom : ∀ c ∈ p.cnxs, (p.channel c).Accepts (16 + body.length))
    (hf : p.failover = some f) (hroomf : f.Room (16 + body.length)) :
    ∃ p', preludeConnectionPoolBroadcast m p = some p' ∧
      (∀ l, p.chosenList = some l →
        (∀ c ∈ l.and, Handed m.hdr body (p.channel c) (p'.channel c)) ∧
        (∀ d, d ∉ l.and → p'.channel d = p.channel d) ∧ p'.failover = p.failover) ∧
      (p.chosenList = none → p'.channel = p.channel ∧
        ∃ f', ∃ fr : LibPrelude.Frame, p'.failover = some f' ∧ fr.hdr.Describes m.hdr body.length ∧
          fr.body = body ∧ f.Appended m.hdr.isFragment fr.bytes f') := by
  cases hl : p.chosenList with
  | none =>
    obtain ⟨m', p', f', fr, hsave, hd, hb, ha, hchannel, hf'⟩ := saveToPool_spec hm hstart hf hroomf
    refine ⟨p', ?_, by rintro l ⟨⟩, fun _ => ⟨hchannel, f', fr, hf', hd, hb, ha⟩⟩
    rw [chosenList] at hl
    simp only [preludeConnectionPoolBroadcast, walkManagerLists, hl, hsave, Option.map_some]
  | some l =>
    have hmem := chosenList_mem hl
    obtain ⟨m', p', hb, -, -, -, hhanded, hothers, hfailover⟩ :=
      broadcastMessage_spec hm hstart (hp.nodup_and hmem) fun c hc =>
        hroom c (List.mem_flatMap.mpr ⟨l, hmem, hc⟩)
    refine ⟨p', ?_, fun l' hl' => ?_, by rintro ⟨⟩⟩
    · rw [chosenList] at hl
      simp only [preludeConnectionPoolBroadcast, walkManagerLists, hl, hb, Option.map_some]
    · obtain rfl := Option.some.inj hl'
      exact ⟨hhanded, hothers, hfailover⟩

/-- In every pool that a run reaches, whatever its descriptors answer next: a broadcast hands the
message to every connection of the first list that is not wholly dead, and to nobody else; if
there is none, the store of the pool gets it whole. -/
theorem broadcast_fates {allowed : Pool → PoolOp → Prop} (hrun : Run allowed p) (env : Env)
    (hm : m.Holds body) (hstart : m.fdWriteIndex = 0)
    (hroom : ∀ c ∈ p.cnxs, (p.channel c).Accepts (16 + body.length))
    (hf : p.failover = some f) (hroomf : f.Room (16 + body.length)) :
    ∃ p', preludeConnectionPoolBroadcast m { p with env } = some p' ∧
      (∀ l, p.chosenList = some l →
        (∀ c ∈ l.and, Handed m.hdr body ({ p with env }.channel c) (p'.channel c)) ∧
        (∀ d, d ∉ l.and → p'.channel d = { p with env }.channel d) ∧
        p'.failover = p.failover) ∧
      (p.chosenList = none → p'.channel = { p with env }.channel ∧
        ∃ f', ∃ fr : LibPrelude.Frame, p'.failover = some f' ∧
          fr.hdr.Describes m.hdr body.length ∧ fr.body = body ∧
          f.Appended m.hdr.isFragment fr.bytes f') :=
  broadcast_spec (hrun.tidy.withEnv env) hm hstart hroom hf hroomf

def storingPool : Pool :=
  (((new false true).step .quiet (.string ['a'])).bind fun p =>
    p.step { Env.quiet with connects := [.established 3] } .init).getD (new false true)

theorem run_storingPool : Run (fun _ _ => True) storingPool := by
  have hnew : Run (fun _ _ => True) (new false true) := .new false true
  have hstring := hnew.step .quiet (.string ['a']) trivial rfl
  exact hstring.step { Env.quiet with connects := [.established 3] } .init trivial rfl

theorem broadcast_fates_storing : ∃ p', preludeConnectionPoolBroadcast (Msg.ofFrame shortLast)
      { storingPool with env := { Env.quiet with writes := fun _ => [.ok 16] } } = some p' ∧
    ∃ x, x.writes = [.ok 16] ∧ x.sent = [] ∧ Handed shortLast.hdr [0] x (p'.channel 0) := by
  have hm := (Msg.emits_ofFrame shortLast rfl (List.cons_ne_nil 0 []) (by decide)).holds
  have hroom : Failover.Room ⟨.empty, 0, [], 0, 0, 0, false⟩ 17 :=
    (by decide : 0 + 17 < 2 ^ 63)
  obtain ⟨p', hb, hlist, -⟩ := broadcast_fates run_storingPool
    { Env.quiet with writes := fun _ => [.ok 16] } hm rfl
    (fun c hc => by
      obtain rfl : c = 0 := List.mem_singleton.mp hc
      exact ⟨_, rfl, hroom⟩) rfl hroom
  exact ⟨p', hb, _, rfl, rfl, (hlist ⟨[0], 0, 1⟩ rfl).1 0 List.mem_cons_self⟩

end Pool

end LibPrelude
