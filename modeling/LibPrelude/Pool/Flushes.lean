import LibPrelude.Pool.Delivery
import LibPrelude.Pool.Descriptors

/-! # What a flush makes of the stored messages

A message leaves its store before it is sent. The store of a connection gets it back, at the
end, when the connection dies of the send; the messages of the pool go to a list as those of
a broadcast do. So what was stored is sent or stored, in what order the sends fail.
-/

namespace LibPrelude

namespace Channel

/-- A channel whose peer was sent whole messages and whose store holds whole messages, of which
`ks` are all. -/
def Has (x : Channel) (ks : Multiset Content) : Prop :=
  ∃ fs : List Frame, ∃ f qs, x.sent = wire fs ∧ (∀ fr ∈ fs, fr.Whole) ∧ x.store = some f ∧
    f.Queues qs ∧ ks = ↑(fs.map Frame.content) + ↑qs

variable {x x' : Channel} {k : Content} {ks : Multiset Content} {m : Msg} {n : ℕ}

theorem Atomic.handed {g : Hdr} {body : List UInt8} (h : x.Atomic) (hx : Handed g body x x') :
    x'.Atomic :=
  ⟨h.unbroken.suffix hx.writes, fun r hr => h.stays r (hx.polls.subset hr)⟩

theorem Accepts.mono (h : x.Accepts n) {n' : ℕ} (hn : n' ≤ n) : x.Accepts n' := by
  obtain ⟨f, hf, hroom⟩ := h
  exact ⟨f, hf, hroom.mono hn⟩

theorem Accepts.handed {g : Hdr} {body : List UInt8} (h : x.Accepts (16 + body.length + n))
    (hx : Handed g body x x') : x'.Accepts n := by
  obtain ⟨f, hf, hroom⟩ := h
  have hlen {fr : Frame} (hb : fr.body = body) : fr.bytes.length = 16 + body.length := by
    rw [Frame.length_bytes, hb]
  cases hx.fate with
  | sent fr hd hb hs hstore => exact ⟨f, hstore.trans hf, hroom.mono (by omega)⟩
  | saved fr f₁ f' hd hb hs hf₁ hf' ha =>
    obtain rfl := Option.some.inj (hf.symm.trans hf₁)
    exact ⟨f', hf', ha.room (by rwa [hlen hb])⟩
  | twice fr fr' f₁ f' hr hd hb hd' hb' hs hf₁ hf' ha =>
    obtain rfl := Option.some.inj (hf.symm.trans hf₁)
    exact ⟨f', hf', ha.room (by rwa [hlen hb'])⟩
  | torn fr f₁ f' k hn hk hlt hd hb hs hf₁ hf' ha =>
    obtain rfl := Option.some.inj (hf.symm.trans hf₁)
    refine ⟨f', hf', ha.room (hroom.mono ?_)⟩
    rw [List.length_drop, hlen hb]
    omega

theorem Has.handed (h : x.Has ks) (hatomic : x.Atomic) (hm : m.Carries k)
    (hx : Handed m.hdr k.body x x') : x'.Has (k ::ₘ ks) := by
  obtain ⟨fs, f, qs, hsent, hwhole, hf, hq, rfl⟩ := h
  cases hx.fate with
  | sent fr hd hb hs hstore =>
    obtain ⟨hw, rfl⟩ := hm.frame hd hb
    refine ⟨fs ++ [fr], f, qs, ?_, ?_, hstore.trans hf, hq, ?_⟩
    · rw [hs, hsent, wire_append, wire_cons, wire_nil, List.append_nil]
    · exact List.forall_mem_append.mpr ⟨hwhole, List.forall_mem_singleton.mpr hw⟩
    · rw [List.map_append, ← Multiset.coe_add, List.map_singleton, Multiset.coe_singleton,
        ← Multiset.singleton_add]
      ac_rfl
  | saved fr f₁ f' hd hb hs hf₁ hf' ha =>
    obtain rfl := Option.some.inj (hf.symm.trans hf₁)
    obtain ⟨hw, rfl⟩ := hm.frame hd hb
    rw [hm.isFragment] at ha
    refine ⟨fs, f', _, hs.trans hsent, hwhole, hf', hq.appended hw ha, ?_⟩
    rw [← Multiset.coe_add, Multiset.coe_singleton, ← Multiset.singleton_add]
    ac_rfl
  | twice fr fr' f₁ f' hr hd hb hd' hb' hs hf₁ hf' ha =>
    obtain ⟨r, hr, hne⟩ := hr
    exact absurd (hatomic.stays r hr) hne
  | torn fr f₁ f' k hn hk hlt hd hb hs hf₁ hf' ha => exact absurd hatomic.unbroken hn

end Channel

theorem Handed.saved {x x' : Channel} {k : Content} {m : Msg} {f : Failover} {qs : List Content}
    (hx : Handed m.hdr k.body x x') (hatomic : x.Atomic) (hm : m.Carries k)
    (hsent : x'.sent = x.sent) (hf : x.store = some f) (hq : f.Queues qs) :
    ∃ f', x'.store = some f' ∧ f'.Queues (qs ++ [k]) := by
  cases hx.fate with
  | sent fr hd hb hs hstore =>
    have hlen := congrArg List.length (hs.symm.trans hsent)
    rw [List.length_append, Frame.length_bytes] at hlen
    omega
  | saved fr f₁ f' hd hb hs hf₁ hf' ha =>
    obtain rfl := Option.some.inj (hf.symm.trans hf₁)
    obtain ⟨hw, rfl⟩ := hm.frame hd hb
    rw [hm.isFragment] at ha
    exact ⟨f', hf', hq.appended hw ha⟩
  | twice fr fr' f₁ f' hr hd hb hd' hb' hs hf₁ hf' ha =>
    obtain ⟨r, hr, hne⟩ := hr
    exact absurd (hatomic.stays r hr) hne
  | torn fr f₁ f' k hn hk hlt hd hb hs hf₁ hf' ha => exact absurd hatomic.unbroken hn

namespace Pool

variable {p : Pool} {c : ℕ} {m : Msg} {f : Failover} {k : Content} {qs : List Content}

theorem flushMsg_one (hm : m.Carries k) (hx : (p.channel c).Atomic)
    (hstore : (p.channel c).store = some f) (hq : f.Queues qs) (hroom : f.Room k.size) :
    ∃ ret p', flushMsg m p (.one c) = some (ret, p') ∧ (p'.channel c).Atomic ∧
      (∀ d, d ≠ c → p'.channel d = p.channel d) ∧ p'.failover = p.failover ∧
      (∀ n, f.Room (k.size + n) → (p'.channel c).Accepts n) ∧
      ((ret = .ok () ∧ (p'.channel c).store = some f ∧ ∃ fr : LibPrelude.Frame, fr.Whole ∧
        fr.content = k ∧ (p'.channel c).sent = (p.channel c).sent ++ fr.bytes) ∨
      ∃ e f', ret = .error e ∧ (p'.channel c).sent = (p.channel c).sent ∧
        (p'.channel c).store = some f' ∧ f'.Queues (qs ++ [k])) := by
  by_cases he : (p.cnx c).established = true
  · obtain ⟨ret, m₁, p₁, m', p', hsend, -, -, -, hhanded, hothers, hfailover, hret⟩ :=
      doSend_or_save he hm.holds hm.start hstore hroom
    obtain ⟨rfl, rfl, rfl, hf, fr, hd, hb, hsent⟩ | ⟨e, rfl, hsave, hsent⟩ := hret
    · obtain ⟨hw, hk⟩ := hm.frame hd hb
      refine ⟨_, p', ?_, hx.handed hhanded, hothers, hfailover,
        fun n hn => Channel.Accepts.handed ⟨f, hstore, hn⟩ hhanded,
        .inl ⟨rfl, hf, fr, hw, hk, hsent⟩⟩
      simp only [flushMsg, hsend, Option.bind_some]
    · obtain ⟨f', hf', hq'⟩ := hhanded.saved hx hm (hsent hx) hstore hq
      refine ⟨_, p', ?_, hx.handed hhanded, hothers, hfailover,
        fun n hn => Channel.Accepts.handed ⟨f, hstore, hn⟩ hhanded,
        .inr ⟨e, f', rfl, hsent hx, hf', hq'⟩⟩
      simp only [flushMsg, hsend, hsave, Option.bind_some, Option.map_some]
  · have hmail := mail_setStateDead c true p
    have hchannel := channel_eq hmail
    obtain ⟨m', p', hsave, -, -, -, hhanded, hothers, hfailover, hsent⟩ :=
      saveToCnx_handed (p := setStateDead c true p) hm.holds hm.start
        (by rw [hchannel]; exact hstore) hroom
    rw [hchannel] at hhanded hothers hsent
    obtain ⟨f', hf', hq'⟩ := hhanded.saved hx hm hsent hstore hq
    refine ⟨_, p', ?_, hx.handed hhanded, hothers, hfailover.trans (failover_eq hmail),
      fun n hn => Channel.Accepts.handed ⟨f, hstore, hn⟩ hhanded,
      .inr ⟨.generic, f', rfl, hsent, hf', hq'⟩⟩
    rw [Bool.not_eq_true] at he
    simp only [flushMsg, doSend_closed he, hsave, Option.bind_some, Option.map_some]

theorem channel_setStore_one (p : Pool) (c : ℕ) (f : Failover) :
    (p.setStore f (.one c)).channel c = { p.channel c with store := some f } ∧
      (∀ d, d ≠ c → (p.setStore f (.one c)).channel d = p.channel d) ∧
      (p.setStore f (.one c)).failover = p.failover :=
  channel_of_mailWith (mail_setStore p c (some f))

/-- The flush of a connection's store: its messages are sent in order, up to the first that is not
sent, which is put behind the others. -/
theorem failoverFlushLoop_one {fuel : ℕ} (hx : (p.channel c).Atomic)
    (hstore : (p.channel c).store = some f) (hq : f.Queues qs) (hroom : ∀ k ∈ qs, f.Room k.size)
    (hf : qs.length < fuel) :
    ∃ ret p' f', ∃ fs : List LibPrelude.Frame,
      failoverFlushLoop (.one c) fuel p = some (ret, p') ∧ (p'.channel c).Atomic ∧
      (∀ d, d ≠ c → p'.channel d = p.channel d) ∧ p'.failover = p.failover ∧
      (∀ n, f.Room n → (∀ k ∈ qs, f.Room (k.size + n)) → f'.Room n) ∧
      (∀ fr ∈ fs, fr.Whole) ∧ (p'.channel c).sent = (p.channel c).sent ++ wire fs ∧
      (p'.channel c).store = some f' ∧
      ((ret = .ok () ∧ qs = fs.map Frame.content ∧ f'.Queues []) ∨
        ∃ e k rest, ret = .error e ∧ qs = fs.map Frame.content ++ k :: rest ∧
          f'.Queues (rest ++ [k])) := by
  induction qs generalizing p f fuel with
  | nil =>
    obtain ⟨fuel, rfl⟩ : ∃ n, fuel = n + 1 := ⟨fuel - 1, by simp at hf; omega⟩
    obtain ⟨f', hget, hq', hempty⟩ := hq.none_left
    obtain ⟨hc, hothers, hfailover⟩ := channel_setStore_one p c f'
    refine ⟨_, p.setStore f' (.one c), f', [], ?_, ?_, hothers, hfailover, fun n hn _ => ?_,
      List.forall_mem_nil _, ?_, by rw [hc], .inl ⟨rfl, rfl, hq'⟩⟩
    · have hstore' : p.store (.one c) = some f := hstore
      simp only [failoverFlushLoop, hstore', hget, Option.bind_some]
    · rw [hc]
      exact ⟨hx.unbroken, hx.stays⟩
    · unfold Failover.Room at *
      rw [hempty, List.length_nil]
      omega
    · rw [hc, wire_nil, List.append_nil]
  | cons k qs ih =>
    obtain ⟨fuel, rfl⟩ : ∃ n, fuel = n + 1 := ⟨fuel - 1, by simp at hf; omega⟩
    rw [List.forall_mem_cons] at hroom
    obtain ⟨m, f₁, hget, hm, hq₁, hdata⟩ := hq.next
    have hroom₁ {n : ℕ} (h : f.Room n) : f₁.Room n := by
      unfold Failover.Room at *
      rwa [hdata]
    obtain ⟨hc, hothers, hfailover⟩ := channel_setStore_one p c f₁
    have hx₁ : ((p.setStore f₁ (.one c)).channel c).Atomic := by
      rw [hc]
      exact ⟨hx.unbroken, hx.stays⟩
    obtain ⟨ret, p₂, hflush, hx₂, hothers₂, hfailover₂, hspace, hret⟩ :=
      flushMsg_one hm hx₁ (by rw [hc]) hq₁ (hroom₁ hroom.1)
    have hstore' : p.store (.one c) = some f := hstore
    have hsize : ¬ k.size = 0 := by
      unfold Content.size
      omega
    rw [hc] at hret
    simp only [failoverFlushLoop, hstore', hget, hsize, hflush, Option.bind_some, if_false]
    obtain ⟨rfl, hf₂, fr, hw, hk, hsent⟩ | ⟨e, f₂, rfl, hsent, hf₂, hq₂⟩ := hret
    · obtain ⟨ret, p₃, f₃, fs, hloop, hx₃, hothers₃, hfailover₃, hspace₃, hwhole, hsent₃, hf₃,
        hret⟩ := ih hx₂ hf₂ hq₁ (fun k hk => hroom₁ (hroom.2 k hk)) (Nat.lt_of_succ_lt_succ hf)
      refine ⟨ret, p₃, f₃, fr :: fs, hloop, hx₃, fun d hd => ?_, ?_, fun n hn hks => ?_,
        List.forall_mem_cons.mpr ⟨hw, hwhole⟩, ?_, hf₃, ?_⟩
      · rw [hothers₃ d hd, hothers₂ d hd, hothers d hd]
      · rw [hfailover₃, hfailover₂, hfailover]
      · exact hspace₃ n (hroom₁ hn) fun k hk => hroom₁ (hks k (List.mem_cons_of_mem _ hk))
      · rw [hsent₃, hsent, wire_cons, List.append_assoc]
      · obtain ⟨rfl, rfl, hq₃⟩ | ⟨e, k', rest, rfl, rfl, hq₃⟩ := hret
        · exact .inl ⟨rfl, by rw [List.map_cons, hk], hq₃⟩
        · exact .inr ⟨e, k', rest, rfl, by rw [List.map_cons, hk]; rfl, hq₃⟩
    · refine ⟨_, p₂, f₂, [], rfl, hx₂, fun d hd => ?_, ?_, fun n hn hks => ?_,
        List.forall_mem_nil _, ?_, hf₂, .inr ⟨e, k, qs, rfl, rfl, hq₂⟩⟩
      · rw [hothers₂ d hd, hothers d hd]
      · rw [hfailover₂, hfailover]
      · obtain ⟨f₃, hf₃, hroom₃⟩ := hspace n (hroom₁ (hks k List.mem_cons_self))
        obtain rfl := Option.some.inj (hf₂.symm.trans hf₃)
        exact hroom₃
      · rw [hsent, wire_nil, List.append_nil]

theorem sameLists_listAt {q : Pool} (h : SameLists p q) (i : ℕ) :
    (q.listAt i).and = (p.listAt i).and := by
  have hi := congrArg (Option.map Prod.fst) (h.lists i)
  rw [Option.map_map, Option.map_map] at hi
  rw [listAt, listAt, List.getD_eq_getElem?_getD, List.getD_eq_getElem?_getD]
  cases hq : q.orList[i]? <;> cases hp : p.orList[i]? <;> simp_all [CnxList.members]

structure Open (p : Pool) (cs : List ℕ) (qs : List Content) (due : ℕ → Multiset Content) :
    Prop where
  atomic : ∀ c ∈ cs, (p.channel c).Atomic
  has : ∀ c ∈ cs, (p.channel c).Has (due c)
  accepts : ∀ c ∈ cs, (p.channel c).Accepts (qs.map Content.size).sum

/-- The flush of the pool's store: its messages are handed to a list, the first ones in order. -/
theorem failoverFlushLoop_any {fuel i : ℕ} {due : ℕ → Multiset Content}
    (hcs : (p.listAt i).and.Nodup) (ho : p.Open (p.listAt i).and qs due)
    (hstore : p.failover = some f) (hq : f.Queues qs) (hf : qs.length < fuel) :
    ∃ ret p' f' moved rest, failoverFlushLoop (.any i) fuel p = some (ret, p') ∧
      qs = moved ++ rest ∧ p'.failover = some f' ∧ f'.Queues rest ∧
      p'.Open (p.listAt i).and rest (fun c => due c + ↑moved) ∧
      (∀ d, d ∉ (p.listAt i).and → p'.channel d = p.channel d) ∧
      (ret = .ok () → rest = []) := by
  induction qs generalizing p f fuel due with
  | nil =>
    obtain ⟨fuel, rfl⟩ : ∃ n, fuel = n + 1 := ⟨fuel - 1, by simp at hf; omega⟩
    obtain ⟨f', hget, hq', -⟩ := hq.none_left
    have hstore' : p.store (.any i) = some f := hstore
    refine ⟨.ok (), p.setStore f' (.any i), f', [], [], ?_, rfl, rfl, hq', ?_, fun _ _ => rfl,
      fun _ => rfl⟩
    · simp only [failoverFlushLoop, hstore', hget, Option.bind_some]
    · refine ⟨ho.atomic, fun c hc => ?_, ho.accepts⟩
      change (p.channel c).Has (due c + 0)
      rw [add_zero]
      exact ho.has c hc
  | cons k qs ih =>
    obtain ⟨fuel, rfl⟩ : ∃ n, fuel = n + 1 := ⟨fuel - 1, by simp at hf; omega⟩
    obtain ⟨m, f₁, hget, hm, hq₁, -⟩ := hq.next
    have hstore' : p.store (.any i) = some f := hstore
    have hsize : ¬ k.size = 0 := by
      unfold Content.size
      omega
    have haccepts (c : ℕ) (hc : c ∈ (p.listAt i).and) :
        (p.channel c).Accepts (16 + k.body.length + (qs.map Content.size).sum) := by
      have := ho.accepts c hc
      rwa [List.map_cons, List.sum_cons] at this
    obtain ⟨m', p₂, hb, -, -, -, hhanded, hothers, hfailover⟩ :=
      broadcastMessage_spec (p := p.setStore f₁ (.any i)) hm.holds hm.start hcs
        fun c hc => (haccepts c hc).mono (Nat.le_add_right _ _)
    have hlist : ((p.setStore f₁ (.any i)).listAt i).and = (p.listAt i).and := rfl
    have hlist₂ : (p₂.listAt i).and = (p.listAt i).and :=
      sameLists_listAt (sameLists_broadcastMessage hb) i
    have ho₂ : p₂.Open (p.listAt i).and qs fun c => k ::ₘ due c :=
      ⟨fun c hc => (ho.atomic c hc).handed (hhanded c hc),
        fun c hc => (ho.has c hc).handed (ho.atomic c hc) hm (hhanded c hc),
        fun c hc => (haccepts c hc).handed (hhanded c hc)⟩
    simp only [failoverFlushLoop, hstore', hget, hsize, flushMsg, hlist, hb, Option.bind_some,
      Option.map_some, if_false]
    by_cases hdead : (p₂.listAt i).dead = 0
    · rw [if_neg (not_not.mpr hdead)]
      rw [← hlist₂] at hcs ho₂
      obtain ⟨ret, p₃, f₃, moved, rest, hloop, rfl, hf₃, hq₃, ho₃, hothers₃, hret⟩ :=
        ih hcs ho₂ hfailover hq₁ (Nat.lt_of_succ_lt_succ hf)
      rw [hlist₂] at ho₃ hothers₃
      refine ⟨ret, p₃, f₃, k :: moved, rest, hloop, rfl, hf₃, hq₃, ?_, fun d hd => ?_, hret⟩
      · refine ⟨ho₃.atomic, fun c hc => ?_, ho₃.accepts⟩
        have hhas := ho₃.has c hc
        rwa [Multiset.cons_add, ← Multiset.add_cons, Multiset.cons_coe] at hhas
      · rw [hothers₃ d hd, hothers d hd]
        rfl
    · rw [if_pos hdead]
      refine ⟨_, p₂, f₁, [k], qs, rfl, rfl, hfailover, hq₁, ?_, hothers, by rintro ⟨⟩⟩
      refine ⟨ho₂.atomic, fun c hc => ?_, ho₂.accepts⟩
      rw [Multiset.coe_singleton, add_comm, Multiset.singleton_add]
      exact ho₂.has c hc

/-- A number of messages that is taken for none. -/
def Unnoticed (ks : List Content) : Prop := 2 ^ 32 ∣ ks.length

instance (ks : List Content) : Decidable (Unnoticed ks) :=
  inferInstanceAs (Decidable (_ ∣ _))

theorem unnoticed_iff (hq : f.Queues qs) : f.count.toUInt32 = 0 ↔ Unnoticed qs := by
  rw [Unnoticed, ← hq.count_eq, ← UInt32.toNat_inj, UInt64.toNat_toUInt32,
    Nat.dvd_iff_mod_eq_zero]
  rfl

/-- A flush of a connection's store sends its messages in order, each of them once, and leaves the
store empty; or it stops at the first that is not sent, and that one is behind the others. It does
nothing when the number of messages is taken for none. -/
theorem failoverFlush_one (hx : (p.channel c).Atomic) (hstore : (p.channel c).store = some f)
    (hq : f.Queues qs) (hroom : ∀ k ∈ qs, f.Room k.size) :
    ∃ ret p' f', ∃ fs : List LibPrelude.Frame,
      failoverFlush (.one c) p = some (ret, p') ∧ (p'.channel c).Atomic ∧
      (∀ d, d ≠ c → p'.channel d = p.channel d) ∧ p'.failover = p.failover ∧
      (∀ n, f.Room n → (∀ k ∈ qs, f.Room (k.size + n)) → f'.Room n) ∧
      (∀ fr ∈ fs, fr.Whole) ∧ (p'.channel c).sent = (p.channel c).sent ++ wire fs ∧
      (p'.channel c).store = some f' ∧
      if Unnoticed qs then ret = .ok () ∧ fs = [] ∧ f' = f
      else (ret = .ok () ∧ qs = fs.map Frame.content ∧ f'.Queues []) ∨
        ∃ e k rest, ret = .error e ∧ qs = fs.map Frame.content ++ k :: rest ∧
          f'.Queues (rest ++ [k]) := by
  have hstore' : p.store (.one c) = some f := hstore
  by_cases hcount : f.count.toUInt32 = 0
  · refine ⟨.ok (), p, f, [], ?_, hx, fun _ _ => rfl, rfl, fun _ hn _ => hn,
      List.forall_mem_nil _, ?_, hstore, ?_⟩
    · simp only [failoverFlush, hstore', hcount, if_true]
    · rw [wire_nil, List.append_nil]
    · rw [if_pos ((unnoticed_iff hq).mp hcount)]
      exact ⟨rfl, rfl, rfl⟩
  · simp only [if_neg (mt (unnoticed_iff hq).mpr hcount)]
    obtain ⟨ret, p', f', fs, hloop, h⟩ :=
      failoverFlushLoop_one hx hstore hq hroom (Nat.lt_succ_of_le hq.length_le)
    refine ⟨ret, p', f', fs, ?_, h⟩
    simp only [failoverFlush, hstore', hcount, if_false, hloop]

theorem atomic_of_nil {x : Channel} (hw : x.writes = []) (hp : x.polls = []) : x.Atomic := by
  refine ⟨⟨?_, fun h => absurd h (Nat.lt_irrefl 0)⟩, ?_⟩
  · rw [hw]
    exact .nil
  · rw [hp]
    exact List.forall_mem_nil _

/-- A flush of the pool's store hands its first messages to every connection of a list, each of
them once, and leaves the others in the store; all of them unless a connection of the list died, or
their number is taken for none. -/
theorem failoverFlush_any {i : ℕ} {due : ℕ → Multiset Content} (hcs : (p.listAt i).and.Nodup)
    (ho : p.Open (p.listAt i).and qs due) (hstore : p.failover = some f) (hq : f.Queues qs) :
    ∃ ret p' f' moved rest, failoverFlush (.any i) p = some (ret, p') ∧
      qs = moved ++ rest ∧ p'.failover = some f' ∧ f'.Queues rest ∧
      p'.Open (p.listAt i).and rest (fun c => due c + ↑moved) ∧
      (∀ d, d ∉ (p.listAt i).and → p'.channel d = p.channel d) ∧
      (ret = .ok () → if Unnoticed qs then moved = [] else rest = []) := by
  have hstore' : p.store (.any i) = some f := hstore
  by_cases hcount : f.count.toUInt32 = 0
  · refine ⟨.ok (), p, f, [], qs, ?_, rfl, hstore, hq, ⟨ho.atomic, fun c hc => ?_, ho.accepts⟩,
      fun _ _ => rfl, fun _ => ?_⟩
    · simp only [failoverFlush, hstore', hcount, if_true]
    · change (p.channel c).Has (due c + 0)
      rw [add_zero]
      exact ho.has c hc
    · rw [if_pos ((unnoticed_iff hq).mp hcount)]
  · simp only [if_neg (mt (unnoticed_iff hq).mpr hcount)]
    obtain ⟨ret, p', f', moved, rest, hloop, h⟩ :=
      failoverFlushLoop_any hcs ho hstore hq (Nat.lt_succ_of_le hq.length_le)
    refine ⟨ret, p', f', moved, rest, ?_, h⟩
    simp only [failoverFlush, hstore', hcount, if_false, hloop]

end Pool

end LibPrelude
