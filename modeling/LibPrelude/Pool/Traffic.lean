import LibPrelude.Pool.Flushes
import Mathlib.Algebra.BigOperators.Group.Finset.Piecewise

/-! # The traffic of a pool

Whatever a pool does once its lists are set up, no message is lost and none is there twice:
every message of a broadcast goes to all the connections of one list, each of which has sent
it or stored it, or it waits in the store of the pool.
-/

namespace LibPrelude

open Finset

namespace Pool

/-- What each connection was to have, sent or stored, and what waits in the store of the pool. -/
structure Balanced (p : Pool) (due : ℕ → Multiset Content) (kept : Multiset Content) : Prop where
  has : ∀ c ∈ p.cnxs, (p.channel c).Has (due c)
  kept : ∃ f ks, p.failover = some f ∧ f.Queues ks ∧ ↑ks = kept

/-- A pool whose channels are atomic and whose stores have room for all that may come. -/
structure Calm (p : Pool) : Prop where
  atomic : ∀ c ∈ p.cnxs, (p.channel c).Atomic
  room : ∃ f, p.failover = some f ∧ f.Room (2 ^ 28) ∧
    ∀ c ∈ p.cnxs, (p.channel c).Accepts (f.unread + 2 ^ 28)

/-- Messages were posted to the lists, and what is posted or still kept is what was kept before
and what came in. -/
def Moves (p q : Pool) (due : ℕ → Multiset Content) (kept inn : Multiset Content) : Prop :=
  ∃ posted : ℕ → Multiset Content, ∃ kept',
    q.Balanced (fun c => due c + posted (p.cnx c).parent) kept' ∧
      ∑ i ∈ range p.orList.length, posted i + kept' = kept + inn

variable {p q r : Pool} {c i : ℕ} {due : ℕ → Multiset Content} {kept inn : Multiset Content}

theorem Balanced.congr (h : p.Balanced due kept) (hl : SameLists p q) (hm : q.mail = p.mail) :
    q.Balanced due kept where
  has c hc := by
    rw [hl.cnxs] at hc
    rw [channel_eq hm]
    exact h.has c hc
  kept := by
    rw [failover_eq hm]
    exact h.kept

theorem moves_of_balanced (h : q.Balanced due kept) : Moves p q due kept 0 := by
  refine ⟨0, kept, ?_, ?_⟩
  · simpa using h
  · simp

theorem moves_single {x kept' : Multiset Content} (hi : i < p.orList.length)
    (h : q.Balanced (fun c => due c + if (p.cnx c).parent = i then x else 0) kept')
    (hsum : x + kept' = kept + inn) : Moves p q due kept inn := by
  refine ⟨fun j => if j = i then x else 0, kept', h, ?_⟩
  rw [Finset.sum_ite_eq' _ i, if_pos (Finset.mem_range.mpr hi), hsum]

theorem length_orList (h : SameLists p q) : q.orList.length = p.orList.length := by
  have hle (j : ℕ) : q.orList.length ≤ j ↔ p.orList.length ≤ j := by
    rw [← List.getElem?_eq_none_iff, ← List.getElem?_eq_none_iff,
      ← Option.map_eq_none_iff (f := CnxList.members), h.lists j, Option.map_eq_none_iff]
  exact le_antisymm ((hle _).mpr le_rfl) ((hle _).mp le_rfl)

theorem Moves.trans {b : Multiset Content} (hl : SameLists p q) (h₁ : Moves p q due kept inn)
    (h₂ : ∀ due kept, q.Balanced due kept → Moves q r due kept b) :
    Moves p r due kept (inn + b) := by
  obtain ⟨posted₁, kept₁, hb₁, hsum₁⟩ := h₁
  obtain ⟨posted₂, kept₂, hb₂, hsum₂⟩ := h₂ _ _ hb₁
  refine ⟨posted₁ + posted₂, kept₂, ?_, ?_⟩
  · simpa only [hl.parent, add_assoc, Pi.add_apply] using hb₂
  · rw [length_orList hl] at hsum₂
    simp only [Pi.add_apply, Finset.sum_add_distrib]
    rw [add_assoc, hsum₂, ← add_assoc, hsum₁, add_assoc]

theorem Moves.congr {p' r : Pool} (h : Moves p' q due kept inn) (hl : SameLists p p')
    (hl' : SameLists q r) (hm : r.mail = q.mail) : Moves p r due kept inn := by
  obtain ⟨posted, kept', hb, hsum⟩ := h
  refine ⟨posted, kept', ?_, ?_⟩
  · simpa only [hl.parent] using hb.congr hl' hm
  · rw [← length_orList hl]
    exact hsum

theorem Calm.congr (h : p.Calm) (hl : SameLists p q) (hm : q.mail = p.mail) : q.Calm := by
  refine ⟨?_, ?_⟩
  · rw [hl.cnxs, channel_eq hm]
    exact h.atomic
  · rw [hl.cnxs, channel_eq hm, failover_eq hm]
    exact h.room

/-- The store of a connection has room for the longest message and what the pool keeps. -/
theorem Calm.room_store {f g : Failover} (h : p.Calm) (hc : c ∈ p.cnxs)
    (hf : (p.channel c).store = some f) (hg : p.failover = some g) :
    f.Room (g.unread + 2 ^ 28) := by
  obtain ⟨g', hg', -, hroom⟩ := h.room
  obtain rfl := Option.some.inj (hg.symm.trans hg')
  obtain ⟨f', hf', hroomf⟩ := hroom c hc
  obtain rfl := Option.some.inj (hf.symm.trans hf')
  exact hroomf

theorem Calm.accepts {g : Failover} (h : p.Calm) (hg : p.failover = some g) (hc : c ∈ p.cnxs) :
    (p.channel c).Accepts g.unread := by
  obtain ⟨g', hg', -, hroom⟩ := h.room
  obtain rfl := Option.some.inj (hg.symm.trans hg')
  exact (hroom c hc).mono (Nat.le_add_right _ _)

/-- What a connection has is the same after its store was flushed. -/
theorem balanced_flushOne {ret : Ret} (hb : p.Balanced due kept) (hcalm : p.Calm)
    (hc : c ∈ p.cnxs) (h : failoverFlush (.one c) p = some (ret, q)) :
    q.Balanced due kept ∧ (∀ d ∈ p.cnxs, (q.channel d).Atomic) ∧
      ∀ f, q.failover = some f → ∀ d ∈ p.cnxs, (q.channel d).Accepts f.unread := by
  obtain ⟨fs, f, qs, hsent, hwhole, hf, hq, hdue⟩ := hb.has c hc
  obtain ⟨g, hg, -⟩ := hcalm.room
  have hroom := hcalm.room_store hc hf hg
  obtain ⟨ret', q', f', fs', hflush, hatomic, hothers, hfailover, hspace, hwhole', hsent', hf',
    hret⟩ := failoverFlush_one (hcalm.atomic c hc) hf hq fun k hk =>
      (hq.room hroom hk).mono (Nat.le_add_right _ _)
  obtain ⟨-, rfl⟩ := Prod.mk.inj (Option.some.inj (h.symm.trans hflush))
  refine ⟨⟨fun d hd => ?_, hfailover ▸ hb.kept⟩, fun d hd => ?_, fun g' hg' d hd => ?_⟩
  · rw [(sameLists_failoverFlush h).cnxs] at hd
    by_cases hdc : d = c
    · subst hdc
      have hwire : (q.channel d).sent = wire (fs ++ fs') := by
        rw [hsent', hsent, wire_append]
      have hall := List.forall_mem_append.mpr ⟨hwhole, hwhole'⟩
      split_ifs at hret
      · obtain ⟨-, rfl, rfl⟩ := hret
        refine ⟨fs, f', qs, by rw [hwire, List.append_nil], hwhole, hf', hq, hdue⟩
      obtain ⟨-, rfl, hq'⟩ | ⟨e, k, rest, -, rfl, hq'⟩ := hret
      · refine ⟨fs ++ fs', f', [], hwire, hall, hf', hq', ?_⟩
        rw [hdue, List.map_append, ← Multiset.coe_add, Multiset.coe_nil, add_zero]
      · refine ⟨fs ++ fs', f', rest ++ [k], hwire, hall, hf', hq', ?_⟩
        rw [hdue, List.map_append, ← Multiset.coe_add, ← Multiset.coe_add, add_assoc]
        congr 2
        exact Multiset.coe_eq_coe.mpr (List.perm_append_singleton k rest).symm
    · rw [hothers d hdc]
      exact hb.has d hd
  · by_cases hdc : d = c
    · subst hdc
      exact hatomic
    · rw [hothers d hdc]
      exact hcalm.atomic d hd
  · rw [hfailover] at hg'
    obtain rfl := Option.some.inj (hg.symm.trans hg')
    by_cases hdc : d = c
    · subst hdc
      exact ⟨f', hf', hspace _ (hroom.mono (Nat.le_add_right _ _)) fun k hk => hq.room hroom hk⟩
    · rw [hothers d hdc]
      exact hcalm.accepts hg hd

theorem Tidy.parent_iff (hp : p.Tidy) {l : CnxList} (hl : p.orList[i]? = some l)
    (hc : c ∈ p.cnxs) : (p.cnx c).parent = i ↔ c ∈ l.and := by
  constructor
  · rintro rfl
    obtain ⟨l', hl', hcl⟩ := hp.toLinked.exists_list hc
    obtain rfl := Option.some.inj (hl.symm.trans hl')
    exact hcl
  · exact hp.parent i l hl c

/-- A flush of the pool's store hands the first of its messages to a list with room for all. -/
theorem flushAny_spec {l : CnxList} (hp : p.Tidy) (hl : p.orList[i]? = some l)
    (hb : p.Balanced due kept) (hatomic : ∀ d ∈ p.cnxs, (p.channel d).Atomic)
    (haccepts : ∀ f, p.failover = some f → ∀ d ∈ p.cnxs, (p.channel d).Accepts f.unread) :
    ∃ f f' ret q moved rest, p.failover = some f ∧ f.Queues (moved ++ rest) ∧
      ↑(moved ++ rest) = kept ∧ failoverFlush (.any i) p = some (ret, q) ∧
      q.failover = some f' ∧ f'.Queues rest ∧
      (∀ d ∈ l.and, (q.channel d).Has (due d + ↑moved)) ∧
      (∀ d, d ∉ l.and → q.channel d = p.channel d) ∧
      (ret = .ok () → if Unnoticed (moved ++ rest) then moved = [] else rest = []) := by
  have hlist : p.listAt i = l := listAt_of_getElem? hl
  have hmem (d : ℕ) (hd : d ∈ l.and) : d ∈ p.cnxs := mem_cnxs_of_getElem? hl hd
  obtain ⟨f, ks, hf, hq, hkept⟩ := hb.kept
  have hnodup : (p.listAt i).and.Nodup := by
    rw [hlist]
    exact hp.nodup_and (List.mem_of_getElem? hl)
  have ho : p.Open (p.listAt i).and ks due := by
    rw [hlist]
    refine ⟨fun d hd => hatomic d (hmem d hd), fun d hd => hb.has d (hmem d hd), fun d hd => ?_⟩
    rw [← hq.unread_eq]
    exact haccepts f hf d (hmem d hd)
  obtain ⟨ret, q, f', moved, rest, hflush, rfl, hf', hq', ho', hothers, hret⟩ :=
    failoverFlush_any hnodup ho hf hq
  rw [hlist] at ho' hothers
  exact ⟨f, f', ret, q, moved, rest, hf, hq, hkept, hflush, hf', hq', ho'.has, hothers, hret⟩

/-- What leaves the store of the pool is had by the connections of the list. -/
theorem balanced_flushAny {ret : Ret} (hp : p.Tidy) (hi : i < p.orList.length)
    (hb : p.Balanced due kept) (hatomic : ∀ d ∈ p.cnxs, (p.channel d).Atomic)
    (haccepts : ∀ f, p.failover = some f → ∀ d ∈ p.cnxs, (p.channel d).Accepts f.unread)
    (h : failoverFlush (.any i) p = some (ret, q)) : Moves p q due kept 0 := by
  obtain ⟨l, hl⟩ : ∃ l, p.orList[i]? = some l := ⟨_, List.getElem?_eq_getElem hi⟩
  obtain ⟨f, f', ret', q', moved, rest, -, -, hkept, hflush, hf', hq', hhas, hothers, -⟩ :=
    flushAny_spec hp hl hb hatomic haccepts
  obtain ⟨-, rfl⟩ := Prod.mk.inj (Option.some.inj (h.symm.trans hflush))
  refine moves_single (x := ↑moved) hi ⟨fun d hd => ?_, f', rest, hf', hq', rfl⟩ ?_
  · rw [(sameLists_failoverFlush h).cnxs] at hd
    have hparent := hp.parent_iff hl hd
    by_cases hdl : d ∈ l.and
    · rw [if_pos (hparent.mpr hdl)]
      exact hhas d hdl
    · rw [if_neg (mt hparent.mp hdl), add_zero, hothers d hdl]
      exact hb.has d hd
  · rw [← hkept, add_zero]
    exact Multiset.coe_add moved rest

/-- A connection that comes back alive gets what was stored for it, and its list what the pool
kept. -/
theorem moves_setStateAlive {g : Bool} {ret : Ret} (hp : p.Tidy) (hb : p.Balanced due kept)
    (hcalm : p.Calm) (hc : c ∈ p.cnxs) (h : setStateAlive c g p = some (ret, q)) :
    Moves p q due kept 0 := by
  have hlists := (sameLists_revived p c).trans (sameLists_notifyEvent .alive c g (p.revived c))
  have hmail : (notifyEvent .alive c g (p.revived c)).mail = p.mail :=
    (mail_notifyEvent .alive c g _).trans (mail_revived p c)
  obtain ⟨p₀, hp₀⟩ : ∃ p₀, notifyEvent .alive c g (p.revived c) = p₀ := ⟨_, rfl⟩
  have hrevived : p.revived c = (p.modifyCnx c fun x =>
      { x with timer := false, expire := initialExpirationTime }).modifyParent c
        fun l => { l with dead := l.dead - 1 } := rfl
  rw [hp₀] at hlists hmail
  simp only [setStateAlive, ← hrevived, hp₀, Option.bind_eq_some_iff] at h
  obtain ⟨⟨ret₁, p₁⟩, hflush, h⟩ := h
  have hc₀ : c ∈ p₀.cnxs := by
    rw [hlists.cnxs]
    exact hc
  obtain ⟨hb₁, hatomic, haccepts⟩ :=
    balanced_flushOne (hb.congr hlists hmail) (hcalm.congr hlists hmail) hc₀ hflush
  have hl₁ := sameLists_failoverFlush hflush
  have hmoves₁ : Moves p p₁ due kept 0 := moves_of_balanced hb₁
  cases ret₁ with
  | error e =>
    simp only [Option.some.injEq, Prod.mk.injEq] at h
    exact h.2 ▸ hmoves₁
  | ok =>
    simp only [Option.map_eq_some_iff] at h
    obtain ⟨⟨ret₂, p₂⟩, hflush₂, h⟩ := h
    have hmoves₂ : Moves p p₂ due kept 0 := by
      split_ifs at hflush₂
      · have htidy := (hlists.trans hl₁).tidy hp
        have hc₁ : c ∈ p₁.cnxs := by
          rw [hl₁.cnxs]
          exact hc₀
        obtain ⟨l, hl, -⟩ := htidy.toLinked.exists_list hc₁
        rw [hl₁.cnxs.symm] at hatomic haccepts
        have hi : (p₀.cnx c).parent < p₁.orList.length := by
          rw [hl₁.parent] at hl
          exact (List.getElem?_eq_some_iff.mp hl).1
        have hmoves := balanced_flushAny htidy hi hb₁ hatomic haccepts hflush₂
        exact hmoves.congr (hlists.trans hl₁) (.refl p₂) rfl
      · simp only [Option.some.injEq, Prod.mk.injEq] at hflush₂
        exact hflush₂.2 ▸ hmoves₁
    cases ret₂ with
    | error e =>
      simp only [Prod.mk.injEq] at h
      exact h.2 ▸ hmoves₂
    | ok =>
      simp only [Prod.mk.injEq] at h
      rw [← h.2]
      exact hmoves₂.congr (.refl p) (.of_eq rfl rfl rfl rfl) rfl

/-- A broadcast posts its message to one list, or the pool keeps it. -/
theorem moves_broadcast {m : Msg} {k : Content} (hp : p.Tidy) (hb : p.Balanced due kept)
    (hcalm : p.Calm) (hm : m.Carries k) (h : preludeConnectionPoolBroadcast m p = some q) :
    Moves p q due kept {k} := by
  have hsize : 16 + k.body.length < 2 ^ 28 := hm.size_lt
  obtain ⟨f, hf, hroomf, hroom⟩ := hcalm.room
  obtain ⟨q', hq', hsome, hnone⟩ := broadcast_spec hp hm.holds hm.start
    (fun c hc => (hroom c hc).mono (by omega)) hf (hroomf.mono hsize.le)
  obtain rfl := Option.some.inj (h.symm.trans hq')
  have hcnxs := (sameLists_broadcast h).cnxs
  cases hl : p.chosenList with
  | none =>
    obtain ⟨hchannel, f', fr, hf', hd, hbody, ha⟩ := hnone hl
    obtain ⟨g, ks, hg, hks, rfl⟩ := hb.kept
    obtain rfl := Option.some.inj (hf.symm.trans hg)
    obtain ⟨hw, rfl⟩ := hm.frame hd hbody
    rw [hm.isFragment] at ha
    refine ⟨0, ↑(ks ++ [fr.content]), ⟨fun c hc => ?_, f', _, hf', hks.appended hw ha, rfl⟩, ?_⟩
    · rw [hcnxs] at hc
      rw [hchannel]
      simpa using hb.has c hc
    · rw [← Multiset.coe_add, Multiset.coe_singleton]
      simp
  | some l =>
    obtain ⟨hhanded, hothers, hfailover⟩ := hsome l hl
    obtain ⟨i, hi⟩ := List.mem_iff_getElem?.mp (chosenList_mem hl)
    refine moves_single (x := {k}) (List.getElem?_eq_some_iff.mp hi).1 ⟨fun c hc => ?_, ?_⟩
      (add_comm _ _)
    · rw [hcnxs] at hc
      have hparent := hp.parent_iff hi hc
      by_cases hcl : c ∈ l.and
      · rw [if_pos (hparent.mpr hcl), add_comm, Multiset.singleton_add]
        exact (hb.has c hc).handed (hcalm.atomic c hc) hm (hhanded c hcl)
      · rw [if_neg (mt hparent.mp hcl), add_zero, hothers c hcl]
        exact hb.has c hc
    · rw [hfailover]
      exact hb.kept

theorem moves_connectionTimerExpire (hp : p.Tidy) (hb : p.Balanced due kept) (hcalm : p.Calm)
    (hc : c ∈ p.cnxs) (h : connectionTimerExpire c p = some q) : Moves p q due kept 0 := by
  have hlists := sameLists_connect c p
  have hmail := mail_connect c p
  unfold connectionTimerExpire at h
  split at h
  · next p₁ hconnect =>
    rw [hconnect] at hlists hmail
    simp only [Option.map_eq_some_iff] at h
    obtain ⟨⟨ret, q'⟩, halive, rfl⟩ := h
    have hmoves := moves_setStateAlive (hlists.tidy hp) (hb.congr hlists hmail)
      (hcalm.congr hlists hmail) (hlists.cnxs.symm ▸ hc) halive
    exact hmoves.congr hlists (.refl _) rfl
  · next e p₁ hconnect =>
    rw [hconnect] at hlists hmail
    obtain rfl := Option.some.inj h
    have hl := hlists.trans (sameLists_modifyCnx p₁ c (f := fun x => { x with
      expire := if x.expire < maximumExpirationTime then x.expire * 2 else x.expire
      timer := true }) rfl)
    refine moves_of_balanced (hb.congr hl ?_)
    rw [← hmail]
    exact mail_modifyCnx p₁ c (fun _ => rfl) fun _ => rfl

theorem moves_setConnectionAlive {ret : Ret} (hp : p.Tidy) (hb : p.Balanced due kept)
    (hcalm : p.Calm) (h : preludeConnectionPoolSetConnectionAlive c p = some (ret, q)) :
    Moves p q due kept 0 := by
  unfold preludeConnectionPoolSetConnectionAlive at h
  split at h
  · obtain ⟨-, rfl⟩ := Prod.mk.inj (Option.some.inj h)
    exact moves_of_balanced hb
  next hc =>
  split at h
  · obtain ⟨-, rfl⟩ := Prod.mk.inj (Option.some.inj h)
    exact moves_of_balanced hb
  · exact moves_setStateAlive hp hb hcalm (not_not.mp hc) h

/-- The steps of a pool that is set up, broadcasts apart: callbacks of its timers and of the
event loop, and what the program tells it about connections. -/
inductive Steers (p : Pool) : PoolOp → Prop
  | dead (c : ℕ) : Steers p (.dead c)
  | alive (c : ℕ) (fd : Option ℕ) : Steers p (.alive c fd)
  | timer (c : ℕ) : c ∈ p.cnxs → Steers p (.timer c)
  | check (ready : Finset ℕ) : Steers p (.check ready)
  | string (s : List Char) : Steers p (.string s)
  | del (c : ℕ) : Steers p (.del c)

theorem Steers.moves {op : PoolOp} (hop : p.Steers op) (hp : p.Tidy) (hb : p.Balanced due kept)
    (hcalm : p.Calm) (h : p.apply op = some q) : SameLists p q ∧ Moves p q due kept 0 := by
  have still {q : Pool} (hl : SameLists p q) (hm : q.mail = p.mail) :
      SameLists p q ∧ Moves p q due kept 0 := ⟨hl, moves_of_balanced (hb.congr hl hm)⟩
  cases hop with
  | dead c =>
    obtain rfl := Option.some.inj h
    exact still (sameLists_setConnectionDeadWith (sameLists_notifyEvent .dead c false) c p)
      (mail_setConnectionDeadWith (mail_notifyEvent .dead c false) c p)
  | alive c fd =>
    simp only [Pool.apply, Option.map_eq_some_iff] at h
    obtain ⟨⟨ret, q'⟩, h, rfl⟩ := h
    have hl := sameLists_reestablish p c fd
    have hm := mail_reestablish p c fd
    have hmoves := moves_setConnectionAlive (hl.tidy hp) (hb.congr hl hm) (hcalm.congr hl hm) h
    exact ⟨hl.trans (sameLists_setConnectionAlive h), hmoves.congr hl (.refl _) rfl⟩
  | timer c hc =>
    simp only [Pool.apply] at h
    split_ifs at h
    exact ⟨sameLists_connectionTimerExpire h, moves_connectionTimerExpire hp hb hcalm hc h⟩
  | check ready =>
    obtain rfl := Option.some.inj h
    exact still (sameLists_connectionPoolCheckEvent ready p) (mail_checkEvent ready p)
  | string s =>
    obtain rfl := Option.some.inj h
    exact still (.of_eq rfl rfl rfl rfl) rfl
  | del c =>
    obtain rfl := Option.some.inj h
    unfold preludeConnectionPoolDelConnection
    split
    · exact still (.refl p) rfl
    · exact still (sameLists_destroyConnectionSingle c p) (mail_destroy c p)

/-- The pools that one becomes while it is calm, with the messages of the broadcasts. -/
inductive Traffic (p₀ : Pool) : Multiset Content → Pool → Prop
  | start : Traffic p₀ 0 p₀
  | broadcast {p p' : Pool} {ks : Multiset Content} {m : Msg} {k : Content} (env : Env) :
      Traffic p₀ ks p → { p with env }.Calm → m.Carries k →
      p.step env (.broadcast m) = some p' → Traffic p₀ (ks + {k}) p'
  | steer {p p' : Pool} {ks : Multiset Content} (env : Env) (op : PoolOp) :
      Traffic p₀ ks p → { p with env }.Calm → { p with env }.Steers op → p.step env op = some p' →
      Traffic p₀ ks p'

variable {p₀ : Pool} {ks : Multiset Content}

theorem Moves.withEnv (h : Moves p₀ p due kept inn) (env : Env) :
    Moves p₀ { p with env } due kept inn := by
  obtain ⟨posted, kept', hb, hsum⟩ := h
  exact ⟨posted, kept', ⟨hb.has, hb.kept⟩, hsum⟩

theorem Traffic.moves (h : Traffic p₀ ks p) (hp : p₀.Tidy) (hb : p₀.Balanced due kept) :
    SameLists p₀ p ∧ Moves p₀ p due kept ks := by
  induction h with
  | start => exact ⟨.refl p₀, moves_of_balanced hb⟩
  | @broadcast p p' ks m k env _ hcalm hm hstep ih =>
    obtain ⟨hl, hmoves⟩ := ih
    have hle : SameLists p₀ { p with env } := hl.trans (.of_eq rfl rfl rfl rfl)
    have happly := apply_of_step hstep
    refine ⟨hle.trans (sameLists_broadcast happly), ?_⟩
    refine (hmoves.withEnv env).trans hle fun due kept hb => ?_
    exact moves_broadcast (hle.tidy hp) hb hcalm hm happly
  | @steer p p' ks env op _ hcalm hop hstep ih =>
    obtain ⟨hl, hmoves⟩ := ih
    have hle : SameLists p₀ { p with env } := hl.trans (.of_eq rfl rfl rfl rfl)
    have hsteer {due : ℕ → Multiset Content} {kept : Multiset Content}
        (hb : { p with env }.Balanced due kept) :=
      hop.moves (hle.tidy hp) hb hcalm (apply_of_step hstep)
    obtain ⟨posted, kept', hb', -⟩ := hmoves.withEnv env
    refine ⟨hle.trans (hsteer hb').1, ?_⟩
    have hmoves' := (hmoves.withEnv env).trans hle fun due kept hb => (hsteer hb).2
    rwa [add_zero] at hmoves'

/-- In every run of a calm pool each message of a broadcast goes to all connections of one list,
each of which has it once, sent or stored, or it waits once in the store of the pool; and so does
each message that was stored before. -/
theorem broadcasts_accounted (hp : p₀.Tidy) (hb : p₀.Balanced due kept) (h : Traffic p₀ ks p) :
    ∃ posted : ℕ → Multiset Content, ∃ kept',
      (∀ i l, p.orList[i]? = some l → ∀ c ∈ l.and, (p.channel c).Has (due c + posted i)) ∧
      (∃ f qs, p.failover = some f ∧ f.Queues qs ∧ ↑qs = kept') ∧
      ∑ i ∈ range p.orList.length, posted i + kept' = kept + ks := by
  obtain ⟨hl, posted, kept', hb', hsum⟩ := h.moves hp hb
  refine ⟨posted, kept', fun i l hi c hc => ?_, hb'.kept, ?_⟩
  · have hparent := (hl.tidy hp).parent i l hi c hc
    have hhas := hb'.has c (mem_cnxs_of_getElem? hi hc)
    rwa [← hl.parent, hparent] at hhas
  · rw [length_orList hl]
    exact hsum

/-- In every calm pool that a run reaches, a flush of a connection's store sends its messages in
order and empties it, or stops at the first that is not sent and puts that one behind the others.
A flush of the pool's store hands the first of its messages to every connection of the list, and
the others stay in order. A number of messages that is taken for none is left as it is. -/
theorem flush_in_order {allowed : Pool → PoolOp → Prop} (hrun : Run allowed p) (env : Env)
    (hcalm : { p with env }.Calm) (hb : p.Balanced due kept) :
    (∀ c ∈ p.cnxs, ∃ f qs ret p' f', ∃ fs : List LibPrelude.Frame,
      (p.channel c).store = some f ∧ f.Queues qs ∧
      failoverFlush (.one c) { p with env } = some (ret, p') ∧
      (∀ d, d ≠ c → p'.channel d = { p with env }.channel d) ∧ p'.failover = p.failover ∧
      (p'.channel c).sent = (p.channel c).sent ++ wire fs ∧ (p'.channel c).store = some f' ∧
      if Unnoticed qs then ret = .ok () ∧ fs = [] ∧ f' = f
      else (ret = .ok () ∧ qs = fs.map Frame.content ∧ f'.Queues []) ∨
        ∃ e k rest, ret = .error e ∧ qs = fs.map Frame.content ++ k :: rest ∧
          f'.Queues (rest ++ [k])) ∧
    ∀ i l, p.orList[i]? = some l → ∃ f f' ret p' moved rest,
      p.failover = some f ∧ f.Queues (moved ++ rest) ∧
      failoverFlush (.any i) { p with env } = some (ret, p') ∧
      p'.failover = some f' ∧ f'.Queues rest ∧
      (∀ c ∈ l.and, (p'.channel c).Has (due c + ↑moved)) ∧
      (∀ d, d ∉ l.and → p'.channel d = { p with env }.channel d) ∧
      (ret = .ok () → if Unnoticed (moved ++ rest) then moved = [] else rest = []) := by
  refine ⟨fun c hc => ?_, fun i l hl => ?_⟩
  · obtain ⟨g, hg, -⟩ := hcalm.room
    obtain ⟨fs₀, f, qs, -, -, hf, hq, -⟩ := hb.has c hc
    have hroom := hcalm.room_store hc hf hg
    obtain ⟨ret, p', f', fs, hflush, -, hothers, hfailover, -, -, hsent, hf', hret⟩ :=
      failoverFlush_one (hcalm.atomic c hc) hf hq fun k hk =>
        (hq.room hroom hk).mono (Nat.le_add_right _ _)
    exact ⟨f, qs, ret, p', f', fs, hf, hq, hflush, hothers, hfailover, hsent, hf', hret⟩
  · obtain ⟨f, f', ret, p', moved, rest, hf, hq, -, hflush, hf', hq', hhas, hothers, hret⟩ :=
      flushAny_spec (hrun.tidy.withEnv env) hl ⟨hb.has, hb.kept⟩ hcalm.atomic
        fun g hg d hd => hcalm.accepts hg hd
    exact ⟨f, f', ret, p', moved, rest, hf, hq, hflush, hf', hq', hhas, hothers, hret⟩

/-- A store that a message of one byte was saved to twice. -/
def keptStore : Failover :=
  let f := journalWrite { (⟨.empty, 0, [], 0, 0, 0, false⟩ : Failover) with
    data := ⟨shortLast.bytes, by decide⟩
    count := 1 }
  journalWrite { f with data := ⟨shortLast.bytes ++ shortLast.bytes, by decide⟩, count := 2 }

theorem queues_keptStore : keptStore.Queues [shortLast.content, shortLast.content] :=
  have hw : shortLast.Whole := ⟨rfl, rfl, List.cons_ne_nil 0 [], by decide⟩
  (Failover.Queues.empty.appended hw ⟨_, rfl, rfl⟩).appended hw ⟨_, rfl, rfl⟩

/-- The only connection was refused, and another one is alive when it is added. The stores of the
pool and of the new connection were opened with messages in them. -/
def keepingPool : Pool :=
  (((new false true).step .quiet (.string ['a'])).bind fun p =>
    (p.step { Env.quiet with stores := [.ok keptStore] } .init).bind fun p =>
      p.step { Env.quiet with stores := [.ok keptStore] } (.add true 4)).getD (new false true)

theorem run_keepingPool : Run (fun _ _ => True) keepingPool := by
  have hnew : Run (fun _ _ => True) (new false true) := .new false true
  have hstring := hnew.step .quiet (.string ['a']) trivial rfl
  have hinit := hstring.step { Env.quiet with stores := [.ok keptStore] } .init trivial rfl
  exact hinit.step { Env.quiet with stores := [.ok keptStore] } (.add true 4) trivial rfl

theorem mem_keepingPool {c : ℕ} (hc : c ∈ keepingPool.cnxs) : c = 0 ∨ c = 1 := by
  simpa using (show c ∈ [0, 1] from hc)

theorem calm_keepingPool : { keepingPool with env := .quiet }.Calm := by
  have hunread : keptStore.unread = 34 := by decide
  refine ⟨fun c _ => atomic_of_nil rfl rfl, keptStore, rfl,
    (by decide : 34 + 2 ^ 28 < 2 ^ 63), fun c hc => ?_⟩
  rw [hunread]
  obtain rfl | rfl := mem_keepingPool hc
  · exact ⟨_, rfl, (by decide : 0 + (34 + 2 ^ 28) < 2 ^ 63)⟩
  · exact ⟨_, rfl, (by decide : 34 + (34 + 2 ^ 28) < 2 ^ 63)⟩

theorem balanced_keepingPool :
    keepingPool.Balanced (fun c => ↑(if c = 1 then [shortLast.content, shortLast.content] else []))
      ↑[shortLast.content, shortLast.content] := by
  refine ⟨fun c hc => ?_, keptStore, _, rfl, queues_keptStore, rfl⟩
  obtain rfl | rfl := mem_keepingPool hc
  · exact ⟨[], _, [], rfl, List.forall_mem_nil _, rfl, .empty, rfl⟩
  · exact ⟨[], _, _, rfl, List.forall_mem_nil _, rfl, queues_keptStore, rfl⟩

/-- Both messages of the new connection are sent, and the first one of the pool goes to the list,
where the dead connection stores it. -/
theorem flush_in_order_kept :
    (∃ p', ∃ fs : List LibPrelude.Frame,
      failoverFlush (.one 1) { keepingPool with env := .quiet } = some (.ok (), p') ∧
      fs.length = 2 ∧ (p'.channel 1).sent = wire fs) ∧
    ∃ e p' f', ∃ moved rest : List Content,
      failoverFlush (.any 0) { keepingPool with env := .quiet } = some (.error e, p') ∧
      p'.failover = some f' ∧ f'.Queues rest ∧ moved.length = 1 ∧ rest.length = 1 ∧
      (p'.channel 0).Has ↑moved := by
  obtain ⟨hone, hany⟩ := flush_in_order run_keepingPool .quiet calm_keepingPool balanced_keepingPool
  constructor
  · obtain ⟨f, qs, ret, p', f', fs, hf, hq, hflush, -, -, hsent, -, hret⟩ := hone 1 (by decide)
    obtain ⟨p₀, hp₀⟩ : ∃ p', failoverFlush (.one 1) { keepingPool with env := .quiet } =
      some (.ok (), p') := ⟨_, rfl⟩
    cases hp₀.symm.trans hflush
    have hlen : qs.length = 2 := by
      rw [← hq.count_eq]
      cases hf
      rfl
    rw [if_neg (by rw [Unnoticed, hlen]; decide)] at hret
    obtain ⟨-, rfl, -⟩ | ⟨e, k, rest, he, -⟩ := hret
    · exact ⟨p', fs, hflush, by rwa [List.length_map] at hlen, hsent⟩
    · cases he
  · obtain ⟨f, f', ret, p', moved, rest, hf, hq, hflush, hf', hq', hhas, -⟩ :=
      hany 0 ⟨[0, 1], 1, 2⟩ rfl
    obtain ⟨e, p₀, f₀, hp₀, hf₀, hcount⟩ : ∃ e p' f,
      failoverFlush (.any 0) { keepingPool with env := .quiet } = some (.error e, p') ∧
        p'.failover = some f ∧ f.count.toNat = 1 := ⟨_, _, _, rfl, rfl, rfl⟩
    cases hp₀.symm.trans hflush
    cases hf₀.symm.trans hf'
    have hlen : (moved ++ rest).length = 2 := by
      rw [← hq.count_eq]
      cases hf
      rfl
    have hrest : rest.length = 1 := hq'.count_eq.symm.trans hcount
    rw [List.length_append] at hlen
    refine ⟨e, p', f', moved, rest, hflush, hf', hq', by omega, hrest, ?_⟩
    have := hhas 0 List.mem_cons_self
    simpa using this

theorem carries_shortLast : (Msg.ofFrame shortLast).Carries shortLast.content :=
  ⟨(Msg.emits_ofFrame shortLast rfl (List.cons_ne_nil 0 []) (by decide)).holds, rfl, rfl, rfl, rfl,
    by decide⟩

theorem calm_storingPool : { storingPool with env := .quiet }.Calm := by
  have hroom : Failover.Room ⟨.empty, 0, [], 0, 0, 0, false⟩ (2 ^ 28) :=
    (by decide : 0 + 2 ^ 28 < 2 ^ 63)
  have hunread : Failover.unread ⟨.empty, 0, [], 0, 0, 0, false⟩ = 0 := rfl
  refine ⟨fun c _ => atomic_of_nil rfl rfl, _, rfl, hroom, fun c hc => ?_⟩
  obtain rfl : c = 0 := List.mem_singleton.mp hc
  exact ⟨_, rfl, by rw [hunread, Nat.zero_add]; exact hroom⟩

theorem balanced_storingPool : storingPool.Balanced (fun _ => 0) 0 := by
  refine ⟨fun c hc => ?_, _, [], rfl, .empty, rfl⟩
  obtain rfl : c = 0 := List.mem_singleton.mp hc
  exact ⟨[], _, [], rfl, List.forall_mem_nil _, rfl, .empty, rfl⟩

theorem broadcasts_accounted_storing : ∃ p, Traffic storingPool {shortLast.content} p ∧
    ∃ posted : ℕ → Multiset Content, ∃ kept',
      (∀ i l, p.orList[i]? = some l → ∀ c ∈ l.and, (p.channel c).Has (0 + posted i)) ∧
      (∃ f qs, p.failover = some f ∧ f.Queues qs ∧ ↑qs = kept') ∧
      ∑ i ∈ range p.orList.length, posted i + kept' = 0 + {shortLast.content} := by
  have hm := carries_shortLast
  have hcalm := calm_storingPool
  obtain ⟨f, hf, hroomf, hroom⟩ := hcalm.room
  obtain ⟨p, hb, -⟩ := broadcast_spec (run_storingPool.tidy.withEnv .quiet) hm.holds hm.start
    (fun c hc => (hroom c hc).mono (by have := hm.size_lt; unfold Content.size at this; omega)) hf
    (hroomf.mono hm.size_lt.le)
  have hfreed : ¬ ∃ c ∈ storingPool.cnxs, (storingPool.cnx c).freed = true := by
    rintro ⟨c, hc, hfreed⟩
    obtain rfl : c = 0 := List.mem_singleton.mp hc
    cases hfreed
  have hstep : storingPool.step .quiet (.broadcast (Msg.ofFrame shortLast)) = some p := by
    rw [step, if_neg hfreed]
    exact hb
  have htraffic := Traffic.start.broadcast .quiet hcalm hm hstep
  rw [zero_add] at htraffic
  exact ⟨p, htraffic, broadcasts_accounted run_storingPool.tidy balanced_storingPool htraffic⟩

end Pool

end LibPrelude
