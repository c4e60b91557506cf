import LibPrelude.Pool.Deaths

/-! # What sends and flushes do to a pool

A send kills nobody; a broadcast or a flush that fails has killed a connection whose
descriptor was not reliable. A connection that comes back alive has its descriptor
polled, unless it died again or another connection of its list did.
-/

namespace LibPrelude

namespace Pool

variable {p : Pool} {c : ℕ}

theorem dies_accept (p : Pool) (c : ℕ) (bs : List UInt8) {left : List (Except ErrorCode ℕ)}
    (hl : ∀ r ∈ left, r ∈ p.env.writes c) : Dies ∅ p (p.accept c bs left) := by
  have hcnx (d : ℕ) : (p.accept c bs left).cnx d =
      if d = c then { p.cnx c with sent := (p.cnx c).sent ++ bs } else p.cnx d := by
    simp [accept, modifyCnx, Function.update_apply]
  refine .of_frame ⟨fun d => ?_, fun d => ?_, fun d => ?_, rfl, rfl, rfl, rfl, rfl, rfl, rfl,
    fun _ h => h, fun d r hr => ?_, fun _ _ h => h⟩ (fun d => ?_) (fun d => ?_) rfl rfl
  all_goals try
    rw [hcnx]
    split_ifs with hd
    · rw [hd]
    · rfl
  change r ∈ Function.update p.env.writes c left d at hr
  rw [Function.update_apply] at hr
  split_ifs at hr with hd
  · rw [hd]
    exact hl r hr
  · exact hr

theorem dies_write (c : ℕ) (buf : List UInt8) (p : Pool) : Dies ∅ p (p.write c buf).2 := by
  unfold write
  split
  · exact dies_accept p c _ nofun
  · next e left hw =>
    exact dies_accept p c _ fun r hr => by rw [hw]; exact List.mem_cons_of_mem _ hr
  · next n left hw =>
    exact dies_accept p c _ fun r hr => by rw [hw]; exact List.mem_cons_of_mem _ hr

theorem dies_modifyFailover (p : Pool) (c : ℕ) (store : Option Failover) :
    Dies ∅ p (p.modifyCnx c fun x => { x with failover := store }) := by
  have hcnx (d : ℕ) : (p.modifyCnx c fun x => { x with failover := store }).cnx d =
      if d = c then { p.cnx c with failover := store } else p.cnx d := by
    simp [modifyCnx, Function.update_apply]
  refine .of_frame ⟨fun d => ?_, fun d => ?_, fun d => ?_, rfl, rfl, rfl, rfl, rfl, rfl, rfl,
    fun _ h => h, fun _ _ h => h, fun _ _ h => h⟩ (fun d => ?_) (fun d => ?_) rfl rfl
  all_goals
    rw [hcnx]
    split_ifs with hd
    · rw [hd]
    · rfl

/-- A descriptor that accepts all that it is offered, sooner or later, and a peer that stays. -/
def Reliable (p : Pool) (c : ℕ) : Prop :=
  (∀ e, .error e ∈ p.env.writes c → e = .eagain) ∧ ∀ r ∈ p.env.polls c, r.1 = .ok ()

theorem Frame.reliable {p p' : Pool} (h : Frame p p') {c : ℕ} (hr : p.Reliable c) :
    p'.Reliable c :=
  ⟨fun e he => hr.1 e (h.writes c _ he), fun r hr' => hr.2 r (h.polls c r hr')⟩

theorem dies_poll (c : ℕ) (p : Pool) : Dies ∅ p (isTcpConnectionStillEstablished c p).2 := by
  unfold isTcpConnectionStillEstablished
  split
  · exact .refl p
  · next r left hw =>
    refine .of_frame ⟨fun _ => rfl, fun _ => rfl, fun _ => rfl, rfl, rfl, rfl, rfl, rfl, rfl, rfl,
      fun _ h => h, fun _ _ h => h, fun d r' hr => ?_⟩ (fun _ => rfl) (fun _ => rfl) rfl rfl
    change r' ∈ Function.update p.env.polls c left d at hr
    rw [Function.update_apply] at hr
    split_ifs at hr with hd
    · rw [hd, hw]
      exact List.mem_cons_of_mem _ hr
    · exact hr

/-- A send kills nobody, and a reliable descriptor does not make it fail. -/
theorem dies_preludeConnectionSend {m m' : Msg} {p' : Pool} {ret : Ret}
    (h : preludeConnectionSend c m p = some (ret, m', p')) :
    Dies ∅ p p' ∧ ((p.cnx c).established = true → p.Reliable c →
      ret = .ok () ∨ ret = .error .eagain) := by
  unfold preludeConnectionSend at h
  by_cases he : (p.cnx c).established = true
  · rw [if_neg (not_not.mpr he)] at h
    simp only [Option.map_eq_some_iff] at h
    obtain ⟨⟨ret₁, m₁, p₁⟩, hw, h⟩ := h
    have hwrite : Dies ∅ p p₁ ∧ (p.Reliable c → ret₁ = .ok () ∨ ret₁ = .error .eagain) := by
      rcases preludeMsgWrite_cases hw with ⟨rfl, rfl⟩ | ⟨buf, s, hs, rfl, herr⟩
      · exact ⟨.refl _, fun _ => .inl rfl⟩
      · have hs' : Dies ∅ p s := by
          rcases hs with rfl | rfl
          · exact .refl _
          · exact dies_tick p
        refine ⟨hs'.empty_trans (dies_write c buf s), fun hr => ?_⟩
        cases ret₁ with
        | ok => exact .inl rfl
        | error e =>
          refine .inr (congrArg _ ?_)
          rcases herr e rfl with he | he
          · exact he
          · refine (hs'.reliable hr).1 e ?_
            unfold write at he
            split at he
            · cases he
            · next e' left hw =>
              cases he
              rw [hw]
              exact List.mem_cons_self
            · cases he
    cases ret₁ with
    | error e =>
      simp only [Prod.mk.injEq] at h
      obtain ⟨rfl, -, rfl⟩ := h
      exact ⟨hwrite.1, fun _ => hwrite.2⟩
    | ok =>
      simp only [Prod.mk.injEq] at h
      obtain ⟨rfl, -, rfl⟩ := h
      refine ⟨hwrite.1.empty_trans (dies_poll c p₁), fun _ hr => .inl ?_⟩
      have hr₁ := hwrite.1.reliable hr
      unfold isTcpConnectionStillEstablished
      split
      · rfl
      · next r left hp => exact hr₁.2 r (by rw [hp]; exact List.mem_cons_self)
  · rw [if_pos he] at h
    simp only [Option.some.injEq, Prod.mk.injEq] at h
    obtain ⟨-, -, rfl⟩ := h
    exact ⟨.refl p, fun h => absurd h he⟩

theorem dies_doSendLoop {fuel : ℕ} {m m' : Msg} {p p' : Pool} {ret : Ret}
    (h : doSendLoop c fuel m p = some (ret, m', p')) :
    Dies ∅ p p' ∧ ((p.cnx c).established = true → p.Reliable c → ret = .ok ()) := by
  induction fuel generalizing m p with
  | zero => cases h
  | succ fuel ih =>
    simp only [doSendLoop, Option.bind_eq_some_iff] at h
    obtain ⟨⟨ret₁, m₁, p₁⟩, hs, h⟩ := h
    obtain ⟨h₁, hr₁⟩ := dies_preludeConnectionSend hs
    split_ifs at h with hag
    · obtain ⟨h₂, hr₂⟩ := ih h
      refine ⟨h₁.empty_trans h₂, fun he hr => hr₂ ?_ (h₁.reliable hr)⟩
      exact (h₁.established c).mpr ⟨he, Finset.notMem_empty c⟩
    · simp only [Option.some.injEq, Prod.mk.injEq] at h
      obtain ⟨rfl, -, rfl⟩ := h
      exact ⟨h₁, fun he hr => (hr₁ he hr).resolve_right hag⟩

theorem dies_doSend {m m' : Msg} {p' : Pool} {ret : Ret} (h : doSend c m p = some (ret, m', p')) :
    Dies ∅ p p' ∧ ((p.cnx c).established = true → p.Reliable c → ret = .ok ()) :=
  dies_doSendLoop h

theorem dies_failoverSaveMsg {store store' : Option Failover} {m m' : Msg} {p' : Pool}
    (h : failoverSaveMsg store m p = some (store', m', p')) : Dies ∅ p p' := by
  unfold failoverSaveMsg at h
  split at h
  · simp only [Option.some.injEq, Prod.mk.injEq] at h
    obtain ⟨-, -, rfl⟩ := h
    exact .refl p
  · simp only [Option.map_eq_some_iff, Prod.mk.injEq] at h
    obtain ⟨_, -, -, -, rfl⟩ := h
    exact dies_tick p

theorem dies_saveToCnx {m m' : Msg} {p' : Pool} (h : saveToCnx c m p = some (m', p')) :
    Dies ∅ p p' := by
  simp only [saveToCnx, Option.map_eq_some_iff, Prod.mk.injEq] at h
  obtain ⟨⟨store, m₁, p₁⟩, hsave, -, rfl⟩ := h
  exact (dies_failoverSaveMsg hsave).empty_trans (dies_modifyFailover p₁ c store)

theorem dies_setPoolFailover (p : Pool) (store : Option Failover) :
    Dies ∅ p { p with failover := store } :=
  .of_frame ⟨fun _ => rfl, fun _ => rfl, fun _ => rfl, rfl, rfl, rfl, rfl, rfl, rfl, rfl,
    fun _ h => h, fun _ _ h => h, fun _ _ h => h⟩ (fun _ => rfl) (fun _ => rfl) rfl rfl

theorem dies_setStore (p : Pool) (f : Failover) (target : Target) :
    Dies ∅ p (p.setStore f target) := by
  cases target with
  | one c => exact dies_modifyFailover p c (some f)
  | any i => exact dies_setPoolFailover p (some f)

/-- Whoever dies of a broadcast, one of the connections sent to was not reliable and died. -/
theorem dies_broadcastMessage {cs : List ℕ} {m m' : Msg} {p' : Pool}
    (hp : p.ClosesFinal) (hcs : ∀ d ∈ cs, d ∈ p.cnxs)
    (h : broadcastMessage cs m p = some (m', p')) :
    ∃ K, Dies K p p' ∧ (K.Nonempty → ∃ d ∈ cs, d ∈ K ∧ ¬ p.Reliable d) := by
  induction cs generalizing m p with
  | nil =>
    simp only [broadcastMessage, Option.some.injEq, Prod.mk.injEq] at h
    obtain ⟨-, rfl⟩ := h
    exact ⟨∅, .refl p, fun h => absurd h Finset.not_nonempty_empty⟩
  | cons c cs ih =>
    rw [List.forall_mem_cons] at hcs
    have later {q : Pool} {m₁ : Msg} (hq : Dies ∅ p q)
      (h : broadcastMessage cs m₁ q = some (m', p')) :
        ∃ K, Dies K p p' ∧ (K.Nonempty → ∃ d ∈ c :: cs, d ∈ K ∧ ¬ p.Reliable d) := by
      obtain ⟨K, hK, hne⟩ := ih (hq.closesFinal hp) (by rw [hq.cnxs]; exact hcs.2) h
      refine ⟨∅ ∪ K, hq.trans hK, ?_⟩
      rw [Finset.empty_union]
      intro hK'
      obtain ⟨d, hd, hdK, hr⟩ := hne hK'
      exact ⟨d, List.mem_cons_of_mem _ hd, hdK, fun h => hr (hq.reliable h)⟩
    simp only [broadcastMessage] at h
    split_ifs at h with he
    · simp only [Option.bind_eq_some_iff] at h
      obtain ⟨⟨ret, m₁, p₁⟩, hsend, h⟩ := h
      obtain ⟨h₁, hr⟩ := dies_doSend hsend
      cases ret with
      | ok => exact later h₁ h
      | error e =>
        simp only [Option.bind_eq_some_iff] at h
        obtain ⟨⟨m₂, p₂⟩, hsave, h⟩ := h
        have hc₁ : c ∈ p₁.cnxs := by rw [h₁.cnxs]; exact hcs.1
        have he₁ : (p₁.cnx c).established = true :=
          (h₁.established c).mpr ⟨he, Finset.notMem_empty c⟩
        obtain ⟨L, hcL, h₂⟩ := dies_setStateDead (h₁.closesFinal hp) hc₁ he₁ true
        have h₃ := (h₁.trans h₂).trans (dies_saveToCnx hsave)
        obtain ⟨K, hK, -⟩ := ih (h₃.closesFinal hp) (by rw [h₃.cnxs]; exact hcs.2) h
        refine ⟨_, h₃.trans hK, fun _ => ⟨c, List.mem_cons_self, by simp [hcL], fun hrel => ?_⟩⟩
        cases hr he hrel
    · simp only [Option.bind_eq_some_iff] at h
      obtain ⟨⟨m₁, p₁⟩, hsave, h⟩ := h
      exact later (dies_saveToCnx hsave) h

/-- A connection is linked once, and its parent is the list that it is linked in. -/
structure Linked (p : Pool) : Prop where
  nodup : p.cnxs.Nodup
  parent : ∀ (i : ℕ) l, p.orList[i]? = some l → ∀ c ∈ l.and, (p.cnx c).parent = i
  lt_next : ∀ c ∈ p.cnxs, c < p.next

theorem mem_cnxs_of_getElem? {i : ℕ} {l : CnxList} (hl : p.orList[i]? = some l) (hc : c ∈ l.and) :
    c ∈ p.cnxs :=
  List.mem_flatMap.mpr ⟨l, List.mem_of_getElem? hl, hc⟩

theorem Linked.exists_list (h : p.Linked) (hc : c ∈ p.cnxs) :
    ∃ l, p.orList[(p.cnx c).parent]? = some l ∧ c ∈ l.and := by
  obtain ⟨l, hl, hcl⟩ := List.mem_flatMap.mp hc
  obtain ⟨i, hi⟩ := List.mem_iff_getElem?.mp hl
  exact ⟨l, by rw [h.parent i l hi c hcl, hi], hcl⟩

theorem Dies.linked' {K : Finset ℕ} {p' : Pool} (h : Dies K p p') (hl : p.Linked) : p'.Linked where
  nodup := h.cnxs ▸ hl.nodup
  parent i l hi d hd := by
    rw [h.orList, Option.map_eq_some_iff] at hi
    obtain ⟨l', hl', rfl⟩ := hi
    rw [h.parent]
    exact hl.parent i l' hl' d hd
  lt_next d hd := by
    rw [h.next]
    exact hl.lt_next d (h.cnxs ▸ hd)

/-- A target that a flush sends to the connections `S`, all of them in order. -/
structure Flushable (p : Pool) (target : Target) (S : List ℕ) : Prop where
  closes : p.ClosesFinal
  linked : ∀ d ∈ S, d ∈ p.cnxs
  target : match target with
    | .one c => S = [c] ∧ (p.cnx c).established = true
    | .any i => ∃ l, p.orList[i]? = some l ∧ l.and = S ∧ l.dead = 0 ∧
      ∀ d ∈ S, (p.cnx d).parent = i

variable {target : Target} {S : List ℕ}

theorem Flushable.of_dies {K : Finset ℕ} {p' : Pool} (h : p.Flushable target S) (hd : Dies K p p')
    (hS : ∀ d ∈ S, d ∉ K) (hi : ∀ i, target = .any i → (p'.listAt i).dead = 0) :
    p'.Flushable target S where
  closes := hd.closesFinal h.closes
  linked := hd.cnxs.symm ▸ h.linked
  target := by
    have ht := h.target
    cases target with
    | one c =>
      obtain ⟨rfl, he⟩ := ht
      exact ⟨rfl, (hd.established c).mpr ⟨he, hS c List.mem_cons_self⟩⟩
    | any i =>
      obtain ⟨l, hl, rfl, h0, hparent⟩ := ht
      have hl' := hd.orList i
      rw [hl, Option.map_some] at hl'
      refine ⟨_, hl', rfl, ?_, fun d hd' => (hd.parent d).trans (hparent d hd')⟩
      have := hi i rfl
      rwa [listAt, List.getD_eq_getElem?_getD, hl'] at this

/-- Sending a stored message fails only if a connection dies that was not reliable. -/
theorem dies_flushMsg {m : Msg} {p' : Pool} {ret : Ret} (hf : p.Flushable target S)
    (h : flushMsg m p target = some (ret, p')) :
    ∃ K, Dies K p p' ∧ (ret ≠ .ok () → ∃ d ∈ S, d ∈ K ∧ ¬ p.Reliable d) ∧
      (ret = .ok () → (∀ d ∈ S, d ∉ K) ∧ p'.Flushable target S) := by
  have ht := hf.target
  cases target with
  | one c =>
    obtain ⟨rfl, he⟩ := ht
    simp only [flushMsg, Option.bind_eq_some_iff] at h
    obtain ⟨⟨ret₁, m₁, p₁⟩, hsend, h⟩ := h
    obtain ⟨h₁, hrel⟩ := dies_doSend hsend
    cases ret₁ with
    | ok =>
      simp only [Option.some.injEq, Prod.mk.injEq] at h
      obtain ⟨rfl, rfl⟩ := h
      exact ⟨∅, h₁, fun h => absurd rfl h, fun _ => ⟨fun _ _ => Finset.notMem_empty _,
        hf.of_dies h₁ (fun _ _ => Finset.notMem_empty _) nofun⟩⟩
    | error e =>
      simp only [Option.map_eq_some_iff, Prod.mk.injEq] at h
      obtain ⟨⟨m₂, p₂⟩, hsave, rfl, rfl⟩ := h
      have hc₁ : c ∈ p₁.cnxs := by rw [h₁.cnxs]; exact hf.linked c List.mem_cons_self
      have he₁ : (p₁.cnx c).established = true :=
        (h₁.established c).mpr ⟨he, Finset.notMem_empty c⟩
      obtain ⟨L, hcL, h₂⟩ := dies_setStateDead (h₁.closesFinal hf.closes) hc₁ he₁ true
      refine ⟨_, (h₁.trans h₂).trans (dies_saveToCnx hsave), fun _ => ?_, nofun⟩
      refine ⟨c, List.mem_cons_self, by simp [hcL], fun hr => ?_⟩
      cases hrel he hr
  | any i =>
    obtain ⟨l, hl, rfl, h0, hparent⟩ := ht
    have hlist : p.listAt i = l := by rw [listAt, List.getD_eq_getElem?_getD, hl]; rfl
    simp only [flushMsg, hlist, Option.map_eq_some_iff, Prod.mk.injEq] at h
    obtain ⟨⟨m₁, p₁⟩, hb, hret, rfl⟩ := h
    obtain ⟨K, hK, hne⟩ := dies_broadcastMessage hf.closes hf.linked hb
    have hdead : (p₁.listAt i).dead = (K.filter fun c => (p.cnx c).parent = i).card := by
      rw [listAt, List.getD_eq_getElem?_getD, hK.orList, hl]
      simp [h0]
    refine ⟨K, hK, fun herr => hne ?_, fun hok => ?_⟩
    · have hpos : (p₁.listAt i).dead ≠ 0 := by
        intro hz
        rw [if_neg (not_not.mpr hz)] at hret
        exact herr hret.symm
      rw [hdead, Finset.card_ne_zero] at hpos
      exact hpos.mono (Finset.filter_subset _ _)
    · have hz : (p₁.listAt i).dead = 0 := by
        by_contra hnz
        rw [if_pos hnz, hok] at hret
        cases hret
      have hS : ∀ d ∈ l.and, d ∉ K := by
        intro d hd hdK
        rw [hdead, Finset.card_eq_zero] at hz
        exact Finset.notMem_empty d (hz ▸ Finset.mem_filter.mpr ⟨hdK, hparent d hd⟩)
      exact ⟨hS, hf.of_dies hK hS fun j hj => by cases hj; exact hz⟩

theorem dies_failoverFlushLoop {fuel : ℕ} {p' : Pool} {ret : Ret} (hf : p.Flushable target S)
    (h : failoverFlushLoop target fuel p = some (ret, p')) :
    ∃ K, Dies K p p' ∧ (ret ≠ .ok () → ∃ d ∈ S, d ∈ K ∧ ¬ p.Reliable d) ∧
      (ret = .ok () → ∀ d ∈ S, d ∉ K) := by
  induction fuel generalizing p with
  | zero => cases h
  | succ fuel ih =>
    have stop {q : Pool} (hq : Dies ∅ p q) (hret : ret = .ok ()) (hp' : q = p') :
        ∃ K, Dies K p p' ∧ (ret ≠ .ok () → ∃ d ∈ S, d ∈ K ∧ ¬ p.Reliable d) ∧
          (ret = .ok () → ∀ d ∈ S, d ∉ K) :=
      ⟨∅, hp' ▸ hq, fun h => absurd hret h, fun _ _ _ => Finset.notMem_empty _⟩
    rw [failoverFlushLoop] at h
    cases hstore : p.store target with
    | none =>
      simp only [hstore, Option.some.injEq, Prod.mk.injEq] at h
      exact stop (.refl p) h.1.symm h.2
    | some f =>
      simp only [hstore, Option.bind_eq_some_iff] at h
      obtain ⟨⟨size, msg, f'⟩, -, h⟩ := h
      have hset := dies_setStore p f' target
      have hi : ∀ i, target = .any i → ((p.setStore f' target).listAt i).dead = 0 := by
        rintro i rfl
        obtain ⟨l, hl, -, h0, -⟩ := hf.target
        have : (p.setStore f' (.any i)).listAt i = l := by
          change p.orList.getD i _ = l
          rw [List.getD_eq_getElem?_getD, hl]
          rfl
        rw [this, h0]
      have hf' := hf.of_dies hset (fun _ _ => Finset.notMem_empty _) hi
      rcases size with e | size
      · simp only [Option.some.injEq, Prod.mk.injEq] at h
        exact stop hset h.1.symm h.2
      rcases msg with - | m
      · simp only [Option.some.injEq, Prod.mk.injEq] at h
        exact stop hset h.1.symm h.2
      simp only at h
      split_ifs at h
      · simp only [Option.some.injEq, Prod.mk.injEq] at h
        exact stop hset h.1.symm h.2
      simp only [Option.bind_eq_some_iff] at h
      obtain ⟨⟨ret₁, p₁⟩, hmsg, h⟩ := h
      obtain ⟨K, hK, herr, hok⟩ := dies_flushMsg hf' hmsg
      have h₁ := hset.trans hK
      rw [Finset.empty_union] at h₁
      cases ret₁ with
      | error e =>
        simp only [Option.some.injEq, Prod.mk.injEq] at h
        obtain ⟨rfl, rfl⟩ := h
        refine ⟨K, h₁, fun _ => ?_, nofun⟩
        obtain ⟨d, hd, hdK, hr⟩ := herr nofun
        exact ⟨d, hd, hdK, fun h => hr (hset.reliable h)⟩
      | ok =>
        obtain ⟨hS, hf₁⟩ := hok rfl
        obtain ⟨L, hL, herr', hok'⟩ := ih hf₁ h
        refine ⟨K ∪ L, h₁.trans hL, fun hret => ?_, fun hret d hd hdK => ?_⟩
        · obtain ⟨d, hd, hdL, hr⟩ := herr' hret
          exact ⟨d, hd, Finset.mem_union_right _ hdL, fun h => hr (h₁.reliable h)⟩
        · rcases Finset.mem_union.mp hdK with hdK | hdL
          · exact hS d hd hdK
          · exact hok' hret d hd hdL

/-- A flush that fails has killed a connection that was not reliable; one that does not fail has
killed none that it sent to. -/
theorem dies_failoverFlush {p' : Pool} {ret : Ret} (hf : p.Flushable target S)
    (h : failoverFlush target p = some (ret, p')) :
    ∃ K, Dies K p p' ∧ (ret ≠ .ok () → ∃ d ∈ S, d ∈ K ∧ ¬ p.Reliable d) ∧
      (ret = .ok () → ∀ d ∈ S, d ∉ K) := by
  have stop (hret : .ok () = ret) (hp' : p = p') :
      ∃ K, Dies K p p' ∧ (ret ≠ .ok () → ∃ d ∈ S, d ∈ K ∧ ¬ p.Reliable d) ∧
        (ret = .ok () → ∀ d ∈ S, d ∉ K) :=
    ⟨∅, hp' ▸ .refl p, fun h => absurd hret.symm h, fun _ _ _ => Finset.notMem_empty _⟩
  unfold failoverFlush at h
  split at h
  · simp only [Option.some.injEq, Prod.mk.injEq] at h
    exact stop h.1 h.2
  · split_ifs at h
    · simp only [Option.some.injEq, Prod.mk.injEq] at h
      exact stop h.1 h.2
    · exact dies_failoverFlushLoop hf h

/-- The pool in which the callback for a connection that came back alive is run. -/
def revived (p : Pool) (c : ℕ) : Pool :=
  (p.modifyCnx c fun x => { x with timer := false, expire := initialExpirationTime }).modifyParent c
    fun l => { l with dead := l.dead - 1 }

theorem cnx_revived (p : Pool) (c d : ℕ) : (p.revived c).cnx d =
    if d = c then { p.cnx c with timer := false, expire := initialExpirationTime }
    else p.cnx d := by
  simp [revived, modifyParent, modifyCnx, Function.update_apply]

theorem orList_revived (p : Pool) (c : ℕ) : (p.revived c).orList =
    p.orList.modify (p.cnx c).parent fun l => { l with dead := l.dead - 1 } := by
  simp [revived, modifyParent, modifyCnx]

theorem established_revived (p : Pool) (c d : ℕ) :
    ((p.revived c).cnx d).established = (p.cnx d).established := by
  rw [cnx_revived]
  split_ifs with hd
  · rw [hd]
  · rfl

theorem frame_revived (p : Pool) (c : ℕ) : Frame p (p.revived c) := by
  refine ⟨fun d => ?_, fun d => ?_, fun d => ?_, rfl, rfl, rfl, rfl, rfl, rfl, rfl,
    fun _ h => h, fun _ _ h => h, fun _ _ h => h⟩
  all_goals
    rw [cnx_revived]
    split_ifs with hd
    · rw [hd]
    · rfl

theorem cnxs_modify {p p' : Pool} {i : ℕ} {f : CnxList → CnxList}
    (h : p'.orList = p.orList.modify i f) (hf : ∀ l, (f l).and = l.and) : p'.cnxs = p.cnxs := by
  apply cnxs_eq
  intro j
  rw [h, List.getElem?_modify, Option.map_eq_map]
  cases p.orList[j]? with
  | none => rfl
  | some l =>
    split_ifs
    · simp [hf]
    · rfl

theorem cnxs_revived (p : Pool) (c : ℕ) : (p.revived c).cnxs = p.cnxs :=
  cnxs_modify (orList_revived p c) fun _ => rfl

theorem Linked.of_modify {p' : Pool} (hl : p.Linked) {i : ℕ} {f : CnxList → CnxList}
    (h : p'.orList = p.orList.modify i f) (hf : ∀ l, (f l).and = l.and)
    (hparent : ∀ d, (p'.cnx d).parent = (p.cnx d).parent) (hn : p'.next = p.next) :
    p'.Linked := by
  have hcnxs := cnxs_modify h hf
  refine ⟨hcnxs ▸ hl.nodup, fun j l hj d hd => ?_, fun d hd => ?_⟩
  · rw [h, List.getElem?_modify, Option.map_eq_map, Option.map_eq_some_iff] at hj
    obtain ⟨l', hl', rfl⟩ := hj
    rw [hparent]
    refine hl.parent j l' hl' d ?_
    split_ifs at hd
    · rwa [hf] at hd
    · exact hd
  · rw [hn]
    exact hl.lt_next d (hcnxs ▸ hd)

theorem Linked.revived (hl : p.Linked) (c : ℕ) : (p.revived c).Linked :=
  hl.of_modify (orList_revived p c) (fun _ => rfl) (frame_revived p c).parent rfl

/-- Nobody but `c` makes a flush to the list of `c` fail. -/
def OthersReliable (p : Pool) (c : ℕ) : Prop :=
  ∀ d ∈ p.cnxs, (p.cnx d).parent = (p.cnx c).parent → d ≠ c → (p.cnx d).established = true →
    p.Reliable d

/-- The flushes for a connection that its callbacks left alive. The descriptor is polled, unless the
connection died after all or another one of its list was not reliable. -/
theorem setStateAlive_spared {K : Finset ℕ} {g : Bool} {ret : Ret} {p' : Pool} (hl : p.Linked)
    (hp : p.ClosesFinal) (hc : c ∈ p.cnxs) (he : (p.cnx c).established = true)
    (hK : Dies K (p.revived c) (notifyEvent .alive c g (p.revived c))) (hK' : c ∉ K)
    (h : setStateAlive c g p = some (ret, p')) :
    ∃ K q, Dies K (p.revived c) q ∧
      ((p' = q ∧ (c ∈ K ∨ ¬ p.OthersReliable c)) ∨
        (c ∉ K ∧ p' = { q with
          fds := insert (q.cnx c).fd q.fds
          nfd := max ((q.cnx c).fd + 1) q.nfd })) := by
  have hr := frame_revived p c
  obtain ⟨q, hq⟩ : ∃ q, q = notifyEvent .alive c g (p.revived c) := ⟨_, rfl⟩
  rw [← hq] at hK
  have hcq : c ∈ q.cnxs := by
    rw [hK.cnxs, cnxs_revived]
    exact hc
  have heq : (q.cnx c).established = true :=
    (hK.established c).mpr ⟨(established_revived p c c).trans he, hK'⟩
  have hpq : q.ClosesFinal := hK.closesFinal (hr.closesFinal hp)
  have hone : q.Flushable (.one c) [c] :=
    ⟨hpq, by simpa using hcq, rfl, heq⟩
  simp only [setStateAlive, Option.bind_eq_some_iff] at h
  obtain ⟨⟨ret₁, q₁⟩, hflush, h⟩ := h
  change failoverFlush (.one c) (notifyEvent .alive c g (p.revived c)) = _ at hflush
  rw [← hq] at hflush
  obtain ⟨L, hL, herr, hok⟩ := dies_failoverFlush hone hflush
  have hKL := hK.trans hL
  cases ret₁ with
  | error e =>
    simp only [Option.some.injEq, Prod.mk.injEq] at h
    obtain ⟨-, rfl⟩ := h
    obtain ⟨d, hd, hdL, -⟩ := herr nofun
    rw [List.mem_singleton.mp hd] at hdL
    exact ⟨_, _, hKL, .inl ⟨rfl, .inl (Finset.mem_union_right _ hdL)⟩⟩
  | ok =>
    have hcL := hok rfl c List.mem_cons_self
    have hcKL : c ∉ K ∪ L := by
      rw [Finset.mem_union]
      exact fun h => h.elim hK' hcL
    simp only [Option.map_eq_some_iff] at h
    obtain ⟨⟨ret₂, q₂⟩, hflush₂, h⟩ := h
    change (if q₁.failover.isSome ∧
        (q₁.listAt ((notifyEvent .alive c g (p.revived c)).cnx c).parent).dead = 0 then
      failoverFlush (.any ((notifyEvent .alive c g (p.revived c)).cnx c).parent) q₁
      else some (.ok (), q₁)) = some (ret₂, q₂) at hflush₂
    rw [← hq] at hflush₂
    split_ifs at hflush₂ with hcond
    · have hl₁ : q₁.Linked := hKL.linked' (hl.revived c)
      have hparent (d : ℕ) : (q₁.cnx d).parent = (p.cnx d).parent :=
        (hKL.parent d).trans (hr.parent d)
      have hcnxs : q₁.cnxs = p.cnxs := hKL.cnxs.trans (cnxs_revived p c)
      obtain ⟨l, hli, hcl⟩ := hl₁.exists_list (hcnxs ▸ hc)
      rw [hK.parent, hr.parent] at hcond hflush₂
      rw [hparent] at hli
      have hdead : l.dead = 0 := by
        have := hcond.2
        rwa [listAt, List.getD_eq_getElem?_getD, hli] at this
      have hany : q₁.Flushable (.any (p.cnx c).parent) l.and :=
        ⟨hKL.closesFinal (hr.closesFinal hp), fun d hd => mem_cnxs_of_getElem? hli hd,
          l, hli, rfl, hdead, hl₁.parent _ l hli⟩
      obtain ⟨M, hM, herr₂, hok₂⟩ := dies_failoverFlush hany hflush₂
      have hKLM := hKL.trans hM
      cases ret₂ with
      | error e =>
        simp only [Prod.mk.injEq] at h
        obtain ⟨d, hd, hdM, hrel⟩ := herr₂ nofun
        refine ⟨_, _, hKLM, .inl ⟨h.2.symm, ?_⟩⟩
        by_cases hdc : d = c
        · exact .inl (Finset.mem_union_right _ (hdc ▸ hdM))
        · refine .inr fun hothers => hrel (hKL.reliable (hr.reliable (hothers d ?_ ?_ hdc ?_)))
          · rw [← hcnxs]
            exact mem_cnxs_of_getElem? hli hd
          · rw [← hparent, hl₁.parent _ l hli d hd]
          · rw [← established_revived p c d]
            exact ((hKL.established d).mp (hM.alive d hdM)).1
      | ok =>
        simp only [Prod.mk.injEq] at h
        refine ⟨_, _, hKLM, .inr ⟨?_, h.2.symm⟩⟩
        rw [Finset.mem_union]
        exact fun h => h.elim hcKL (hok₂ rfl c hcl)
    · simp only [Option.some.injEq, Prod.mk.injEq] at hflush₂
      obtain ⟨rfl, rfl⟩ := hflush₂
      simp only [Prod.mk.injEq] at h
      exact ⟨_, _, hKL, .inr ⟨hcKL, h.2.symm⟩⟩

end Pool

end LibPrelude
