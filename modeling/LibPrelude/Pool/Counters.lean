import LibPrelude.Pool.Membership

/-! # The counts of dead connections

Each list of a pool has a number for its connections that are dead. A death counts
the connection once and a revival takes one off, so the number is right as long as
only counted connections come back and only uncounted ones fail: the pool itself
does not look which of the two a connection is.
-/

namespace LibPrelude

namespace Pool

/-- The connections of a list that are not alive, but for those in `U`. -/
def notAlive (p : Pool) (U : Finset ℕ) (l : CnxList) : Finset ℕ :=
  l.and.toFinset.filter fun c => (p.cnx c).established = false ∧ c ∉ U

/-- Each list counts its connections that are not alive, but for those in `U`. -/
structure Counts (p : Pool) (U : Finset ℕ) : Prop where
  waiting : ∀ c ∈ U, (p.cnx c).established = false
  dead : ∀ (i : ℕ) l, p.orList[i]? = some l → l.dead = (p.notAlive U l).card

variable {p q : Pool} {c : ℕ} {K U : Finset ℕ}

theorem mem_notAlive {l : CnxList} {d : ℕ} :
    d ∈ p.notAlive U l ↔ d ∈ l.and ∧ (p.cnx d).established = false ∧ d ∉ U := by
  rw [notAlive, Finset.mem_filter, List.mem_toFinset]

theorem Counts.congr (h : p.Counts U) (hl : q.orList = p.orList)
    (hc : ∀ d, (q.cnx d).established = (p.cnx d).established) : q.Counts U where
  waiting d hd := (hc d).trans (h.waiting d hd)
  dead i l hi := by
    have hsame : q.notAlive U l = p.notAlive U l := by
      ext d
      rw [mem_notAlive, mem_notAlive, hc]
    rw [hsame]
    exact h.dead i l (hl ▸ hi)

theorem Linked.mem_iff (h : p.Linked) (hc : c ∈ p.cnxs) {i : ℕ} {l : CnxList}
    (hl : p.orList[i]? = some l) : c ∈ l.and ↔ (p.cnx c).parent = i := by
  refine ⟨h.parent i l hl c, fun hi => ?_⟩
  obtain ⟨l', hl', hcl⟩ := h.exists_list hc
  rw [hi, hl, Option.some.injEq] at hl'
  exact hl' ▸ hcl

theorem Dies.counts (h : Dies K p q) (hl : p.Linked) (hp : p.Counts U) : q.Counts U where
  waiting d hd := by
    rw [← Bool.not_eq_true, h.established]
    exact fun hq => Bool.false_ne_true ((hp.waiting d hd).symm.trans hq.1)
  dead i l hi := by
    rw [h.orList, Option.map_eq_some_iff] at hi
    obtain ⟨l', hl', rfl⟩ := hi
    have hunion : q.notAlive U { l' with
        dead := l'.dead + (K.filter fun c => (p.cnx c).parent = i).card } =
        p.notAlive U l' ∪ K.filter fun c => (p.cnx c).parent = i := by
      ext d
      rw [Finset.mem_union, mem_notAlive, mem_notAlive, Finset.mem_filter, ← Bool.not_eq_true,
        h.established, ← Bool.not_eq_true]
      constructor
      · rintro ⟨hd, hdead, hU⟩
        by_cases he : (p.cnx d).established = true
        · exact .inr ⟨not_not.mp fun hK => hdead ⟨he, hK⟩, hl.parent i l' hl' d hd⟩
        · exact .inl ⟨hd, he, hU⟩
      · rintro (⟨hd, hdead, hU⟩ | ⟨hK, hi⟩)
        · exact ⟨hd, fun hq => hdead hq.1, hU⟩
        · refine ⟨(hl.mem_iff (h.linked d hK) hl').mpr hi, fun hq => hq.2 hK, fun hU => ?_⟩
          exact Bool.false_ne_true ((hp.waiting d hU).symm.trans (h.alive d hK))
    have hdisjoint : Disjoint (p.notAlive U l') (K.filter fun c => (p.cnx c).parent = i) := by
      rw [Finset.disjoint_left]
      intro d hd hK
      exact Bool.false_ne_true
        ((mem_notAlive.mp hd).2.1.symm.trans (h.alive d (Finset.mem_filter.mp hK).1))
    rw [hunion, Finset.card_union_of_disjoint hdisjoint, ← hp.dead i l' hl']

theorem Counts.dying (hp : p.Counts U) (hl : p.Linked) (hc : c ∈ p.cnxs) (hU : c ∈ U) :
    (p.dying c).Counts (U.erase c) where
  waiting d hd := by
    rw [cnx_dying]
    split_ifs
    · rfl
    · exact hp.waiting d (Finset.mem_of_mem_erase hd)
  dead i l hi := by
    have hestablished (d : ℕ) : ((p.dying c).cnx d).established = (p.cnx d).established := by
      rw [cnx_dying]
      split_ifs with hd
      · rw [hd, hp.waiting c hU]
      · rfl
    rw [orList_dying, List.getElem?_modify, Option.map_eq_map, Option.map_eq_some_iff] at hi
    obtain ⟨l', hl', rfl⟩ := hi
    have hmem := hl.mem_iff hc hl'
    split_ifs with hi
    · have hinsert : (p.dying c).notAlive (U.erase c) { l' with dead := l'.dead + 1 } =
          insert c (p.notAlive U l') := by
        ext d
        rw [Finset.mem_insert, mem_notAlive, mem_notAlive, hestablished, Finset.mem_erase]
        by_cases hd : d = c
        · subst hd
          simp [hmem.mpr hi, hp.waiting d hU]
        · simp [hd]
      rw [hinsert, Finset.card_insert_of_notMem fun h => (mem_notAlive.mp h).2.2 hU,
        ← hp.dead i l' hl']
    · have hsame : (p.dying c).notAlive (U.erase c) l' = p.notAlive U l' := by
        ext d
        rw [mem_notAlive, mem_notAlive, hestablished, Finset.mem_erase]
        by_cases hd : d = c
        · subst hd
          simp [mt hmem.mp hi]
        · simp [hd]
      rw [hsame]
      exact hp.dead i l' hl'

/-- A counted connection that came back is taken off the count, and one that waited leaves the
count alone if it is zero. -/
theorem Counts.revived (hp : p.Counts U) (hl : p.Linked) (hc : c ∈ p.cnxs)
    (he : (p.cnx c).established = false) (hU : c ∈ U → (p.listAt (p.cnx c).parent).dead = 0)
    (hlists : q.orList = p.orList) (hparent : (q.cnx c).parent = (p.cnx c).parent)
    (hcnx : ∀ d, d ≠ c → (q.cnx d).established = (p.cnx d).established)
    (heq : (q.cnx c).established = true) : (q.revived c).Counts (U.erase c) where
  waiting d hd := by
    rw [Finset.mem_erase] at hd
    rw [established_revived, hcnx d hd.1]
    exact hp.waiting d hd.2
  dead i l hi := by
    rw [orList_revived, hlists, hparent, List.getElem?_modify, Option.map_eq_map,
      Option.map_eq_some_iff] at hi
    obtain ⟨l', hl', rfl⟩ := hi
    have hmem := hl.mem_iff hc hl'
    have herase (l : CnxList) (hand : l.and = l'.and) :
        (q.revived c).notAlive (U.erase c) l = (p.notAlive U l').erase c := by
      ext d
      rw [Finset.mem_erase, mem_notAlive, mem_notAlive, established_revived, Finset.mem_erase, hand]
      by_cases hd : d = c
      · subst hd
        simp [heq]
      · simp [hd, hcnx d hd]
    have hdead := hp.dead i l' hl'
    split_ifs with hi
    · rw [herase { l' with dead := l'.dead - 1 } rfl]
      change l'.dead - 1 = _
      by_cases hcU : c ∈ U
      · have hzero : l'.dead = 0 := by
          have := hU hcU
          rwa [listAt, hi, List.getD_eq_getElem?_getD, hl'] at this
        rw [Finset.erase_eq_of_notMem fun h => (mem_notAlive.mp h).2.2 hcU]
        omega
      · rw [Finset.card_erase_of_mem (mem_notAlive.mpr ⟨hmem.mpr hi, he, hcU⟩)]
        omega
    · rw [herase _ rfl, Finset.erase_eq_of_notMem fun h => hi (hmem.mp (mem_notAlive.mp h).1)]
      exact hdead

/-! ## Changes of state -/

/-- No message of the store of a connection would be flushed. -/
def Unstored (p : Pool) (c : ℕ) : Prop :=
  ∀ f, (p.cnx c).failover = some f → f.count.toUInt32 = 0

/-- The callbacks for a connection that comes back leave it alive, or nothing is flushed to it. -/
def Revivable (p : Pool) (c : ℕ) : Prop := p.Spares .alive c ∨ p.Unstored c

def SameStores (p q : Pool) : Prop := ∀ d, (q.cnx d).failover = (p.cnx d).failover

theorem sameStores_modifyCnx (p : Pool) (c : ℕ) {f : Cnx → Cnx}
    (hf : (f (p.cnx c)).failover = (p.cnx c).failover) : SameStores p (p.modifyCnx c f) := by
  intro d
  by_cases hd : d = c
  · subst hd
    simpa [modifyCnx] using hf
  · simp [modifyCnx, hd]

theorem SameStores.trans {r : Pool} (h₁ : SameStores p q) (h₂ : SameStores q r) : SameStores p r :=
  fun d => (h₂ d).trans (h₁ d)

theorem sameStores_close (c : ℕ) (p : Pool) : SameStores p (preludeConnectionClose c p).2 := by
  unfold preludeConnectionClose
  split
  · exact fun _ => rfl
  · dsimp only
    split
    · exact sameStores_modifyCnx { p with env := { p.env with closes := p.env.closes.tail } } c rfl
    · exact fun _ => rfl

theorem sameStores_setStateDeadWith {notify : Pool → Pool} (hn : ∀ q, SameStores q (notify q))
    (c : ℕ) (p : Pool) : SameStores p (setStateDeadWith notify c p) := by
  have htimer (q : Pool) : SameStores q (initCnxTimer c q) := by
    unfold initCnxTimer
    split_ifs
    · exact sameStores_modifyCnx q c rfl
    · exact fun _ => rfl
  have h := (sameStores_close c p).trans (q := (preludeConnectionClose c p).2) (htimer
    ((preludeConnectionClose c p).2.modifyParent c fun l => { l with dead := l.dead + 1 }))
  exact fun d => (hn _ d).trans (h d)

theorem sameStores_react (r : Reaction) (p : Pool) : SameStores p (react r p) := by
  induction r generalizing p with
  | done => exact fun _ => rfl
  | kill c nested rest ihn ihr =>
    refine SameStores.trans ?_ (ihr _)
    unfold setConnectionDeadWith
    split
    · exact fun _ => rfl
    split
    · exact fun _ => rfl
    · exact (sameStores_modifyCnx p c rfl).trans (sameStores_setStateDeadWith ihn c _)

theorem sameStores_notifyEvent (ev : Event) (c : ℕ) (g : Bool) (p : Pool) :
    SameStores p (notifyEvent ev c g p) := by
  have h : SameStores p (eventHandler ev c p).2 := sameStores_react _ p.tick
  unfold notifyEvent
  dsimp only
  split_ifs
  · exact h.trans (sameStores_react _ (eventHandler ev c p).2.tick)
  · exact h

theorem failoverFlush_unstored {target : Target}
    (hs : ∀ f, p.store target = some f → f.count.toUInt32 = 0) :
    failoverFlush target p = some (.ok (), p) := by
  unfold failoverFlush
  split
  · rfl
  · next f hf => rw [if_pos (hs f hf)]

theorem listAt_of_getElem? {i : ℕ} {l : CnxList} (hl : p.orList[i]? = some l) :
    p.listAt i = l := by
  rw [listAt, List.getD_eq_getElem?_getD, hl]
  rfl

theorem Dies.dead_ne_zero (h : Dies K p q) (hl : p.Linked) (hc : c ∈ K) :
    (q.listAt (p.cnx c).parent).dead ≠ 0 := by
  obtain ⟨l, hi, -⟩ := hl.exists_list (h.linked c hc)
  have hq := h.orList (p.cnx c).parent
  rw [hi, Option.map_some] at hq
  have hpos : 0 < (K.filter fun d => (p.cnx d).parent = (p.cnx c).parent).card :=
    Finset.card_pos.mpr ⟨c, Finset.mem_filter.mpr ⟨hc, rfl⟩⟩
  rw [listAt_of_getElem? hq]
  change l.dead + _ ≠ 0
  omega

theorem setStateAlive_killed {g : Bool} {ret : Ret} (hl : p.Linked)
    (hK : Dies K (p.revived c) (notifyEvent .alive c g (p.revived c))) (hcK : c ∈ K)
    (hs : p.Unstored c) (h : setStateAlive c g p = some (ret, q)) :
    q = { notifyEvent .alive c g (p.revived c) with
      fds := insert ((notifyEvent .alive c g (p.revived c)).cnx c).fd
        (notifyEvent .alive c g (p.revived c)).fds
      nfd := max (((notifyEvent .alive c g (p.revived c)).cnx c).fd + 1)
        (notifyEvent .alive c g (p.revived c)).nfd } := by
  have hstore := sameStores_notifyEvent .alive c g (p.revived c) c
  have hdead := hK.dead_ne_zero (hl.revived c) hcK
  rw [← hK.parent] at hdead
  have hflush : failoverFlush (.one c) (notifyEvent .alive c g (p.revived c)) =
      some (.ok (), notifyEvent .alive c g (p.revived c)) := by
    refine failoverFlush_unstored fun f hf => hs f ?_
    rw [← hf, store, hstore, cnx_revived, if_pos rfl]
  simp only [setStateAlive] at h
  change (failoverFlush (.one c) (notifyEvent .alive c g (p.revived c))).bind _ = _ at h
  rw [hflush] at h
  simp only [Option.bind_some, Option.map_eq_some_iff] at h
  obtain ⟨⟨ret₁, q₁⟩, hpool, h⟩ := h
  split_ifs at hpool with hcond
  · exact absurd hcond.2 hdead
  · simp only [Option.some.injEq, Prod.mk.injEq] at hpool
    obtain ⟨rfl, rfl⟩ := hpool
    simp only [Prod.mk.injEq] at h
    exact h.2.symm

/-- A connection that comes back is taken off the count, and every death after that is counted. -/
theorem setStateAlive_counts {g : Bool} {ret : Ret} (hl : p.Linked) (hp : p.ClosesFinal)
    (hc : c ∈ p.cnxs) (he : (p.cnx c).established = true) (hr : p.Revivable c)
    (h : setStateAlive c g p = some (ret, q)) (hcounts : (p.revived c).Counts U) :
    q.Counts U ∧ q.ClosesFinal := by
  have hp' := (frame_revived p c).closesFinal hp
  obtain ⟨K, hK, hspared⟩ := dies_notifyEvent hp' .alive c g
  have hl' := hl.revived c
  by_cases hcK : c ∈ K
  · have hs : p.Unstored c := hr.resolve_left fun hs => hspared hs hcK
    rw [setStateAlive_killed hl hK hcK hs h]
    exact ⟨(hK.counts hl' hcounts).congr rfl fun _ => rfl, hK.closesFinal hp'⟩
  · obtain ⟨L, r, hL, ⟨rfl, -⟩ | ⟨-, rfl⟩⟩ := setStateAlive_spared hl hp hc he hK hcK h
    · exact ⟨hL.counts hl' hcounts, hL.closesFinal hp'⟩
    · exact ⟨(hL.counts hl' hcounts).congr rfl fun _ => rfl, hL.closesFinal hp'⟩

theorem setStateDead_closed (g : Bool) (he : (p.cnx c).established = false) :
    setStateDead c g p = { notifyEvent .dead c g (p.dying c) with
      fds := (notifyEvent .dead c g (p.dying c)).fds.erase
        ((notifyEvent .dead c g (p.dying c)).cnx c).fd } := by
  have hsame : (p.modifyCnx c fun x => { x with established := false }) = p := by
    rw [modifyCnx, ← he, Function.update_eq_self]
  simp [setStateDead, setStateDeadWith, preludeConnectionClose, dying, hsame, he]

/-- A waiting connection that fails is counted, and every death after that. -/
theorem setStateDead_counts {g : Bool} (hl : p.Linked) (hp : p.ClosesFinal) (hc : c ∈ p.cnxs)
    (hU : c ∈ U) (hcounts : p.Counts U) :
    (setStateDead c g p).Counts (U.erase c) ∧ (setStateDead c g p).ClosesFinal := by
  have hf := frame_dying p c
  have hp' := hf.closesFinal hp
  obtain ⟨K, hK, -⟩ := dies_notifyEvent hp' .dead c g
  have hl' : (p.dying c).Linked :=
    hl.of_modify (orList_dying p c) (fun _ => rfl) hf.parent hf.next
  rw [setStateDead_closed g (hcounts.waiting c hU)]
  exact ⟨(hK.counts hl' (hcounts.dying hl hc hU)).congr rfl fun _ => rfl, hK.closesFinal hp'⟩

/-! ## Attempts to connect -/

/-- The attempt at `c` is counted rightly when `U` are the connections not counted before it: a
connection that fails was not counted, and one that comes back was, or else nothing is. -/
def AttemptCounts (p : Pool) (U : Finset ℕ) (c : ℕ) : Prop :=
  match p.nextConnect with
  | .refused _ _ => c ∈ U
  | .established _ => (c ∈ U → (p.listAt (p.cnx c).parent).dead = 0) ∧ p.Revivable c

theorem Attempted.closesFinal (h : Attempted c p q) (hp : p.ClosesFinal) : q.ClosesFinal :=
  fun r hr => hp r (h.closes r hr)

theorem sameStores_connect (he : (p.cnx c).established = false) :
    SameStores p (preludeConnectionConnect c p).2 := by
  have henv : SameStores p { p with env := { p.env with connects := p.env.connects.tail } } :=
    fun _ => rfl
  cases hn : p.env.connects.headD (.refused .generic none) with
  | refused e fd =>
    simp only [preludeConnectionConnect, closeConnectionFdBlock_closed he, hn]
    exact henv.trans (sameStores_modifyCnx _ c rfl)
  | established fd =>
    simp only [preludeConnectionConnect, closeConnectionFdBlock_closed he, hn]
    exact henv.trans (sameStores_modifyCnx _ c rfl)

theorem Revivable.of_attempted (hr : p.Revivable c) (h : Attempted c p q)
    (hs : SameStores p q) : q.Revivable c := by
  refine hr.imp (fun hr k => ?_) fun hr f hf => hr f ((hs c).symm.trans hf)
  rw [h.handler, h.globalHandler]
  exact hr k

theorem connected_counts {g : Bool} {ret : Ret} (ht : p.Tidy) (hp : p.ClosesFinal)
    (hc : c ∈ p.cnxs) (he : (p.cnx c).established = false)
    (hU : c ∈ U → (p.listAt (p.cnx c).parent).dead = 0) (hr : p.Revivable c)
    (hcounts : p.Counts U) {p₁ : Pool} {fd : ℕ} (hn : p.nextConnect = .established fd)
    (hconnect : preludeConnectionConnect c p = (.ok (), p₁))
    (halive : setStateAlive c g p₁ = some (ret, q)) :
    q.Counts (U.erase c) ∧ q.ClosesFinal := by
  have hs := sameStores_connect he
  obtain ⟨p₁', hp₁, hattempt, he₁, -⟩ := preludeConnectionConnect_established he hn
  rw [hp₁] at hconnect hs
  cases hconnect
  have ht₁ := hattempt.sameLists.tidy ht
  exact setStateAlive_counts ht₁.toLinked (hattempt.closesFinal hp) (hattempt.cnxs ▸ hc) he₁
    (hr.of_attempted hattempt hs) halive
    (hcounts.revived ht.toLinked hc he hU hattempt.orList (hattempt.parent c)
      hattempt.established he₁)

theorem Tries.counts {g : Bool} (h : Tries c g p q) (ht : p.Tidy) (hp : p.ClosesFinal)
    (hc : c ∈ p.cnxs) (he : (p.cnx c).established = false) (ha : p.AttemptCounts U c)
    (hcounts : p.Counts U) : q.Counts (U.erase c) ∧ q.ClosesFinal := by
  unfold AttemptCounts at ha
  cases hn : p.nextConnect with
  | refused e fd =>
    rw [hn] at ha
    obtain ⟨p₁', hp₁, hattempt, he₁, -⟩ := preludeConnectionConnect_refused he hn
    cases h with
    | refused e p₁ hconnect hq =>
      rw [hp₁] at hconnect
      cases hconnect
      have hcounts₁ : p₁'.Counts U := by
        refine hcounts.congr hattempt.orList fun d => ?_
        by_cases hd : d = c
        · rw [hd, he, he₁]
        · exact hattempt.established d hd
      rw [hq]
      exact setStateDead_counts (hattempt.sameLists.tidy ht).toLinked (hattempt.closesFinal hp)
        (hattempt.cnxs ▸ hc) ha hcounts₁
    | established p₁ ret hconnect halive =>
      rw [hp₁] at hconnect
      cases hconnect
  | established fd =>
    rw [hn] at ha
    cases h with
    | refused e p₁ hconnect hq =>
      obtain ⟨p₁', hp₁, -⟩ := preludeConnectionConnect_established he hn
      rw [hp₁] at hconnect
      cases hconnect
    | established p₁ ret hconnect halive =>
      exact connected_counts ht hp hc he ha.1 ha.2 hcounts hn hconnect halive

/-- An attempt while the pool is initialised. A profile error ends the initialisation before the
connection is counted, so only one that is not the first may not meet it. -/
def InitAttemptCounts (p : Pool) (U : Finset ℕ) (c : ℕ) : Prop :=
  match p.nextConnect with
  | .refused .profile _ => p.initialized = false
  | _ => p.AttemptCounts U c

def InitCounts : Finset ℕ → List ℕ → Pool → Prop
  | _, [], _ => True
  | U, c :: cs, p => ((p.cnx c).established = false → p.InitAttemptCounts U c) ∧
    ∀ tried q, initConnection c p = some (.ok (), tried, q) → InitCounts (U.erase c) cs q

theorem initConnection_counts {ret : Ret} {tried : Bool} (ht : p.Tidy) (hp : p.ClosesFinal)
    (hc : c ∈ p.cnxs) (hi : (p.cnx c).established = false → p.InitAttemptCounts U c)
    (hcounts : p.Counts U) (h : initConnection c p = some (ret, tried, q)) :
    ret = .ok () ∧ q.Counts (U.erase c) ∧ q.ClosesFinal ∨
      ret ≠ .ok () ∧ p.initialized = false := by
  obtain ⟨he, rfl, hret⟩ | ⟨he, rfl, hconnect⟩ | ⟨he, hret, htries, hne⟩ := initConnection_cases h
  · have hcU : c ∉ U := fun hcU => Bool.false_ne_true ((hcounts.waiting c hcU).symm.trans he)
    rw [Finset.erase_eq_of_notMem hcU]
    exact .inl ⟨hret, hcounts, hp⟩
  · refine .inr ⟨by rintro ⟨⟩, ?_⟩
    have hi := hi he
    unfold InitAttemptCounts at hi
    cases hn : p.nextConnect with
    | refused e fd =>
      obtain ⟨p₁', hp₁, -⟩ := preludeConnectionConnect_refused he hn
      rw [hp₁] at hconnect
      cases hconnect
      rwa [hn] at hi
    | established fd =>
      obtain ⟨p₁', hp₁, -⟩ := preludeConnectionConnect_established he hn
      rw [hp₁] at hconnect
      cases hconnect
  · have ha : p.AttemptCounts U c := by
      have hi := hi he
      unfold InitAttemptCounts at hi
      split at hi
      · next fd hn =>
        obtain ⟨p₁', hp₁, -⟩ := preludeConnectionConnect_refused he hn
        exact absurd (congrArg Prod.fst hp₁) hne
      · exact hi
    exact .inl ⟨hret, htries.counts ht hp hc he ha hcounts⟩

theorem initConnections_counts {cs : List ℕ} {ret : Ret} {tried : Bool} (ht : p.Tidy)
    (hp : p.ClosesFinal) (hcs : ∀ c ∈ cs, c ∈ p.cnxs) (hi : InitCounts U cs p)
    (hcounts : p.Counts U) (h : initConnections cs p = some (ret, tried, q)) :
    ret = .ok () ∧ q.Counts (U \ cs.toFinset) ∧ q.ClosesFinal ∨
      ret ≠ .ok () ∧ p.initialized = false := by
  induction cs generalizing U p ret tried with
  | nil =>
    simp only [initConnections, Option.some.injEq, Prod.mk.injEq] at h
    obtain ⟨rfl, -, rfl⟩ := h
    rw [List.toFinset_nil, Finset.sdiff_empty]
    exact .inl ⟨rfl, hcounts, hp⟩
  | cons c cs ih =>
    rw [List.forall_mem_cons] at hcs
    simp only [initConnections, Option.bind_eq_some_iff] at h
    obtain ⟨⟨ret₁, tried₁, p₁⟩, hc, h⟩ := h
    have hsame := sameLists_initConnection hc
    obtain ⟨rfl, hcounts₁, hp₁⟩ | ⟨hret, hinit⟩ :=
      initConnection_counts ht hp hcs.1 hi.1 hcounts hc
    · simp only [Option.map_eq_some_iff, Prod.mk.injEq] at h
      obtain ⟨⟨ret₂, tried₂, p₂⟩, hrest, rfl, -, rfl⟩ := h
      have hsdiff : U \ (c :: cs).toFinset = U.erase c \ cs.toFinset := by
        rw [List.toFinset_cons, Finset.sdiff_insert, Finset.erase_sdiff_comm]
      rw [hsdiff, ← hsame.initialized]
      exact ih (hsame.tidy ht) hp₁ (hsame.cnxs ▸ hcs.2) (hi.2 tried₁ p₁ hc) hcounts₁ hrest
    · cases ret₁ with
      | ok => exact absurd rfl hret
      | error e =>
        simp only [Option.some.injEq, Prod.mk.injEq] at h
        exact .inr ⟨h.1 ▸ hret, hinit⟩

/-! ## Operations -/

/-- What an operation must meet for the lists of an initialised pool to count rightly after it. -/
def CountsKept (p : Pool) : PoolOp → Prop
  | .add established fd => p.initialized = true → p.ClosesFinal ∧ (established = false →
      ∀ q, newConnection 0 false fd p.withList = (.ok (), q) → q.AttemptCounts {p.next} p.next)
  | .del c => p.initialized = true → c ∉ p.cnxs
  | .dead _ => p.initialized = true → p.ClosesFinal
  | .alive c fd => p.initialized = true → p.ClosesFinal ∧
      (c ∈ p.cnxs → (p.listAt (p.cnx c).parent).dead ≠ 0 →
        (p.cnx c).established = false ∧ fd.isSome = true ∧ p.Revivable c)
  | .broadcast _ => p.initialized = true → p.ClosesFinal
  | .timer c => p.initialized = true → p.ClosesFinal ∧ c ∈ p.cnxs ∧
      (p.cnx c).established = false ∧ ∀ fd, p.nextConnect = .established fd → p.Revivable c
  | .check ready => p.initialized = true → p.ClosesFinal ∧
      ∀ c ∈ p.cnxs, (p.cnx c).established = true → (p.cnx c).fd ∈ ready ∩ p.fds →
        p.Spares .input c
  | .string _ => True
  | .init => match initFailover p with
    | (.error _, _) => True
    | (.ok (), p) => match initLists p with
      | (.error _, q) => p.initialized = true → p.connectionStringChanged = true → q.cnxs = []
      | (.ok (), q) => q.ClosesFinal ∧ ∃ U, q.Counts U ∧ InitCounts U q.cnxs q

theorem Counts.withList (hp : p.Counts ∅) : p.withList.Counts ∅ := by
  unfold Pool.withList
  split_ifs with hnil
  · refine ⟨List.forall_mem_nil _, fun i l hl => ?_⟩
    change (p.orList ++ [⟨[], 0, 0⟩])[i]? = some l at hl
    rw [hnil, List.nil_append] at hl
    rw [List.mem_singleton.mp (List.mem_of_getElem? hl)]
    rfl
  · exact hp

theorem Counts.link (hp : p.Counts ∅) (hl : p.Linked) (established : Bool) (fd : ℕ)
    (store : Option Failover) (i : ℕ) :
    (p.link i established fd store).Counts (if established then ∅ else {p.next}) := by
  have hcnx (d : ℕ) (hd : d ≠ p.next) : (p.link i established fd store).cnx d = p.cnx d :=
    Function.update_of_ne hd _ _
  have hnew : ((p.link i established fd store).cnx p.next).established = established := by
    simp [Pool.link]
  have hsame {j : ℕ} {l l' : CnxList} (hl' : p.orList[j]? = some l')
      (hand : ∀ d, d ∈ l.and → d ∈ l'.and ∨ d = p.next) (hand' : ∀ d ∈ l'.and, d ∈ l.and) :
      (p.link i established fd store).notAlive (if established then ∅ else {p.next}) l =
        p.notAlive ∅ l' := by
    ext d
    rw [mem_notAlive, mem_notAlive]
    by_cases hd : d = p.next
    · have hd' : d ∉ l'.and := fun h =>
        Nat.lt_irrefl _ (hd ▸ hl.lt_next d (mem_cnxs_of_getElem? hl' h))
      rw [hd] at hd' ⊢
      rw [hnew]
      cases established <;> simp [hd']
    · have hU : d ∉ (if established then ∅ else {p.next} : Finset ℕ) := by
        split_ifs <;> simp [hd]
      rw [hcnx d hd]
      simp only [hU, Finset.notMem_empty, not_false_eq_true, and_true]
      exact and_congr_left fun _ => ⟨fun h => (hand d h).resolve_right hd, hand' d⟩
  refine ⟨fun d hd => ?_, fun j l hj => ?_⟩
  · cases established with
    | true => exact absurd hd (Finset.notMem_empty d)
    | false => rw [Finset.mem_singleton.mp hd, hnew]
  · change (p.orList.modify _ _)[j]? = _ at hj
    rw [List.getElem?_modify, Option.map_eq_map, Option.map_eq_some_iff] at hj
    obtain ⟨l', hl', rfl⟩ := hj
    by_cases hij : i = j
    · rw [if_pos hij, hsame hl' (by simp) (by simp +contextual)]
      exact hp.dead j l' hl'
    · rw [if_neg hij, hsame hl' (fun d hd => .inl hd) fun d hd => hd]
      exact hp.dead j l' hl'

theorem newConnection_counts {established : Bool} {fd i : ℕ} (ht : p.Tidy) (hcounts : p.Counts ∅)
    (h : newConnection i established fd p = (.ok (), q)) :
    q.Counts (if established then ∅ else {p.next}) := by
  obtain ⟨stores, ⟨e, hn⟩ | ⟨store, hn⟩⟩ := newConnection_cases i established fd p
  · rw [hn] at h
    cases h
  · rw [hn] at h
    cases h
    have hsame := sameLists_stores p stores
    have hcounts' : { p with env := { p.env with stores } }.Counts ∅ :=
      hcounts.congr rfl fun _ => rfl
    exact hcounts'.link (hsame.tidy ht).toLinked established fd store i

theorem newConnection_error {established : Bool} {fd i : ℕ} {e : ErrorCode} (hcounts : p.Counts ∅)
    (h : newConnection i established fd p = (.error e, q)) : q.Counts ∅ := by
  obtain ⟨stores, ⟨e, hn⟩ | ⟨store, hn⟩⟩ := newConnection_cases i established fd p
  · rw [hn] at h
    cases h
    exact hcounts.congr rfl fun _ => rfl
  · rw [hn] at h
    cases h

theorem flushPool_counts {i : ℕ} {l : CnxList} {ret : Ret} (ht : p.Tidy) (hp : p.ClosesFinal)
    (hl : p.orList[i]? = some l) (hd : (p.listAt i).dead = 0) (hcounts : p.Counts U)
    (h : failoverFlush (.any i) p = some (ret, q)) : q.Counts U := by
  rw [listAt_of_getElem? hl] at hd
  have hf : p.Flushable (.any i) l.and :=
    ⟨hp, fun d hd => mem_cnxs_of_getElem? hl hd, l, hl, rfl, hd, ht.parent i l hl⟩
  obtain ⟨K, hK, -⟩ := dies_failoverFlush hf h
  exact hK.counts ht.toLinked hcounts

theorem addConnection_counts {established : Bool} {fd : ℕ} {ret : Ret} (ht : p.Tidy)
    (hp : p.ClosesFinal) (hcounts : p.Counts ∅) (hi : p.initialized = true)
    (ha : established = false → ∀ q, newConnection 0 false fd p.withList = (.ok (), q) →
      q.AttemptCounts {p.next} p.next)
    (h : preludeConnectionPoolAddConnection established fd p = some (ret, q)) : q.Counts ∅ := by
  have htw := tidy_withList ht
  have hcw := hcounts.withList
  obtain ⟨hnext, henv, hinit⟩ := p.withList_kept
  obtain ⟨e, hn⟩ | ⟨q₁, q₂, hn, hc, hf⟩ := addConnection_cases h
  · exact newConnection_error hcw hn
  have ht₁ := tidy_newConnection htw established fd p.withList_pos
  have hlen := length_newConnection 0 established fd p.withList
  have hi₁ := initialized_newConnection 0 established fd p.withList
  rw [hn] at ht₁ hlen hi₁
  have hcounts₁ := newConnection_counts htw hcw hn
  obtain ⟨hmem, he₁, hcloses⟩ := newConnection_linked p.withList_pos hn
  rw [hnext] at hcounts₁ hmem he₁
  have hp₁ : q₁.ClosesFinal := by
    unfold ClosesFinal
    rwa [hcloses, henv]
  have hq₂ : q₂.Counts ∅ ∧ q₂.ClosesFinal ∧ SameLists q₁ q₂ := by
    cases established with
    | true =>
      rw [if_neg (by simp)] at hc
      rw [hc]
      exact ⟨hcounts₁, hp₁, .refl q₁⟩
    | false =>
      rw [if_pos ⟨hi₁.trans (hinit.trans hi), rfl⟩, hnext] at hc
      obtain ⟨hcounts₂, hp₂⟩ := hc.counts ht₁ hp₁ hmem he₁ (ha rfl q₁ hn) hcounts₁
      rw [Finset.erase_singleton] at hcounts₂
      exact ⟨hcounts₂, hp₂, hc.sameLists⟩
  obtain ⟨hcounts₂, hp₂, hsame⟩ := hq₂
  rcases hf with rfl | ⟨hd, hf⟩
  · exact hcounts₂
  · have hpos : 0 < q₁.orList.length := hlen ▸ p.withList_pos
    have hlist := hsame.lists 0
    rw [List.getElem?_eq_getElem hpos, Option.map_some, Option.map_eq_some_iff] at hlist
    obtain ⟨l, hl, -⟩ := hlist
    exact flushPool_counts (hsame.tidy ht₁) hp₂ hl hd hcounts₂ hf

theorem Counts.congr_linked (hp : p.Counts ∅) (hl : q.orList = p.orList)
    (hc : ∀ d ∈ p.cnxs, (q.cnx d).established = (p.cnx d).established) : q.Counts ∅ where
  waiting := List.forall_mem_nil _
  dead i l hi := by
    rw [hl] at hi
    have hsame : q.notAlive ∅ l = p.notAlive ∅ l := by
      ext d
      rw [mem_notAlive, mem_notAlive]
      refine and_congr_right fun hd => ?_
      rw [hc d (mem_cnxs_of_getElem? hi hd)]
    rw [hsame]
    exact hp.dead i l hi

theorem setConnectionAlive_counts {fd : Option ℕ} {ret : Ret} (ht : p.Tidy) (hp : p.ClosesFinal)
    (hcounts : p.Counts ∅)
    (ha : c ∈ p.cnxs → (p.listAt (p.cnx c).parent).dead ≠ 0 →
      (p.cnx c).established = false ∧ fd.isSome = true ∧ p.Revivable c)
    (h : preludeConnectionPoolSetConnectionAlive c (p.reestablish c fd) = some (ret, q)) :
    q.Counts ∅ := by
  have hsame := sameLists_reestablish p c fd
  have hlists : (p.reestablish c fd).orList = p.orList := by cases fd <;> rfl
  have hother (d : ℕ) (hd : d ≠ c) : (p.reestablish c fd).cnx d = p.cnx d := by
    cases fd with
    | none => rfl
    | some fd => exact Function.update_of_ne hd _ _
  have hkept (hc : c ∈ p.cnxs → (p.cnx c).established = true) :
      (p.reestablish c fd).Counts ∅ := by
    refine hcounts.congr_linked hlists fun d hd => ?_
    by_cases hdc : d = c
    · subst hdc
      cases fd with
      | none => rfl
      | some fd => simp [reestablish, modifyCnx, hc hd]
    · rw [hother d hdc]
  unfold preludeConnectionPoolSetConnectionAlive at h
  rw [hsame.cnxs, hsame.parent, listAt, hlists, ← listAt] at h
  split at h
  · next hc =>
    simp only [Option.some.injEq, Prod.mk.injEq] at h
    exact h.2 ▸ hkept fun hc' => absurd hc' hc
  next hc =>
  rw [not_not] at hc
  split at h
  · next hd =>
    simp only [Option.some.injEq, Prod.mk.injEq] at h
    refine h.2 ▸ hkept fun _ => ?_
    obtain ⟨l, hl, hcl⟩ := ht.exists_list hc
    rw [listAt_of_getElem? hl, hcounts.dead _ l hl, Finset.card_eq_zero] at hd
    by_contra he
    rw [Bool.not_eq_true] at he
    exact Finset.notMem_empty c (hd ▸ mem_notAlive.mpr ⟨hcl, he, Finset.notMem_empty c⟩)
  · next hd =>
    obtain ⟨he, hfd, hr⟩ := ha hc hd
    obtain ⟨fd, rfl⟩ := Option.isSome_iff_exists.mp hfd
    have hr' : (p.reestablish c (some fd)).Revivable c := by
      refine hr.imp id fun hr f hf => hr f ?_
      rw [← hf]
      simp [reestablish, modifyCnx]
    have he' : ((p.reestablish c (some fd)).cnx c).established = true := by
      simp [reestablish, modifyCnx]
    have hrevived := hcounts.revived ht.toLinked hc he (fun hU => absurd hU (Finset.notMem_empty c))
      hlists (hsame.parent c) (fun d hd => by rw [hother d hd]) he'
    rw [Finset.erase_empty] at hrevived
    exact (setStateAlive_counts (hsame.tidy ht).toLinked hp (hsame.cnxs ▸ hc) he' hr' h hrevived).1

theorem broadcast_counts {m : Msg} (ht : p.Tidy) (hp : p.ClosesFinal) (hcounts : p.Counts U)
    (h : preludeConnectionPoolBroadcast m p = some q) : q.Counts U := by
  simp only [preludeConnectionPoolBroadcast, walkManagerLists, Option.map_eq_some_iff] at h
  obtain ⟨⟨m', q⟩, h, rfl⟩ := h
  split at h
  · next l hl =>
    have hcs (d : ℕ) (hd : d ∈ l.and) : d ∈ p.cnxs :=
      List.mem_flatMap.mpr ⟨l, List.mem_of_find?_eq_some hl, hd⟩
    obtain ⟨K, hK, -⟩ := dies_broadcastMessage hp hcs h
    exact hK.counts ht.toLinked hcounts
  · simp only [saveToPool, Option.map_eq_some_iff, Prod.mk.injEq] at h
    obtain ⟨⟨store, m₁, p₁⟩, hsave, -, rfl⟩ := h
    exact ((dies_failoverSaveMsg hsave).counts ht.toLinked hcounts).congr rfl fun _ => rfl

theorem connectionTimerExpire_counts (ht : p.Tidy) (hp : p.ClosesFinal) (hcounts : p.Counts ∅)
    (hc : c ∈ p.cnxs) (he : (p.cnx c).established = false)
    (hr : ∀ fd, p.nextConnect = .established fd → p.Revivable c)
    (h : connectionTimerExpire c p = some q) : q.Counts ∅ := by
  unfold connectionTimerExpire at h
  cases hn : p.nextConnect with
  | refused e fd =>
    obtain ⟨p₁, hp₁, hattempt, he₁, -⟩ := preludeConnectionConnect_refused he hn
    simp only [hp₁, Option.some.injEq] at h
    refine hcounts.congr (h ▸ hattempt.orList) fun d => ?_
    rw [← h]
    by_cases hd : d = c
    · subst hd
      simp [modifyCnx, he, he₁]
    · simp [modifyCnx, hd, hattempt.established d hd]
  | established fd =>
    obtain ⟨p₁, hp₁, -⟩ := preludeConnectionConnect_established he hn
    simp only [hp₁, Option.map_eq_some_iff] at h
    obtain ⟨⟨ret, q⟩, halive, rfl⟩ := h
    have hkept := connected_counts ht hp hc he (fun hU => absurd hU (Finset.notMem_empty c))
      (hr fd hn) hcounts hn hp₁ halive
    rw [Finset.erase_empty] at hkept
    exact hkept.1

/-- A callback for input that spares its connection leaves only deaths behind. -/
theorem dies_checkConnectionEvent (hp : p.ClosesFinal) (hc : c ∈ p.cnxs)
    (he : (p.cnx c).established = true) (hs : p.Spares .input c) :
    ∃ K, Dies K p (checkConnectionEvent c p) := by
  obtain ⟨K, hK, hcK⟩ := dies_eventHandler hp .input c
  have he' : ((eventHandler .input c p).2.cnx c).established = true :=
    (hK.established c).mpr ⟨he, hcK hs⟩
  unfold checkConnectionEvent
  dsimp only
  split_ifs
  · obtain ⟨L, -, hL⟩ := dies_setStateDead (hK.closesFinal hp) (hK.cnxs ▸ hc) he' false
    exact ⟨K ∪ L, hK.trans hL⟩
  · exact ⟨K, hK⟩

theorem dies_checkConnections {rfds : Finset ℕ} {cs : List ℕ} (hp : p.ClosesFinal)
    (hcs : ∀ c ∈ cs, c ∈ p.cnxs) (hs : ∀ c ∈ cs, (p.cnx c).established = true →
      (p.cnx c).fd ∈ rfds → p.Spares .input c) :
    ∃ K, Dies K p (checkConnections rfds cs p).2 := by
  induction cs generalizing p with
  | nil => exact ⟨∅, .refl p⟩
  | cons c cs ih =>
    rw [List.forall_mem_cons] at hcs hs
    rw [checkConnections]
    split_ifs with hc
    · obtain ⟨K, hK⟩ := dies_checkConnectionEvent hp hcs.1 hc.1 (hs.1 hc.1 hc.2)
      obtain ⟨L, hL⟩ := ih (hK.closesFinal hp) (hK.cnxs ▸ hcs.2) fun d hd he hfd => by
        unfold Spares
        rw [hK.handler, hK.globalHandler]
        exact hs.2 d hd ((hK.established d).mp he).1 (hK.fd d ▸ hfd)
      exact ⟨K ∪ L, hK.trans hL⟩
    · exact ih hp hcs.2 hs.2

theorem dies_connectionPoolCheckEvent {ready : Finset ℕ} (hp : p.ClosesFinal)
    (hs : ∀ c ∈ p.cnxs, (p.cnx c).established = true → (p.cnx c).fd ∈ ready ∩ p.fds →
      p.Spares .input c) : ∃ K, Dies K p (connectionPoolCheckEvent ready p) := by
  obtain ⟨K, hK⟩ := dies_checkConnections hp (fun _ hc => hc) hs
  unfold connectionPoolCheckEvent
  dsimp only
  split_ifs
  · obtain ⟨L, -, hL⟩ := dies_react (hK.closesFinal hp)
      ((checkConnections (ready ∩ p.fds) p.cnxs p).2.env.poolHandler
        (checkConnections (ready ∩ p.fds) p.cnxs p).2.ticks)
    exact ⟨K ∪ L, hK.trans hL⟩
  · exact ⟨K, hK⟩

/-- No list counts a connection. -/
def Fresh (p : Pool) : Prop := ∀ l ∈ p.orList, l.dead = 0

theorem Fresh.newConnection (hp : p.Fresh) (i : ℕ) (established : Bool) (fd : ℕ) :
    (newConnection i established fd p).2.Fresh := by
  obtain ⟨stores, ⟨e, h⟩ | ⟨store, h⟩⟩ := newConnection_cases i established fd p
  · rw [h]
    exact hp
  · rw [h]
    intro l hl
    obtain ⟨j, hj⟩ := List.mem_iff_getElem?.mp hl
    change (p.orList.modify _ _)[j]? = some l at hj
    rw [List.getElem?_modify, Option.map_eq_map, Option.map_eq_some_iff] at hj
    obtain ⟨l', hl', rfl⟩ := hj
    have := hp l' (List.mem_of_getElem? hl')
    split_ifs <;> exact this

theorem Fresh.createConnectionList (hp : p.Fresh) : (createConnectionList p).Fresh := by
  intro l hl
  rcases List.mem_append.mp hl with hl | hl
  · exact hp l hl
  · rw [List.mem_singleton.mp hl]

theorem Fresh.parseConfigWords (fuel : ℕ) (line : Option (List Char)) (hp : p.Fresh) :
    (parseConfigWords fuel line p).2.Fresh := by
  induction fuel generalizing line p with
  | zero => exact hp
  | succ fuel ih =>
    rw [LibPrelude.parseConfigWords]
    split
    · exact hp
    · next word line _ =>
      have hnew : (newConnectionFromAddress (p.orList.length - 1) word p).2.Fresh := by
        unfold newConnectionFromAddress
        split
        · exact hp
        · exact hp.newConnection _ _ _
      split_ifs
      · exact ih line hp.createConnectionList
      · exact ih line hp
      · split
        · next h => exact h ▸ hnew
        · next q h =>
          rw [h] at hnew
          exact ih line hnew

theorem Fresh.counts (hp : p.Fresh) (hc : p.cnxs = []) : p.Counts ∅ where
  waiting := List.forall_mem_nil _
  dead i l hi := by
    rw [hp l (List.mem_of_getElem? hi), eq_comm, Finset.card_eq_zero]
    refine Finset.eq_empty_of_forall_notMem fun d hd => ?_
    have := mem_cnxs_of_getElem? hi (mem_notAlive.mp hd).1
    rw [hc] at this
    exact List.not_mem_nil this

theorem initLists_counts {e : ErrorCode} (hcounts : p.Counts ∅)
    (hk : p.connectionStringChanged = true → q.cnxs = []) (h : initLists p = (.error e, q)) :
    q.Counts ∅ := by
  unfold initLists at h
  split_ifs at h with hnone hchanged
  · cases h
    exact hcounts
  · have hfresh : Fresh q := by
      have := Fresh.parseConfigWords
        (p := createConnectionList { connectionListDestroy
          { p with connectionStringChanged := false } with nfd := 0, orList := [] })
        (((connectionListDestroy { p with connectionStringChanged := false }).connectionString.getD
          []).length + 2)
        (connectionListDestroy { p with connectionStringChanged := false }).connectionString
        (Fresh.createConnectionList (List.forall_mem_nil _))
      unfold parseConfigLine at h
      rwa [h] at this
    exact hfresh.counts (hk hchanged)
  · cases h

/-- Connections that wait but are not linked. -/
theorem Counts.of_sdiff {cs : List ℕ} (hp : p.Counts (U \ cs.toFinset))
    (hcs : ∀ c ∈ p.cnxs, c ∈ cs) : p.Counts ∅ where
  waiting := List.forall_mem_nil _
  dead i l hi := by
    have hsame : p.notAlive ∅ l = p.notAlive (U \ cs.toFinset) l := by
      ext d
      rw [mem_notAlive, mem_notAlive]
      refine and_congr_right fun hd => and_congr_right fun _ => ?_
      have := hcs d (mem_cnxs_of_getElem? hi hd)
      simp [this]
    rw [hsame]
    exact hp.dead i l hi

theorem init_counts {ret : Ret} (ht : p.Tidy) (hcounts : p.initialized = true → p.Counts ∅)
    (hk : p.CountsKept .init) (h : preludeConnectionPoolInit p = some (ret, q))
    (hi : q.initialized = true) : q.Counts ∅ := by
  have hsame := sameLists_initFailover p
  have ht₁ := hsame.tidy ht
  have hcounts₁ (hi : p.initialized = true) : (initFailover p).2.Counts ∅ := by
    have hfail : (initFailover p).2.orList = p.orList ∧ (initFailover p).2.cnx = p.cnx := by
      unfold initFailover
      dsimp only
      split_ifs
      · split <;> exact ⟨rfl, rfl⟩
      · exact ⟨rfl, rfl⟩
    exact (hcounts hi).congr hfail.1 fun _ => by rw [hfail.2]
  simp only [CountsKept] at hk
  unfold preludeConnectionPoolInit at h
  split at h
  · next e p₁ hf =>
    simp only [Option.some.injEq, Prod.mk.injEq] at h
    obtain ⟨-, rfl⟩ := h
    rw [hf] at hcounts₁ hsame
    exact hcounts₁ (hsame.initialized.symm.trans hi)
  next p₁ hf =>
  rw [hf] at hcounts₁ hsame ht₁
  simp only [hf] at hk
  obtain ⟨ht₂, hi₂⟩ := tidy_initLists ht₁
  split at h
  · next e p₂ hlists =>
    simp only [Option.some.injEq, Prod.mk.injEq] at h
    obtain ⟨-, rfl⟩ := h
    rw [hlists] at hi₂
    simp only [hlists] at hk
    have hi₁ : p₁.initialized = true := hi₂.symm.trans hi
    exact initLists_counts (hcounts₁ (hsame.initialized.symm.trans hi₁)) (hk hi₁) hlists
  next p₂ hlists =>
  rw [hlists] at ht₂ hi₂
  simp only [hlists] at hk
  obtain ⟨hp₂, U, hcounts₂, hinit⟩ := hk
  simp only [Option.map_eq_some_iff] at h
  obtain ⟨⟨ret₃, tried, p₃⟩, hconnect, h⟩ := h
  have hsame₃ := sameLists_initConnections hconnect
  obtain ⟨rfl, hcounts₃, hp₃⟩ | ⟨hne, hinit₂⟩ :=
    initConnections_counts ht₂ hp₂ (fun _ hc => hc) hinit hcounts₂ hconnect
  · simp only [Prod.mk.injEq] at h
    obtain ⟨-, rfl⟩ := h
    have ht₃ := hsame₃.tidy ht₂
    have hcounts₃ : p₃.Counts ∅ := hcounts₃.of_sdiff (hsame₃.cnxs ▸ fun _ hc => hc)
    have hend : (if tried then react (p₃.env.poolHandler p₃.ticks) p₃.tick else p₃).Counts ∅ := by
      split_ifs
      · obtain ⟨K, -, hK⟩ := dies_react hp₃ (p₃.env.poolHandler p₃.ticks)
        exact hK.counts ht₃.toLinked hcounts₃
      · exact hcounts₃
    exact hend.congr rfl fun _ => rfl
  · cases ret₃ with
    | ok => exact absurd rfl hne
    | error e =>
      simp only [Prod.mk.injEq] at h
      rw [← h.2, hsame₃.initialized, hinit₂] at hi
      cases hi

theorem CountsKept.apply {op : PoolOp} (hk : p.CountsKept op) (ht : p.Tidy)
    (hcounts : p.initialized = true → p.Counts ∅) (h : p.apply op = some q)
    (hi : q.initialized = true) : q.Counts ∅ := by
  cases op with
  | add established fd =>
    simp only [Pool.apply, Option.map_eq_some_iff] at h
    obtain ⟨⟨ret, q'⟩, h, rfl⟩ := h
    have hp : p.initialized = true := (initialized_addConnection h).symm.trans hi
    obtain ⟨hfinal, ha⟩ := hk hp
    exact addConnection_counts ht hfinal (hcounts hp) hp ha h
  | del c =>
    simp only [Pool.apply, Option.some.injEq] at h
    have hsame : SameLists p (preludeConnectionPoolDelConnection c p).2 := by
      unfold preludeConnectionPoolDelConnection
      split
      · exact .refl p
      · exact sameLists_destroyConnectionSingle c p
    have hp : p.initialized = true := hsame.initialized.symm.trans (h ▸ hi)
    rw [preludeConnectionPoolDelConnection, if_pos (hk hp)] at h
    exact h ▸ hcounts hp
  | dead c =>
    simp only [Pool.apply, Option.some.injEq] at h
    subst h
    have hsame := sameLists_setConnectionDeadWith (sameLists_notifyEvent .dead c false) c p
    have hp : p.initialized = true := hsame.initialized.symm.trans hi
    obtain ⟨K, -, hK⟩ :=
      dies_setConnectionDeadWith (onlyKills_notifyEvent .dead c false) (hk hp) c
    exact hK.counts ht.toLinked (hcounts hp)
  | alive c fd =>
    simp only [Pool.apply, Option.map_eq_some_iff] at h
    obtain ⟨⟨ret, q'⟩, h, rfl⟩ := h
    have hsame := (sameLists_reestablish p c fd).trans (sameLists_setConnectionAlive h)
    have hp : p.initialized = true := hsame.initialized.symm.trans hi
    obtain ⟨hfinal, ha⟩ := hk hp
    exact setConnectionAlive_counts ht hfinal (hcounts hp) ha h
  | broadcast m =>
    have hp : p.initialized = true := (sameLists_broadcast h).initialized.symm.trans hi
    exact broadcast_counts ht (hk hp) (hcounts hp) h
  | timer c =>
    simp only [Pool.apply] at h
    split_ifs at h
    have hp : p.initialized = true := (sameLists_connectionTimerExpire h).initialized.symm.trans hi
    obtain ⟨hfinal, hc, he, hr⟩ := hk hp
    exact connectionTimerExpire_counts ht hfinal (hcounts hp) hc he hr h
  | check ready =>
    simp only [Pool.apply, Option.some.injEq] at h
    subst h
    have hp : p.initialized = true :=
      (sameLists_connectionPoolCheckEvent ready p).initialized.symm.trans hi
    obtain ⟨hfinal, hs⟩ := hk hp
    obtain ⟨K, hK⟩ := dies_connectionPoolCheckEvent hfinal hs
    exact hK.counts ht.toLinked (hcounts hp)
  | string s =>
    simp only [Pool.apply, Option.some.injEq] at h
    subst h
    exact (hcounts hi).congr rfl fun _ => rfl
  | init =>
    simp only [Pool.apply, Option.map_eq_some_iff] at h
    obtain ⟨⟨ret, q'⟩, h, rfl⟩ := h
    exact init_counts ht hcounts hk h hi

/-- In a run in which each operation keeps the counts right, each list of an initialised pool
has the number of its connections and of those that are not alive. -/
theorem run_counts (h : Run CountsKept p) (hi : p.initialized = true) :
    ∀ l ∈ p.orList, l.total = l.and.length ∧
      l.dead = l.and.countP (fun c => !(p.cnx c).established) ∧ l.dead ≤ l.total := by
  have hcounts : p.initialized = true → p.Counts ∅ := by
    clear hi
    induction h with
    | new flagReconnect flagFailover => exact fun hi => absurd hi Bool.false_ne_true
    | step env op hrun hk hstep ih =>
      refine hk.apply (hrun.tidy.withEnv env) (fun hi => ?_) (apply_of_step hstep)
      exact (ih hi).congr rfl fun _ => rfl
  intro l hl
  obtain ⟨i, hi'⟩ := List.mem_iff_getElem?.mp hl
  have htotal := h.tidy.total i l hi'
  have hnodup : l.and.Nodup := by
    have := h.tidy.nodup
    rw [cnxs, List.nodup_flatMap] at this
    exact this.1 l hl
  have hdead : l.dead = l.and.countP fun c => !(p.cnx c).established := by
    rw [(hcounts hi).dead i l hi', List.countP_eq_length_filter, ← List.toFinset_card_of_nodup
      (hnodup.filter _), List.toFinset_filter]
    congr 1
    ext d
    rw [mem_notAlive, Finset.mem_filter, List.mem_toFinset, Bool.not_eq_true']
    simp
  exact ⟨htotal, hdead, htotal ▸ hdead ▸ List.countP_le_length⟩

def establishedPool : Pool :=
  (((new false false).step .quiet (.string ['a', ' ', '&', '&', ' ', 'b'])).bind fun p =>
    p.step { Env.quiet with connects := [.established 3, .established 4] } .init).getD
      (new false false)

/-- Both connections died and the first one came back. -/
def revivedPool : Pool :=
  ((establishedPool.step .quiet (.dead 0)).bind fun p => (p.step .quiet (.dead 1)).bind fun p =>
    p.step .quiet (.alive 0 (some 5))).getD establishedPool

theorem spares_of_quiet {p : Pool} (h : p.env.handler = Env.quiet.handler)
    (hg : p.env.globalHandler = Env.quiet.globalHandler) (ev : Event) (c : ℕ) : p.Spares ev c := by
  intro k
  rw [h, hg]
  exact ⟨fun h => h, fun h => h⟩

theorem countsKept_establishedPool : Run CountsKept establishedPool := by
  have hnew : Run CountsKept (new false false) := .new false false
  have hstring := hnew.step .quiet (.string ['a', ' ', '&', '&', ' ', 'b']) trivial rfl
  refine hstring.step { Env.quiet with connects := [.established 3, .established 4] } .init ?_ rfl
  refine ⟨List.forall_mem_nil _, {0, 1}, ⟨by decide, fun i l hl => ?_⟩, fun _ => ?_, ?_⟩
  · have hl' : l ∈ [(⟨[0, 1], 0, 2⟩ : CnxList)] := List.mem_of_getElem? hl
    rw [List.mem_singleton.mp hl']
    rfl
  · exact ⟨fun _ => rfl, .inl (spares_of_quiet rfl rfl _ _)⟩
  · intro tried q h
    cases h
    exact ⟨fun _ => ⟨fun _ => rfl, .inl (spares_of_quiet rfl rfl _ _)⟩, fun _ _ _ => trivial⟩

theorem countsKept_revivedPool : Run CountsKept revivedPool := by
  have hfirst := countsKept_establishedPool.step .quiet (.dead 0)
    (fun _ => List.forall_mem_nil _) rfl
  have hsecond := hfirst.step .quiet (.dead 1) (fun _ => List.forall_mem_nil _) rfl
  refine hsecond.step .quiet (.alive 0 (some 5)) (fun _ => ⟨List.forall_mem_nil _, ?_⟩) rfl
  exact fun _ _ => ⟨rfl, rfl, .inl (spares_of_quiet rfl rfl _ _)⟩

theorem run_counts_revived : revivedPool.orList = [⟨[0, 1], 1, 2⟩] ∧
    ∀ l ∈ revivedPool.orList, l.total = l.and.length ∧
      l.dead = l.and.countP (fun c => !(revivedPool.cnx c).established) ∧ l.dead ≤ l.total :=
  ⟨rfl, run_counts countsKept_revivedPool rfl⟩

/-- A connection that is established after another one of its list was refused takes that one off
the count. -/
theorem init_miscounts : ¬ ∀ p : Pool, Run (fun _ _ => True) p → p.initialized = true →
    ∀ l ∈ p.orList, l.total = l.and.length ∧
      l.dead = l.and.countP (fun c => !(p.cnx c).established) ∧ l.dead ≤ l.total := by
  intro h
  have hnew : Run (fun _ _ => True) (new false false) := .new false false
  have hstring := hnew.step .quiet (.string ['a', ' ', '&', '&', ' ', 'b']) trivial rfl
  have hrun := hstring.step { Env.quiet with connects := [.refused .generic none, .established 3] }
    .init trivial rfl
  have hl := (h _ hrun rfl ⟨[0, 1], 0, 2⟩ (by decide)).2.1
  revert hl
  decide

end Pool

end LibPrelude
