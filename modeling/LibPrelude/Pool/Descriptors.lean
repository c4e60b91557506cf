import LibPrelude.Pool.Counters

/-! # The descriptors that a pool polls

The polled set is changed on the last lines of the two changes of state only. It is
that of the descriptors of the connections that are alive as long as each of them
was connected by the pool, and came back through a change of state that ran to its
end.
-/

namespace LibPrelude

namespace Pool

/-- The polled set holds the descriptors of the connections that are alive, but for `X`; no two of
these connections share one. -/
structure PolledBut (p : Pool) (X : Finset ℕ) : Prop where
  fds : p.fds = p.openFds \ X
  bound : ∀ fd ∈ p.fds, fd < p.nfd
  distinct : ∀ c ∈ p.cnxs, ∀ d ∈ p.cnxs, (p.cnx c).established = true →
    (p.cnx d).established = true → (p.cnx c).fd = (p.cnx d).fd → c = d

variable {p q : Pool} {c : ℕ} {K X : Finset ℕ}

theorem mem_openFds {fd : ℕ} :
    fd ∈ p.openFds ↔ ∃ c ∈ p.cnxs, (p.cnx c).established = true ∧ (p.cnx c).fd = fd := by
  simp [openFds, and_assoc]

theorem openFds_congr (hc : q.cnxs = p.cnxs)
    (he : ∀ d ∈ p.cnxs, (q.cnx d).established = (p.cnx d).established)
    (hfd : ∀ d ∈ p.cnxs, (p.cnx d).established = true → (q.cnx d).fd = (p.cnx d).fd) :
    q.openFds = p.openFds := by
  ext fd
  rw [mem_openFds, mem_openFds, hc]
  refine exists_congr fun d => and_congr_right fun hd => ?_
  rw [he d hd]
  exact and_congr_right fun hd' => by rw [hfd d hd hd']

theorem PolledBut.congr (h : p.PolledBut X) (hc : q.cnxs = p.cnxs)
    (he : ∀ d ∈ p.cnxs, (q.cnx d).established = (p.cnx d).established)
    (hfd : ∀ d ∈ p.cnxs, (p.cnx d).established = true → (q.cnx d).fd = (p.cnx d).fd)
    (hfds : q.fds = p.fds) (hnfd : q.nfd = p.nfd) : q.PolledBut X where
  fds := by rw [hfds, openFds_congr hc he hfd, h.fds]
  bound fd hmem := hnfd ▸ h.bound fd (hfds ▸ hmem)
  distinct c hcl d hdl hce hde hcd := by
    rw [hc] at hcl hdl
    rw [he c hcl] at hce
    rw [he d hdl] at hde
    rw [hfd c hcl hce, hfd d hdl hde] at hcd
    exact h.distinct c hcl d hdl hce hde hcd

theorem Dies.openFds (h : Dies K p q) (hp : p.PolledBut X) :
    q.openFds = p.openFds \ K.image fun c => (p.cnx c).fd := by
  ext fd
  rw [Finset.mem_sdiff, mem_openFds, mem_openFds, h.cnxs, Finset.mem_image]
  constructor
  · rintro ⟨c, hc, he, hfd⟩
    rw [h.established] at he
    rw [h.fd] at hfd
    refine ⟨⟨c, hc, he.1, hfd⟩, ?_⟩
    rintro ⟨d, hd, hfd'⟩
    have hcd := hp.distinct c hc d (h.linked d hd) he.1 (h.alive d hd) (hfd.trans hfd'.symm)
    exact he.2 (hcd ▸ hd)
  · rintro ⟨⟨c, hc, he, hfd⟩, hK⟩
    refine ⟨c, hc, (h.established c).mpr ⟨he, fun hcK => hK ⟨c, hcK, hfd⟩⟩, ?_⟩
    rw [h.fd, hfd]

theorem Dies.polled (h : Dies K p q) (hp : p.PolledBut X) : q.PolledBut X where
  fds := by rw [h.fds, h.openFds hp, hp.fds, sdiff_right_comm]
  bound fd hfd := by
    rw [h.fds] at hfd
    rw [h.nfd]
    exact hp.bound fd (Finset.mem_sdiff.mp hfd).1
  distinct c hc d hd hce hde hcd := by
    rw [h.cnxs] at hc hd
    rw [h.fd, h.fd] at hcd
    exact hp.distinct c hc d hd ((h.established c).mp hce).1 ((h.established d).mp hde).1 hcd

theorem PolledBut.of_disjoint (h : p.PolledBut X) (hX : ∀ fd ∈ X, fd ∉ p.openFds) :
    p.PolledBut ∅ where
  fds := by
    rw [Finset.sdiff_empty, h.fds, Finset.sdiff_eq_self_iff_disjoint, Finset.disjoint_right]
    exact hX
  bound := h.bound
  distinct := h.distinct

/-- A connection that died had its descriptor taken out, polled or not. -/
theorem Dies.polled_of_mem (h : Dies K p q) (hp : p.PolledBut X) (hX : X ⊆ {(p.cnx c).fd})
    (hc : c ∈ K) : q.PolledBut ∅ := by
  refine (h.polled hp).of_disjoint fun fd hfd => ?_
  rw [Finset.mem_singleton.mp (hX hfd), h.openFds hp]
  exact fun hmem => (Finset.mem_sdiff.mp hmem).2 (Finset.mem_image_of_mem _ hc)

theorem PolledBut.insert (h : p.PolledBut X) (hX : X ⊆ {(p.cnx c).fd}) (hc : c ∈ p.cnxs)
    (he : (p.cnx c).established = true) :
    PolledBut { p with
      fds := insert (p.cnx c).fd p.fds
      nfd := max ((p.cnx c).fd + 1) p.nfd } ∅ where
  fds := by
    have hmem : (p.cnx c).fd ∈ p.openFds := mem_openFds.mpr ⟨c, hc, he, rfl⟩
    change Insert.insert (p.cnx c).fd p.fds = p.openFds \ ∅
    rw [Finset.sdiff_empty, h.fds]
    ext fd
    rw [Finset.mem_insert, Finset.mem_sdiff]
    refine ⟨fun hor => hor.elim (fun heq => heq ▸ hmem) And.left, fun hfd => ?_⟩
    by_cases heq : fd = (p.cnx c).fd
    · exact .inl heq
    · exact .inr ⟨hfd, fun hfdX => heq (Finset.mem_singleton.mp (hX hfdX))⟩
  bound fd hfd := by
    change fd < max ((p.cnx c).fd + 1) p.nfd
    rcases Finset.mem_insert.mp hfd with rfl | hfd
    · omega
    · have := h.bound fd hfd
      omega
  distinct := h.distinct

theorem PolledBut.erase (h : p.PolledBut X) {fd : ℕ} (hfd : fd ∉ p.openFds) :
    PolledBut { p with fds := p.fds.erase fd } X where
  fds := by
    change p.fds.erase fd = p.openFds \ X
    rw [h.fds, Finset.erase_eq_of_notMem fun hmem => hfd (Finset.mem_sdiff.mp hmem).1]
  bound fd' hmem := h.bound fd' (Finset.mem_of_mem_erase hmem)
  distinct := h.distinct

/-! ## Changes of state -/

theorem setStateDead_polled (g : Bool) (hp : p.ClosesFinal) (hpolled : p.PolledBut X)
    (he : (p.cnx c).established = false) (hfd : (p.cnx c).fd ∉ p.openFds) :
    (setStateDead c g p).PolledBut X ∧ (setStateDead c g p).ClosesFinal := by
  have hf := frame_dying p c
  have hcnxs : (p.dying c).cnxs = p.cnxs := cnxs_modify (orList_dying p c) fun _ => rfl
  have hestablished (d : ℕ) : ((p.dying c).cnx d).established = (p.cnx d).established := by
    rw [cnx_dying]
    split_ifs with hd
    · rw [hd, he]
    · rfl
  have hdying : (p.dying c).PolledBut X :=
    hpolled.congr hcnxs (fun d _ => hestablished d) (fun d _ _ => hf.fd d) (fds_dying p c) hf.nfd
  have hopen : (p.dying c).openFds = p.openFds :=
    openFds_congr hcnxs (fun d _ => hestablished d) fun d _ _ => hf.fd d
  obtain ⟨K, hK, -⟩ := dies_notifyEvent (hf.closesFinal hp) .dead c g
  rw [setStateDead_closed g he]
  refine ⟨(hK.polled hdying).erase ?_, hK.closesFinal (hf.closesFinal hp)⟩
  rw [hK.openFds hdying, hK.fd, hf.fd, hopen]
  exact fun hmem => hfd (Finset.mem_sdiff.mp hmem).1

theorem polled_revived (hp : p.PolledBut X) (c : ℕ) : (p.revived c).PolledBut X :=
  hp.congr (cnxs_revived p c) (fun d _ => established_revived p c d)
    (fun d _ _ => (frame_revived p c).fd d) rfl rfl

/-- A message would be flushed and can be read from the store of a connection. -/
def Stored (p : Pool) (c : ℕ) : Prop :=
  ∃ f size m f', (p.cnx c).failover = some f ∧ f.count.toUInt32 ≠ 0 ∧
    preludeFailoverGetSavedMsg f = some (.ok size, some m, f') ∧ size ≠ 0

theorem doSend_closed {m : Msg} (he : (p.cnx c).established = false) :
    doSend c m p = some (.error .generic, m, p) := by
  simp [doSend, doSendLoop, preludeConnectionSend, he]

/-- A message that is flushed to a dead connection is stored again, and the flush fails. -/
theorem failoverFlush_closed {ret : Ret} (he : (p.cnx c).established = false) (hs : p.Stored c)
    (h : failoverFlush (.one c) p = some (ret, q)) :
    ret ≠ .ok () ∧ ∃ f m m', saveToCnx c m (setStateDead c true (p.setStore f (.one c))) =
      some (m', q) := by
  obtain ⟨f, size, m, f', hstore, hcount, hsaved, hsize⟩ := hs
  have hclosed : ((p.setStore f' (.one c)).cnx c).established = false := by
    simp [setStore, modifyCnx, he]
  have hone : p.store (.one c) = some f := hstore
  simp only [failoverFlush, hone, hcount, if_false, failoverFlushLoop, hsaved, Option.bind_some,
    hsize, flushMsg, doSend_closed hclosed, Option.bind_eq_some_iff, Option.map_eq_some_iff] at h
  obtain ⟨⟨ret₁, q₁⟩, ⟨⟨m', q₂⟩, hsave, hq⟩, h⟩ := h
  cases hq
  simp only [Option.some.injEq, Prod.mk.injEq] at h
  obtain ⟨rfl, rfl⟩ := h
  exact ⟨by rintro ⟨⟩, f', m, m', hsave⟩

/-- What is flushed to a connection that its callbacks killed makes it die for good. -/
theorem setStateAlive_stored {g : Bool} {ret : Ret} (hp : (p.revived c).ClosesFinal)
    (hpolled : (p.revived c).PolledBut X) (hX : X ⊆ {((p.revived c).cnx c).fd})
    (hK : Dies K (p.revived c) (notifyEvent .alive c g (p.revived c))) (hcK : c ∈ K)
    (hs : (notifyEvent .alive c g (p.revived c)).Stored c)
    (h : setStateAlive c g p = some (ret, q)) : q.PolledBut ∅ ∧ q.ClosesFinal := by
  obtain ⟨r, hr⟩ : ∃ r, r = notifyEvent .alive c g (p.revived c) := ⟨_, rfl⟩
  simp only [setStateAlive, Option.bind_eq_some_iff] at h
  obtain ⟨⟨ret₁, p₁⟩, hflush, h⟩ := h
  change failoverFlush (.one c) (notifyEvent .alive c g (p.revived c)) = _ at hflush
  rw [← hr] at hK hs hflush
  have hclosed : (r.cnx c).established = false := by
    rw [← Bool.not_eq_true, hK.established]
    exact fun hne => hne.2 hcK
  obtain ⟨hne, f, m, m', hsave⟩ := failoverFlush_closed hclosed hs hflush
  have hset := hK.trans (dies_setStore r f (.one c))
  rw [Finset.union_empty] at hset
  have hdead := setStateDead_polled true (hset.closesFinal hp) (hset.polled_of_mem hpolled hX hcK)
    (c := c) ?_ ?_
  · have hq : p₁ = q := by
      cases ret₁ with
      | ok => exact absurd rfl hne
      | error e =>
        simp only [Option.some.injEq, Prod.mk.injEq] at h
        exact h.2
    have hkept := dies_saveToCnx hsave
    exact hq ▸ ⟨hkept.polled hdead.1, hkept.closesFinal hdead.2⟩
  · rw [← Bool.not_eq_true, hset.established]
    exact fun hne => hne.2 hcK
  · rw [hset.openFds hpolled, hset.fd]
    exact fun hmem => (Finset.mem_sdiff.mp hmem).2 (Finset.mem_image_of_mem _ hcK)

/-- A connection that comes back is polled, or dies. -/
theorem setStateAlive_polled {g : Bool} {ret : Ret} (hl : p.Linked) (hp : p.ClosesFinal)
    (hc : c ∈ p.cnxs) (he : (p.cnx c).established = true) (hr : p.Spares .alive c ∨ p.Stored c)
    (ho : X = ∅ ∨ p.OthersReliable c) (hpolled : p.PolledBut X) (hX : X ⊆ {(p.cnx c).fd})
    (h : setStateAlive c g p = some (ret, q)) : q.PolledBut ∅ ∧ q.ClosesFinal := by
  have hf := frame_revived p c
  have hp' := hf.closesFinal hp
  have hrevived := polled_revived hpolled c
  have hX' : X ⊆ {((p.revived c).cnx c).fd} := by rwa [hf.fd]
  obtain ⟨K, hK, hspared⟩ := dies_notifyEvent hp' .alive c g
  by_cases hcK : c ∈ K
  · have hstored : (notifyEvent .alive c g (p.revived c)).Stored c := by
      have hs := hr.resolve_left fun hs => hspared hs hcK
      unfold Stored at hs ⊢
      rwa [sameStores_notifyEvent .alive c g (p.revived c) c, cnx_revived, if_pos rfl]
    exact setStateAlive_stored hp' hrevived hX' hK hcK hstored h
  · obtain ⟨L, r, hL, ⟨rfl, hor⟩ | ⟨hcL, rfl⟩⟩ := setStateAlive_spared hl hp hc he hK hcK h
    · refine ⟨?_, hL.closesFinal hp'⟩
      rcases ho with rfl | ho
      · exact hL.polled hrevived
      · exact hL.polled_of_mem hrevived hX' (hor.resolve_right fun h => h ho)
    · refine ⟨(hL.polled hrevived).insert ?_ ?_ ?_, hL.closesFinal hp'⟩
      · rwa [hL.fd]
      · rw [hL.cnxs, cnxs_revived]
        exact hc
      · exact (hL.established c).mpr ⟨(established_revived p c c).trans he, hcL⟩

/-! ## Attempts to connect -/

theorem PolledBut.connected (h : p.PolledBut ∅) (hcnxs : q.cnxs = p.cnxs)
    (he : (p.cnx c).established = false)
    (hother : ∀ d, d ≠ c → (q.cnx d).established = (p.cnx d).established)
    (hfd : ∀ d, d ≠ c → (q.cnx d).fd = (p.cnx d).fd) (hfds : q.fds = p.fds) (hnfd : q.nfd = p.nfd)
    (hnew : (q.cnx c).fd ∉ p.openFds) : q.PolledBut {(q.cnx c).fd} where
  fds := by
    rw [hfds, h.fds, Finset.sdiff_empty]
    ext fd
    rw [Finset.mem_sdiff, Finset.mem_singleton, mem_openFds, mem_openFds, hcnxs]
    constructor
    · rintro ⟨d, hd, hde, rfl⟩
      have hdc : d ≠ c := fun hdc => Bool.false_ne_true (he.symm.trans (hdc ▸ hde))
      refine ⟨⟨d, hd, (hother d hdc).trans hde, hfd d hdc⟩, fun heq => hnew ?_⟩
      exact heq ▸ mem_openFds.mpr ⟨d, hd, hde, rfl⟩
    · rintro ⟨⟨d, hd, hde, rfl⟩, hne⟩
      have hdc : d ≠ c := fun hdc => hne (hdc ▸ rfl)
      exact ⟨d, hd, (hother d hdc).symm.trans hde, (hfd d hdc).symm⟩
  bound fd hmem := hnfd ▸ h.bound fd (hfds ▸ hmem)
  distinct d hd e he' hde hee hde' := by
    rw [hcnxs] at hd he'
    by_cases hdc : d = c
    · by_cases hec : e = c
      · rw [hdc, hec]
      · rw [hdc, hfd e hec] at hde'
        exact absurd (mem_openFds.mpr ⟨e, he', (hother e hec).symm.trans hee, hde'.symm⟩) hnew
    · by_cases hec : e = c
      · rw [hec, hfd d hdc] at hde'
        exact absurd (mem_openFds.mpr ⟨d, hd, (hother d hdc).symm.trans hde, hde'⟩) hnew
      · rw [hfd d hdc, hfd e hec] at hde'
        exact h.distinct d hd e he' ((hother d hdc).symm.trans hde) ((hother e hec).symm.trans hee)
          hde'

/-- What a connection that is to come back must meet to be polled, or to die, after it. -/
def Pollable (p : Pool) (c : ℕ) : Prop :=
  (p.Spares .alive c ∨ p.Stored c) ∧ p.OthersReliable c

/-- A refused attempt leaves no number of a descriptor in use behind, and one that succeeds is for
a connection that is polled after it. -/
def AttemptPolled (p : Pool) (c : ℕ) : Prop :=
  match p.nextConnect with
  | .refused _ fd => fd.getD (p.cnx c).fd ∉ p.openFds
  | .established _ => p.Pollable c

theorem Pollable.of_attempted (hr : p.Pollable c) (h : Attempted c p q) (hs : SameStores p q) :
    q.Pollable c := by
  refine ⟨hr.1.imp (fun hr k => ?_) fun hr => ?_, fun d hd hparent hdc he => ?_⟩
  · rw [h.handler, h.globalHandler]
    exact hr k
  · unfold Stored at hr ⊢
    rwa [hs c]
  · have hrel := hr.2 d (h.cnxs ▸ hd) (by rwa [← h.parent, ← h.parent c]) hdc
      ((h.established d hdc).symm.trans he)
    exact ⟨fun e he => hrel.1 e (h.writes d _ he), fun r hr' => hrel.2 r (h.polls d r hr')⟩

theorem refused_polled (h : Attempted c p q) (hp : p.PolledBut X)
    (he : (p.cnx c).established = false) (heq : (q.cnx c).established = false) :
    q.PolledBut X ∧ q.openFds = p.openFds := by
  have hestablished (d : ℕ) (_ : d ∈ p.cnxs) :
      (q.cnx d).established = (p.cnx d).established := by
    by_cases hd : d = c
    · rw [hd, he, heq]
    · exact h.established d hd
  have hfd (d : ℕ) (_ : d ∈ p.cnxs) (hde : (p.cnx d).established = true) :
      (q.cnx d).fd = (p.cnx d).fd := by
    refine h.fd d fun hdc => ?_
    exact Bool.false_ne_true (he.symm.trans (hdc ▸ hde))
  exact ⟨hp.congr h.cnxs hestablished hfd h.fds h.nfd, openFds_congr h.cnxs hestablished hfd⟩

theorem connected_polled {g : Bool} {ret : Ret} (ht : p.Tidy) (hp : p.ClosesFinal)
    (hc : c ∈ p.cnxs) (he : (p.cnx c).established = false) (hr : p.Pollable c)
    (hpolled : p.PolledBut ∅) {p₁ : Pool} {fd : ℕ} (hn : p.nextConnect = .established fd)
    (hconnect : preludeConnectionConnect c p = (.ok (), p₁))
    (halive : setStateAlive c g p₁ = some (ret, q)) : q.PolledBut ∅ ∧ q.ClosesFinal := by
  have hs := sameStores_connect he
  obtain ⟨p₁', hp₁, hattempt, he₁, hnew⟩ := preludeConnectionConnect_established he hn
  rw [hp₁] at hconnect hs
  cases hconnect
  have hpolled₁ := hpolled.connected hattempt.cnxs he hattempt.established hattempt.fd
    hattempt.fds hattempt.nfd hnew
  obtain ⟨hs₁, ho₁⟩ := hr.of_attempted hattempt hs
  exact setStateAlive_polled (hattempt.sameLists.tidy ht).toLinked (hattempt.closesFinal hp)
    (hattempt.cnxs ▸ hc) he₁ hs₁ (.inr ho₁) hpolled₁ subset_rfl halive

theorem Tries.polled {g : Bool} (h : Tries c g p q) (ht : p.Tidy) (hp : p.ClosesFinal)
    (hc : c ∈ p.cnxs) (he : (p.cnx c).established = false) (ha : p.AttemptPolled c)
    (hpolled : p.PolledBut ∅) : q.PolledBut ∅ ∧ q.ClosesFinal := by
  unfold AttemptPolled at ha
  cases hn : p.nextConnect with
  | refused e fd =>
    rw [hn] at ha
    obtain ⟨p₁', hp₁, hattempt, he₁, hfd₁⟩ := preludeConnectionConnect_refused he hn
    cases h with
    | refused e p₁ hconnect hq =>
      rw [hp₁] at hconnect
      cases hconnect
      obtain ⟨hpolled₁, hopen₁⟩ := refused_polled hattempt hpolled he he₁
      rw [hq]
      refine setStateDead_polled g (hattempt.closesFinal hp) hpolled₁ he₁ ?_
      rwa [hopen₁, hfd₁]
    | established p₁ ret hconnect halive =>
      rw [hp₁] at hconnect
      cases hconnect
  | established fd =>
    rw [hn] at ha
    cases h with
    | refused e p₁ hconnect hq =>
      obtain ⟨p₁', hp₁, -⟩ := preludeConnectionConnect_established he hn
      rw [hp₁] at hconnect
      cases hconnect
    | established p₁ ret hconnect halive =>
      exact connected_polled ht hp hc he ha hpolled hn hconnect halive

/-- An attempt while the pool is initialised. A profile error ends the initialisation before the
connection is declared dead. -/
def InitAttemptPolled (p : Pool) (c : ℕ) : Prop :=
  match p.nextConnect with
  | .refused .profile _ => True
  | _ => p.AttemptPolled c

def InitPolled : List ℕ → Pool → Prop
  | [], _ => True
  | c :: cs, p => ((p.cnx c).established = false → p.InitAttemptPolled c) ∧
    ∀ tried q, initConnection c p = some (.ok (), tried, q) → InitPolled cs q

theorem initConnection_polled {ret : Ret} {tried : Bool} (ht : p.Tidy) (hp : p.ClosesFinal)
    (hc : c ∈ p.cnxs) (hi : (p.cnx c).established = false → p.InitAttemptPolled c)
    (hpolled : p.PolledBut ∅) (h : initConnection c p = some (ret, tried, q)) :
    q.PolledBut ∅ ∧ q.ClosesFinal := by
  obtain ⟨-, rfl, -⟩ | ⟨he, rfl, hconnect⟩ | ⟨he, -, htries, hne⟩ := initConnection_cases h
  · exact ⟨hpolled, hp⟩
  · cases hn : p.nextConnect with
    | refused e fd =>
      obtain ⟨p₁', hp₁, hattempt, he₁, -⟩ := preludeConnectionConnect_refused he hn
      rw [hp₁] at hconnect
      cases hconnect
      exact ⟨(refused_polled hattempt hpolled he he₁).1, hattempt.closesFinal hp⟩
    | established fd =>
      obtain ⟨p₁', hp₁, -⟩ := preludeConnectionConnect_established he hn
      rw [hp₁] at hconnect
      cases hconnect
  · have ha : p.AttemptPolled c := by
      have hi := hi he
      unfold InitAttemptPolled at hi
      split at hi
      · next fd hn =>
        obtain ⟨p₁', hp₁, -⟩ := preludeConnectionConnect_refused he hn
        exact absurd (congrArg Prod.fst hp₁) hne
      · exact hi
    exact htries.polled ht hp hc he ha hpolled

theorem initConnections_polled {cs : List ℕ} {ret : Ret} {tried : Bool} (ht : p.Tidy)
    (hp : p.ClosesFinal) (hcs : ∀ c ∈ cs, c ∈ p.cnxs) (hi : InitPolled cs p)
    (hpolled : p.PolledBut ∅) (h : initConnections cs p = some (ret, tried, q)) :
    q.PolledBut ∅ ∧ q.ClosesFinal := by
  induction cs generalizing p ret tried with
  | nil =>
    simp only [initConnections, Option.some.injEq, Prod.mk.injEq] at h
    exact h.2.2 ▸ ⟨hpolled, hp⟩
  | cons c cs ih =>
    rw [List.forall_mem_cons] at hcs
    simp only [initConnections, Option.bind_eq_some_iff] at h
    obtain ⟨⟨ret₁, tried₁, p₁⟩, hc, h⟩ := h
    have hsame := sameLists_initConnection hc
    obtain ⟨hpolled₁, hp₁⟩ := initConnection_polled ht hp hcs.1 hi.1 hpolled hc
    cases ret₁ with
    | error e =>
      simp only [Option.some.injEq, Prod.mk.injEq] at h
      exact h.2.2 ▸ ⟨hpolled₁, hp₁⟩
    | ok =>
      simp only [Option.map_eq_some_iff, Prod.mk.injEq] at h
      obtain ⟨⟨ret₂, tried₂, p₂⟩, hrest, -, -, rfl⟩ := h
      exact ih (hsame.tidy ht) hp₁ (hsame.cnxs ▸ hcs.2) (hi.2 tried₁ p₁ hc) hpolled₁ hrest

/-! ## Operations -/

/-- What an operation must meet for an initialised pool to poll the right descriptors after it. -/
def PollsKept (p : Pool) : PoolOp → Prop
  | .add established fd => p.initialized = true → p.ClosesFinal ∧
      ∀ q, newConnection 0 established fd p.withList = (.ok (), q) →
        established = false ∧ q.AttemptPolled p.next
  | .del c => p.initialized = true → c ∈ p.cnxs → (p.cnx c).established = false
  | .dead _ => p.initialized = true → p.ClosesFinal
  | .alive c fd => p.initialized = true → p.ClosesFinal ∧ (c ∈ p.cnxs →
      if (p.listAt (p.cnx c).parent).dead = 0 then fd = none
      else (p.cnx c).established = fd.isNone ∧ (p.Spares .alive c ∨ p.Stored c) ∧
        (fd.isSome = true → p.OthersReliable c))
  | .broadcast _ => p.initialized = true → p.ClosesFinal
  | .timer c => p.initialized = true → p.ClosesFinal ∧ c ∈ p.cnxs ∧
      (p.cnx c).established = false ∧ ∀ fd, p.nextConnect = .established fd → p.Pollable c
  | .check _ => p.initialized = true → p.ClosesFinal
  | .string _ => True
  | .init => match initFailover p with
    | (.error _, _) => True
    | (.ok (), p) => (p.connectionStringChanged = true → p.fds = ∅) ∧
        (p.initialized = false → p.connectionStringChanged = false → p.PolledBut ∅) ∧
        ∀ q, initLists p = (.ok (), q) → q.ClosesFinal ∧ InitPolled q.cnxs q

theorem flushPool_polled {i : ℕ} {l : CnxList} {ret : Ret} (ht : p.Tidy) (hp : p.ClosesFinal)
    (hl : p.orList[i]? = some l) (hd : (p.listAt i).dead = 0) (hpolled : p.PolledBut X)
    (h : failoverFlush (.any i) p = some (ret, q)) : q.PolledBut X := by
  rw [listAt_of_getElem? hl] at hd
  have hf : p.Flushable (.any i) l.and :=
    ⟨hp, fun d hd => mem_cnxs_of_getElem? hl hd, l, hl, rfl, hd, ht.parent i l hl⟩
  obtain ⟨K, hK, -⟩ := dies_failoverFlush hf h
  exact hK.polled hpolled

theorem checkConnectionEvent_polled (hp : p.ClosesFinal) (hc : c ∈ p.cnxs)
    (he : (p.cnx c).established = true) (hpolled : p.PolledBut X) :
    (checkConnectionEvent c p).PolledBut X ∧ (checkConnectionEvent c p).ClosesFinal := by
  obtain ⟨K, hK, -⟩ := dies_eventHandler hp .input c
  have hpolled₁ := hK.polled hpolled
  have hp₁ := hK.closesFinal hp
  unfold checkConnectionEvent
  dsimp only
  split_ifs
  · cases he₁ : ((eventHandler .input c p).2.cnx c).established with
    | true =>
      obtain ⟨L, -, hL⟩ := dies_setStateDead hp₁ (hK.cnxs ▸ hc) he₁ false
      exact ⟨hL.polled hpolled₁, hL.closesFinal hp₁⟩
    | false =>
      refine setStateDead_polled false hp₁ hpolled₁ he₁ ?_
      have hcK : c ∈ K := by
        by_contra hcK
        exact Bool.false_ne_true (he₁.symm.trans ((hK.established c).mpr ⟨he, hcK⟩))
      rw [hK.openFds hpolled, hK.fd]
      exact fun hmem => (Finset.mem_sdiff.mp hmem).2 (Finset.mem_image_of_mem _ hcK)
  · exact ⟨hpolled₁, hp₁⟩

theorem checkConnections_polled (rfds : Finset ℕ) {cs : List ℕ} (hp : p.ClosesFinal)
    (hcs : ∀ c ∈ cs, c ∈ p.cnxs) (hpolled : p.PolledBut X) :
    (checkConnections rfds cs p).2.PolledBut X ∧ (checkConnections rfds cs p).2.ClosesFinal := by
  induction cs generalizing p with
  | nil => exact ⟨hpolled, hp⟩
  | cons c cs ih =>
    rw [List.forall_mem_cons] at hcs
    rw [checkConnections]
    split_ifs with hc
    · obtain ⟨hpolled₁, hp₁⟩ := checkConnectionEvent_polled hp hcs.1 hc.1 hpolled
      exact ih hp₁ ((sameLists_checkConnectionEvent c p).cnxs ▸ hcs.2) hpolled₁
    · exact ih hp hcs.2 hpolled

theorem connectionPoolCheckEvent_polled {ready : Finset ℕ} (hp : p.ClosesFinal)
    (hpolled : p.PolledBut X) : (connectionPoolCheckEvent ready p).PolledBut X := by
  obtain ⟨hpolled₁, hp₁⟩ :=
    checkConnections_polled (ready ∩ p.fds) hp (fun _ hc => hc) hpolled
  unfold connectionPoolCheckEvent
  dsimp only
  split_ifs
  · obtain ⟨L, -, hL⟩ := dies_react hp₁
      ((checkConnections (ready ∩ p.fds) p.cnxs p).2.env.poolHandler
        (checkConnections (ready ∩ p.fds) p.cnxs p).2.ticks)
    exact hL.polled hpolled₁
  · exact hpolled₁

theorem withList_polled (hp : p.PolledBut X) : p.withList.PolledBut X := by
  unfold Pool.withList
  split_ifs
  · have hcnxs : (createConnectionList p).cnxs = p.cnxs := by simp [createConnectionList, cnxs]
    exact hp.congr hcnxs (fun _ _ => rfl) (fun _ _ _ => rfl) rfl rfl
  · exact hp

theorem PolledBut.link (hp : p.PolledBut X) (hl : p.Linked) {i : ℕ} (hi : i < p.orList.length)
    (fd : ℕ) (store : Option Failover) : (p.link i false fd store).PolledBut X := by
  have hmem (d : ℕ) : d ∈ (p.link i false fd store).cnxs ↔ d = p.next ∨ d ∈ p.cnxs :=
    (cnxs_link false fd store hi).mem_iff.trans List.mem_cons
  have hnew : ((p.link i false fd store).cnx p.next).established = false := by simp [Pool.link]
  have hcnx (d : ℕ) (hd : d ≠ p.next) : (p.link i false fd store).cnx d = p.cnx d :=
    Function.update_of_ne hd _ _
  have hold (d : ℕ) (hd : d ∈ p.cnxs) : d ≠ p.next := (hl.lt_next d hd).ne
  have hne {d : ℕ} (hd : ((p.link i false fd store).cnx d).established = true) : d ≠ p.next :=
    fun heq => Bool.false_ne_true (hnew.symm.trans (heq ▸ hd))
  have hopen : (p.link i false fd store).openFds = p.openFds := by
    ext fd'
    rw [mem_openFds, mem_openFds]
    constructor
    · rintro ⟨d, hd, he, hfd⟩
      have hdn := hne he
      rw [hcnx d hdn] at he hfd
      exact ⟨d, ((hmem d).mp hd).resolve_left hdn, he, hfd⟩
    · rintro ⟨d, hd, he, hfd⟩
      refine ⟨d, (hmem d).mpr (.inr hd), ?_, ?_⟩
      · rwa [hcnx d (hold d hd)]
      · rwa [hcnx d (hold d hd)]
  refine ⟨by rw [hopen]; exact hp.fds, hp.bound, fun d hd e he hde hee hfd => ?_⟩
  have hdn := hne hde
  have hen := hne hee
  rw [hcnx d hdn] at hde hfd
  rw [hcnx e hen] at hee hfd
  exact hp.distinct d (((hmem d).mp hd).resolve_left hdn) e (((hmem e).mp he).resolve_left hen)
    hde hee hfd

theorem newConnection_polled {fd i : ℕ} {ret : Ret} {established : Bool} (ht : p.Tidy)
    (hi : i < p.orList.length) (hp : p.PolledBut X)
    (he : ret = .ok () → established = false)
    (h : newConnection i established fd p = (ret, q)) : q.PolledBut X := by
  have hstores (stores : List (Except ErrorCode Failover)) :
      { p with env := { p.env with stores } }.PolledBut X :=
    hp.congr rfl (fun _ _ => rfl) (fun _ _ _ => rfl) rfl rfl
  obtain ⟨stores, ⟨e, hn⟩ | ⟨store, hn⟩⟩ := newConnection_cases i established fd p
  · rw [hn] at h
    cases h
    exact hstores stores
  · rw [hn] at h
    cases h
    rw [he rfl]
    exact (hstores stores).link ((sameLists_stores p stores).tidy ht).toLinked hi fd store

theorem addConnection_polled {established : Bool} {fd : ℕ} {ret : Ret} (ht : p.Tidy)
    (hp : p.ClosesFinal) (hpolled : p.PolledBut ∅) (hi : p.initialized = true)
    (ha : ∀ q, newConnection 0 established fd p.withList = (.ok (), q) →
      established = false ∧ q.AttemptPolled p.next)
    (h : preludeConnectionPoolAddConnection established fd p = some (ret, q)) :
    q.PolledBut ∅ := by
  have htw := tidy_withList ht
  have hpw := withList_polled hpolled
  obtain ⟨hnext, henv, hinit⟩ := p.withList_kept
  obtain ⟨e, hn⟩ | ⟨q₁, q₂, hn, hc, hf⟩ := addConnection_cases h
  · exact newConnection_polled htw p.withList_pos hpw (by rintro ⟨⟩) hn
  obtain ⟨rfl, hattempt⟩ := ha q₁ hn
  have hpolled₁ := newConnection_polled htw p.withList_pos hpw (fun _ => rfl) hn
  have ht₁ := tidy_newConnection htw false fd p.withList_pos
  have hlen := length_newConnection 0 false fd p.withList
  have hi₁ := initialized_newConnection 0 false fd p.withList
  rw [hn] at ht₁ hlen hi₁
  obtain ⟨hmem, he₁, hcloses⟩ := newConnection_linked p.withList_pos hn
  have hp₁ : q₁.ClosesFinal := by
    unfold ClosesFinal
    rwa [hcloses, henv]
  rw [if_pos ⟨hi₁.trans (hinit.trans hi), rfl⟩] at hc
  rw [← hnext] at hattempt
  obtain ⟨hpolled₂, hp₂⟩ := hc.polled ht₁ hp₁ hmem he₁ hattempt hpolled₁
  rcases hf with rfl | ⟨hd, hf⟩
  · exact hpolled₂
  · have hpos : 0 < q₁.orList.length := hlen ▸ p.withList_pos
    have hlist := hc.sameLists.lists 0
    rw [List.getElem?_eq_getElem hpos, Option.map_some, Option.map_eq_some_iff] at hlist
    obtain ⟨l, hl, -⟩ := hlist
    exact flushPool_polled (hc.sameLists.tidy ht₁) hp₂ hl hd hpolled₂ hf

theorem setConnectionAlive_polled {fd : Option ℕ} {ret : Ret} (ht : p.Tidy) (hp : p.ClosesFinal)
    (hpolled : p.PolledBut ∅)
    (ha : c ∈ p.cnxs → if (p.listAt (p.cnx c).parent).dead = 0 then fd = none
      else (p.cnx c).established = fd.isNone ∧ (p.Spares .alive c ∨ p.Stored c) ∧
        (fd.isSome = true → p.OthersReliable c))
    (h : preludeConnectionPoolSetConnectionAlive c (p.reestablish c fd) = some (ret, q)) :
    q.PolledBut ∅ := by
  have hsame := sameLists_reestablish p c fd
  have hlists : (p.reestablish c fd).orList = p.orList := by cases fd <;> rfl
  have hother (d : ℕ) (hd : d ≠ c) : (p.reestablish c fd).cnx d = p.cnx d := by
    cases fd with
    | none => rfl
    | some fd => exact Function.update_of_ne hd _ _
  have hfds : (p.reestablish c fd).fds = p.fds := by cases fd <;> rfl
  have hnfd : (p.reestablish c fd).nfd = p.nfd := by cases fd <;> rfl
  unfold preludeConnectionPoolSetConnectionAlive at h
  rw [hsame.cnxs, hsame.parent, listAt, hlists, ← listAt] at h
  split at h
  · next hc =>
    simp only [Option.some.injEq, Prod.mk.injEq] at h
    have hne (d : ℕ) (hd : d ∈ p.cnxs) : d ≠ c := fun hdc => hc (hdc ▸ hd)
    exact h.2 ▸ hpolled.congr hsame.cnxs (fun d hd => by rw [hother d (hne d hd)])
      (fun d hd _ => by rw [hother d (hne d hd)]) hfds hnfd
  next hc =>
  rw [not_not] at hc
  have ha := ha hc
  split at h
  · next hd =>
    rw [if_pos hd] at ha
    subst ha
    simp only [Option.some.injEq, Prod.mk.injEq] at h
    exact h.2 ▸ hpolled
  · next hd =>
    rw [if_neg hd] at ha
    obtain ⟨he, hs, ho⟩ := ha
    cases fd with
    | none =>
      exact (setStateAlive_polled ht.toLinked hp hc he hs (.inl rfl) hpolled
        (Finset.empty_subset _) h).1
    | some fd =>
      have he' : ((p.reestablish c (some fd)).cnx c).established = true := by
        simp [reestablish, modifyCnx]
      have hnew : ((p.reestablish c (some fd)).cnx c).fd ∉ p.openFds := by
        simp only [reestablish, modifyCnx, Function.update_self]
        exact newFd_notMem p fd
      have hpolled₁ := hpolled.connected hsame.cnxs he (fun d hd => by rw [hother d hd])
        (fun d hd => by rw [hother d hd]) hfds hnfd hnew
      have hs' : (p.reestablish c (some fd)).Spares .alive c ∨
          (p.reestablish c (some fd)).Stored c := by
        refine hs.imp id fun hs => ?_
        unfold Stored at hs ⊢
        simpa [reestablish, modifyCnx] using hs
      have ho' : (p.reestablish c (some fd)).OthersReliable c := by
        intro d hd hparent hdc hde
        rw [hsame.parent, hsame.parent] at hparent
        rw [hother d hdc] at hde
        exact ho rfl d (hsame.cnxs ▸ hd) hparent hdc hde
      exact (setStateAlive_polled (hsame.tidy ht).toLinked hp (hsame.cnxs ▸ hc) he' hs' (.inr ho')
        hpolled₁ subset_rfl h).1

theorem connectionTimerExpire_polled (ht : p.Tidy) (hp : p.ClosesFinal) (hpolled : p.PolledBut ∅)
    (hc : c ∈ p.cnxs) (he : (p.cnx c).established = false)
    (hr : ∀ fd, p.nextConnect = .established fd → p.Pollable c)
    (h : connectionTimerExpire c p = some q) : q.PolledBut ∅ := by
  unfold connectionTimerExpire at h
  cases hn : p.nextConnect with
  | refused e fd =>
    obtain ⟨p₁, hp₁, hattempt, he₁, -⟩ := preludeConnectionConnect_refused he hn
    simp only [hp₁, Option.some.injEq] at h
    have hpolled₁ := (refused_polled hattempt hpolled he he₁).1
    rw [← h]
    have hcnx (d : ℕ) : ∀ x, ((p₁.modifyCnx c fun y =>
        { y with expire := x, timer := true }).cnx d).established = (p₁.cnx d).established ∧
        ((p₁.modifyCnx c fun y => { y with expire := x, timer := true }).cnx d).fd =
          (p₁.cnx d).fd := by
      intro x
      by_cases hd : d = c
      · subst hd
        simp [modifyCnx]
      · simp [modifyCnx, hd]
    exact hpolled₁.congr rfl (fun d _ => (hcnx d _).1) (fun d _ _ => (hcnx d _).2) rfl rfl
  | established fd =>
    obtain ⟨p₁, hp₁, -⟩ := preludeConnectionConnect_established he hn
    simp only [hp₁, Option.map_eq_some_iff] at h
    obtain ⟨⟨ret, q⟩, halive, rfl⟩ := h
    exact (connected_polled ht hp hc he (hr fd hn) hpolled hn hp₁ halive).1

theorem broadcast_polled {m : Msg} (hp : p.ClosesFinal) (hpolled : p.PolledBut X)
    (h : preludeConnectionPoolBroadcast m p = some q) : q.PolledBut X := by
  simp only [preludeConnectionPoolBroadcast, walkManagerLists, Option.map_eq_some_iff] at h
  obtain ⟨⟨m', q⟩, h, rfl⟩ := h
  split at h
  · next l hl =>
    have hcs (d : ℕ) (hd : d ∈ l.and) : d ∈ p.cnxs :=
      List.mem_flatMap.mpr ⟨l, List.mem_of_find?_eq_some hl, hd⟩
    obtain ⟨K, hK, -⟩ := dies_broadcastMessage hp hcs h
    exact hK.polled hpolled
  · simp only [saveToPool, Option.map_eq_some_iff, Prod.mk.injEq] at h
    obtain ⟨⟨store, m₁, p₁⟩, hsave, -, rfl⟩ := h
    exact ((dies_failoverSaveMsg hsave).polled hpolled).congr rfl (fun _ _ => rfl)
      (fun _ _ _ => rfl) rfl rfl

/-- A pool that polls nothing, with no connection alive. -/
structure Idle (p : Pool) : Prop where
  fds : p.fds = ∅
  dead : ∀ c ∈ p.cnxs, (p.cnx c).established = false

theorem Idle.polled (h : p.Idle) : p.PolledBut ∅ where
  fds := by
    rw [h.fds, Finset.sdiff_empty, eq_comm]
    refine Finset.eq_empty_of_forall_notMem fun fd hfd => ?_
    obtain ⟨c, hc, he, -⟩ := mem_openFds.mp hfd
    exact Bool.false_ne_true ((h.dead c hc).symm.trans he)
  bound fd hfd := absurd (h.fds ▸ hfd) (Finset.notMem_empty fd)
  distinct c hc _ _ he := absurd ((h.dead c hc).symm.trans he) Bool.false_ne_true

theorem Idle.newConnection {i : ℕ} (hp : p.Idle) (hi : i < p.orList.length) (fd : ℕ) :
    (newConnection i false fd p).2.Idle := by
  obtain ⟨stores, ⟨e, h⟩ | ⟨store, h⟩⟩ := newConnection_cases i false fd p
  · rw [h]
    exact ⟨hp.fds, hp.dead⟩
  · rw [h]
    refine ⟨hp.fds, fun c hc => ?_⟩
    have hmem := (cnxs_link (p := { p with env := { p.env with stores } }) false fd store
      hi).mem_iff.mp hc
    by_cases hcn : c = p.next
    · simp [link, hcn]
    · have hc' : c ∈ p.cnxs := (List.mem_cons.mp hmem).resolve_left hcn
      simpa [link, hcn] using hp.dead c hc'

theorem Idle.createConnectionList (hp : p.Idle) : (createConnectionList p).Idle := by
  have hcnxs : (LibPrelude.createConnectionList p).cnxs = p.cnxs := by
    simp [LibPrelude.createConnectionList, cnxs]
  exact ⟨hp.fds, fun c hc => hp.dead c (hcnxs ▸ hc)⟩

theorem Idle.parseConfigWords (fuel : ℕ) (line : Option (List Char)) (hp : p.Idle) (ht : p.Tidy)
    (hne : p.orList ≠ []) : (parseConfigWords fuel line p).2.Idle := by
  induction fuel generalizing line p with
  | zero => exact hp
  | succ fuel ih =>
    rw [LibPrelude.parseConfigWords]
    split
    · exact hp
    · next word line _ =>
      have hlast : p.orList.length - 1 < p.orList.length := by
        have := List.length_pos_iff.mpr hne
        omega
      obtain ⟨htidy, hlen, -⟩ := tidy_newConnectionFromAddress ht word hlast
      have hnew : (newConnectionFromAddress (p.orList.length - 1) word p).2.Idle := by
        unfold newConnectionFromAddress
        split
        · exact hp
        · exact hp.newConnection hlast 0
      split_ifs
      · exact ih line hp.createConnectionList ht.createConnectionList
          (by simp [LibPrelude.createConnectionList])
      · exact ih line hp ht hne
      · split
        · next h => exact h ▸ hnew
        · next q h =>
          rw [h] at htidy hlen hnew
          have hq : q.orList ≠ [] := by
            rw [← List.length_pos_iff, hlen]
            exact List.length_pos_iff.mpr hne
          exact ih line hnew htidy hq

theorem fds_connectionListDestroy (p : Pool) : (connectionListDestroy p).fds = p.fds := by
  have hone (c : ℕ) (p : Pool) : (destroyConnectionSingle c p).fds = p.fds := by
    unfold destroyConnectionSingle closeConnectionFdBlock
    split <;> rfl
  unfold connectionListDestroy
  generalize p.cnxs = cs
  induction cs generalizing p with
  | nil => rfl
  | cons c cs ih => exact (ih _).trans (hone c p)

theorem initLists_polled {ret : Ret} (hpolled : p.connectionStringChanged = false → p.PolledBut ∅)
    (hk : p.connectionStringChanged = true → p.fds = ∅) (h : initLists p = (ret, q)) :
    q.PolledBut ∅ := by
  unfold initLists at h
  split_ifs at h with hnone hchanged
  · cases h
    cases hc : p.connectionStringChanged with
    | true =>
      refine Idle.polled ⟨hk hc, fun c hc => ?_⟩
      simp [cnxs, hnone.2] at hc
    | false => exact hpolled hc
  · have hidle : Idle { connectionListDestroy { p with connectionStringChanged := false } with
        nfd := 0
        orList := [] } := by
      refine ⟨(fds_connectionListDestroy _).trans (hk hchanged), fun c hc => ?_⟩
      simp [cnxs] at hc
    have hparse := hidle.createConnectionList.parseConfigWords
      (((connectionListDestroy { p with connectionStringChanged := false }).connectionString.getD
        []).length + 2)
      (connectionListDestroy { p with connectionStringChanged := false }).connectionString
      (tidy_of_nil rfl).createConnectionList (by simp [createConnectionList])
    unfold parseConfigLine at h
    rw [h] at hparse
    exact hparse.polled
  · cases h
    exact hpolled (Bool.not_eq_true _ ▸ hchanged)

theorem init_polled {ret : Ret} (ht : p.Tidy) (hpolled : p.initialized = true → p.PolledBut ∅)
    (hk : p.PollsKept .init) (h : preludeConnectionPoolInit p = some (ret, q))
    (hi : q.initialized = true) : q.PolledBut ∅ := by
  have hsame := sameLists_initFailover p
  have ht₁ := hsame.tidy ht
  have hpolled₁ (hi : p.initialized = true) : (initFailover p).2.PolledBut ∅ := by
    have hfail : (initFailover p).2.orList = p.orList ∧ (initFailover p).2.cnx = p.cnx ∧
        (initFailover p).2.fds = p.fds ∧ (initFailover p).2.nfd = p.nfd := by
      unfold initFailover
      dsimp only
      split_ifs
      · split <;> exact ⟨rfl, rfl, rfl, rfl⟩
      · exact ⟨rfl, rfl, rfl, rfl⟩
    obtain ⟨hlists, hcnx, hfds, hnfd⟩ := hfail
    refine (hpolled hi).congr ?_ (fun _ _ => by rw [hcnx]) (fun _ _ _ => by rw [hcnx]) hfds hnfd
    rw [cnxs, hlists, cnxs]
  simp only [PollsKept] at hk
  unfold preludeConnectionPoolInit at h
  split at h
  · next e p₁ hf =>
    simp only [Option.some.injEq, Prod.mk.injEq] at h
    obtain ⟨-, rfl⟩ := h
    rw [hf] at hpolled₁ hsame
    exact hpolled₁ (hsame.initialized.symm.trans hi)
  next p₁ hf =>
  rw [hf] at hpolled₁ hsame ht₁
  simp only [hf] at hk
  obtain ⟨hfds, hbefore, hconnects⟩ := hk
  have hstart (hc : p₁.connectionStringChanged = false) : p₁.PolledBut ∅ := by
    cases hi₁ : p₁.initialized with
    | true => exact hpolled₁ (hsame.initialized.symm.trans hi₁)
    | false => exact hbefore hi₁ hc
  obtain ⟨ht₂, hi₂⟩ := tidy_initLists ht₁
  split at h
  · next e p₂ hlists =>
    simp only [Option.some.injEq, Prod.mk.injEq] at h
    obtain ⟨-, rfl⟩ := h
    exact initLists_polled hstart hfds hlists
  next p₂ hlists =>
  rw [hlists] at ht₂
  obtain ⟨hp₂, hinit⟩ := hconnects p₂ hlists
  simp only [Option.map_eq_some_iff] at h
  obtain ⟨⟨ret₃, tried, p₃⟩, hconnect, h⟩ := h
  obtain ⟨hpolled₃, hp₃⟩ := initConnections_polled ht₂ hp₂ (fun _ hc => hc) hinit
    (initLists_polled hstart hfds hlists) hconnect
  cases ret₃ with
  | error e =>
    simp only [Prod.mk.injEq] at h
    exact h.2 ▸ hpolled₃
  | ok =>
    simp only [Prod.mk.injEq] at h
    obtain ⟨-, rfl⟩ := h
    have hend : (if tried then react (p₃.env.poolHandler p₃.ticks) p₃.tick
        else p₃).PolledBut ∅ := by
      split_ifs
      · obtain ⟨K, -, hK⟩ := dies_react hp₃ (p₃.env.poolHandler p₃.ticks)
        exact hK.polled hpolled₃
      · exact hpolled₃
    exact hend.congr rfl (fun _ _ => rfl) (fun _ _ _ => rfl) rfl rfl

theorem destroyConnectionSingle_polled (he : (p.cnx c).established = false)
    (hpolled : p.PolledBut X) : (destroyConnectionSingle c p).PolledBut X := by
  rw [destroyConnectionSingle, closeConnectionFdBlock_closed he]
  have hcnx (d : ℕ) : ((p.modifyCnx c fun x =>
      { x with timer := false, freed := true }).cnx d).established = (p.cnx d).established ∧
      ((p.modifyCnx c fun x => { x with timer := false, freed := true }).cnx d).fd =
        (p.cnx d).fd := by
    by_cases hd : d = c
    · subst hd
      simp [modifyCnx]
    · simp [modifyCnx, hd]
  exact hpolled.congr rfl (fun d _ => (hcnx d).1) (fun d _ _ => (hcnx d).2) rfl rfl

theorem PollsKept.apply {op : PoolOp} (hk : p.PollsKept op) (ht : p.Tidy)
    (hpolled : p.initialized = true → p.PolledBut ∅) (h : p.apply op = some q)
    (hi : q.initialized = true) : q.PolledBut ∅ := by
  cases op with
  | add established fd =>
    simp only [Pool.apply, Option.map_eq_some_iff] at h
    obtain ⟨⟨ret, q'⟩, h, rfl⟩ := h
    have hp : p.initialized = true := (initialized_addConnection h).symm.trans hi
    obtain ⟨hfinal, ha⟩ := hk hp
    exact addConnection_polled ht hfinal (hpolled hp) hp ha h
  | del c =>
    simp only [Pool.apply, Option.some.injEq] at h
    rw [preludeConnectionPoolDelConnection] at h
    split at h
    · subst h
      exact hpolled hi
    · next hc =>
      subst h
      have hp : p.initialized = true :=
        (sameLists_destroyConnectionSingle c p).initialized.symm.trans hi
      have he := hk hp (not_not.mp hc)
      exact destroyConnectionSingle_polled he (hpolled hp)
  | dead c =>
    simp only [Pool.apply, Option.some.injEq] at h
    subst h
    have hsame := sameLists_setConnectionDeadWith (sameLists_notifyEvent .dead c false) c p
    have hp : p.initialized = true := hsame.initialized.symm.trans hi
    obtain ⟨K, -, hK⟩ :=
      dies_setConnectionDeadWith (onlyKills_notifyEvent .dead c false) (hk hp) c
    exact hK.polled (hpolled hp)
  | alive c fd =>
    simp only [Pool.apply, Option.map_eq_some_iff] at h
    obtain ⟨⟨ret, q'⟩, h, rfl⟩ := h
    have hsame := (sameLists_reestablish p c fd).trans (sameLists_setConnectionAlive h)
    have hp : p.initialized = true := hsame.initialized.symm.trans hi
    obtain ⟨hfinal, ha⟩ := hk hp
    exact setConnectionAlive_polled ht hfinal (hpolled hp) ha h
  | broadcast m =>
    have hp : p.initialized = true := (sameLists_broadcast h).initialized.symm.trans hi
    exact broadcast_polled (hk hp) (hpolled hp) h
  | timer c =>
    simp only [Pool.apply] at h
    split_ifs at h
    have hp : p.initialized = true := (sameLists_connectionTimerExpire h).initialized.symm.trans hi
    obtain ⟨hfinal, hc, he, hr⟩ := hk hp
    exact connectionTimerExpire_polled ht hfinal (hpolled hp) hc he hr h
  | check ready =>
    simp only [Pool.apply, Option.some.injEq] at h
    subst h
    have hp : p.initialized = true :=
      (sameLists_connectionPoolCheckEvent ready p).initialized.symm.trans hi
    exact connectionPoolCheckEvent_polled (hk hp) (hpolled hp)
  | string s =>
    simp only [Pool.apply, Option.some.injEq] at h
    subst h
    exact (hpolled hi).congr rfl (fun _ _ => rfl) (fun _ _ _ => rfl) rfl rfl
  | init =>
    simp only [Pool.apply, Option.map_eq_some_iff] at h
    obtain ⟨⟨ret, q'⟩, h, rfl⟩ := h
    exact init_polled ht hpolled hk h hi

/-- In a run in which each operation keeps the polled set right, an initialised pool polls the
descriptors of the connections that are alive and no others, and `nfd` is above all of them. -/
theorem run_polled (h : Run PollsKept p) (hi : p.initialized = true) :
    p.fds = p.openFds ∧ ∀ fd ∈ p.fds, fd < p.nfd := by
  have hpolled : p.initialized = true → p.PolledBut ∅ := by
    clear hi
    induction h with
    | new flagReconnect flagFailover => exact fun hi => absurd hi Bool.false_ne_true
    | step env op hrun hk hstep ih =>
      refine hk.apply (hrun.tidy.withEnv env) (fun hi => ?_) (apply_of_step hstep)
      exact (ih hi).congr rfl (fun _ _ => rfl) (fun _ _ _ => rfl) rfl rfl
  obtain ⟨hfds, hbound, -⟩ := hpolled hi
  exact ⟨by rwa [Finset.sdiff_empty] at hfds, hbound⟩

theorem othersReliable_of_quiet (hw : p.env.writes = Env.quiet.writes)
    (hp : p.env.polls = Env.quiet.polls) (c : ℕ) : p.OthersReliable c := by
  intro d _ _ _ _
  rw [Reliable, hw, hp]
  exact ⟨fun _ h => absurd h List.not_mem_nil, List.forall_mem_nil _⟩

theorem pollsKept_establishedPool : Run PollsKept establishedPool := by
  have hnew : Run PollsKept (new false false) := .new false false
  have hstring := hnew.step .quiet (.string ['a', ' ', '&', '&', ' ', 'b']) trivial rfl
  refine hstring.step { Env.quiet with connects := [.established 3, .established 4] } .init ?_ rfl
  refine ⟨fun _ => rfl, ?_, ?_⟩
  · intro _ hc
    cases hc
  · intro q h
    cases h
    refine ⟨List.forall_mem_nil _, fun _ => ?_, ?_⟩
    · exact ⟨.inl (spares_of_quiet rfl rfl _ _), othersReliable_of_quiet rfl rfl _⟩
    · intro tried q h
      cases h
      refine ⟨fun _ => ?_, fun _ _ _ => trivial⟩
      exact ⟨.inl (spares_of_quiet rfl rfl _ _), othersReliable_of_quiet rfl rfl _⟩

theorem pollsKept_revivedPool : Run PollsKept revivedPool := by
  have hfirst := pollsKept_establishedPool.step .quiet (.dead 0)
    (fun _ => List.forall_mem_nil _) rfl
  have hsecond := hfirst.step .quiet (.dead 1) (fun _ => List.forall_mem_nil _) rfl
  refine hsecond.step .quiet (.alive 0 (some 5)) (fun _ => ⟨List.forall_mem_nil _, fun _ => ?_⟩) rfl
  rw [if_neg (by decide)]
  exact ⟨rfl, .inl (spares_of_quiet rfl rfl _ _), fun _ => othersReliable_of_quiet rfl rfl _⟩

theorem run_polled_revived : 5 ∈ revivedPool.fds ∧ revivedPool.fds = revivedPool.openFds ∧
    ∀ fd ∈ revivedPool.fds, fd < revivedPool.nfd :=
  ⟨by decide, run_polled pollsKept_revivedPool rfl⟩

/-- A connection that is alive when it is added is not polled. -/
theorem add_unpolled : ¬ ∀ p : Pool, Run (fun _ _ => True) p → p.initialized = true →
    p.fds = p.openFds ∧ ∀ fd ∈ p.fds, fd < p.nfd := by
  intro h
  have hnew : Run (fun _ _ => True) (new false false) := .new false false
  have hstring := hnew.step .quiet (.string ['a']) trivial rfl
  have hinit := hstring.step { Env.quiet with connects := [.established 3] } .init trivial rfl
  have hadd := hinit.step .quiet (.add true 4) trivial rfl
  have hfds := (h _ hadd rfl).1
  revert hfds
  decide

end Pool

end LibPrelude
