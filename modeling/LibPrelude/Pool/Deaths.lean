import LibPrelude.Pool.Operations

/-! # What callbacks and sends do to a pool

Whatever a callback, a send or a flush does, the pool differs in a set of connections
that died: each was linked and established, the list it belongs to counts it, and its
descriptor left the polled set. Everything else the pool keeps track of is unchanged.
-/

namespace LibPrelude

namespace Pool

/-- What no death of a connection changes. Scripts get shorter. -/
structure Frame (p p' : Pool) : Prop where
  parent : ∀ c, (p'.cnx c).parent = (p.cnx c).parent
  fd : ∀ c, (p'.cnx c).fd = (p.cnx c).fd
  freed : ∀ c, (p'.cnx c).freed = (p.cnx c).freed
  next : p'.next = p.next
  initialized : p'.initialized = p.initialized
  nfd : p'.nfd = p.nfd
  changed : p'.connectionStringChanged = p.connectionStringChanged
  connects : p'.env.connects = p.env.connects
  handler : p'.env.handler = p.env.handler
  globalHandler : p'.env.globalHandler = p.env.globalHandler
  closes : ∀ r ∈ p'.env.closes, r ∈ p.env.closes
  writes : ∀ c, ∀ r ∈ p'.env.writes c, r ∈ p.env.writes c
  polls : ∀ c, ∀ r ∈ p'.env.polls c, r ∈ p.env.polls c

/-- The pool once exactly the connections in `K` have died. -/
structure Dies (K : Finset ℕ) (p p' : Pool) : Prop extends Frame p p' where
  linked : ∀ c ∈ K, c ∈ p.cnxs
  alive : ∀ c ∈ K, (p.cnx c).established = true
  established : ∀ c, (p'.cnx c).established = true ↔ (p.cnx c).established = true ∧ c ∉ K
  timer : ∀ c, (p'.cnx c).timer = true → (p.cnx c).timer = true ∨ c ∈ K
  orList : ∀ i : ℕ, p'.orList[i]? = p.orList[i]?.map fun l : CnxList =>
    { l with dead := l.dead + (K.filter fun c => (p.cnx c).parent = i).card }
  fds : p'.fds = p.fds \ K.image fun c => (p.cnx c).fd

theorem Frame.refl (p : Pool) : Frame p p :=
  ⟨fun _ => rfl, fun _ => rfl, fun _ => rfl, rfl, rfl, rfl, rfl, rfl, rfl, rfl, fun _ h => h,
    fun _ _ h => h, fun _ _ h => h⟩

theorem Frame.trans {p q r : Pool} (h₁ : Frame p q) (h₂ : Frame q r) : Frame p r where
  parent c := (h₂.parent c).trans (h₁.parent c)
  fd c := (h₂.fd c).trans (h₁.fd c)
  freed c := (h₂.freed c).trans (h₁.freed c)
  next := h₂.next.trans h₁.next
  initialized := h₂.initialized.trans h₁.initialized
  nfd := h₂.nfd.trans h₁.nfd
  changed := h₂.changed.trans h₁.changed
  connects := h₂.connects.trans h₁.connects
  handler := h₂.handler.trans h₁.handler
  globalHandler := h₂.globalHandler.trans h₁.globalHandler
  closes r hr := h₁.closes r (h₂.closes r hr)
  writes c r hr := h₁.writes c r (h₂.writes c r hr)
  polls c r hr := h₁.polls c r (h₂.polls c r hr)

theorem Dies.of_frame {p p' : Pool} (h : Frame p p')
    (he : ∀ c, (p'.cnx c).established = (p.cnx c).established)
    (ht : ∀ c, (p'.cnx c).timer = (p.cnx c).timer) (hl : p'.orList = p.orList)
    (hf : p'.fds = p.fds) : Dies ∅ p p' where
  toFrame := h
  linked := nofun
  alive := nofun
  established c := by rw [he]; simp
  timer c := by rw [ht]; exact .inl
  orList i := by rw [hl]; simp
  fds := by rw [hf]; simp

theorem Dies.refl (p : Pool) : Dies ∅ p p :=
  .of_frame (.refl p) (fun _ => rfl) (fun _ => rfl) rfl rfl

theorem cnxs_eq {p p' : Pool}
    (h : ∀ i : ℕ, p'.orList[i]?.map CnxList.and = p.orList[i]?.map CnxList.and) :
    p'.cnxs = p.cnxs := by
  have hmap : p'.orList.map CnxList.and = p.orList.map CnxList.and := by
    apply List.ext_getElem?
    intro i
    rw [List.getElem?_map, List.getElem?_map, h]
  rw [cnxs, cnxs, List.flatMap_def, List.flatMap_def, hmap]

theorem Dies.cnxs {K : Finset ℕ} {p p' : Pool} (h : Dies K p p') : p'.cnxs = p.cnxs := by
  apply cnxs_eq
  intro i
  rw [h.orList, Option.map_map]
  rfl

theorem Dies.disjoint {K L : Finset ℕ} {p q r : Pool} (h₁ : Dies K p q) (h₂ : Dies L q r) :
    Disjoint K L := by
  rw [Finset.disjoint_left]
  intro c hc hc'
  exact ((h₁.established c).mp (h₂.alive c hc')).2 hc

theorem Dies.trans {K L : Finset ℕ} {p q r : Pool} (h₁ : Dies K p q) (h₂ : Dies L q r) :
    Dies (K ∪ L) p r where
  toFrame := h₁.toFrame.trans h₂.toFrame
  linked := by
    intro c hc
    rcases Finset.mem_union.mp hc with hc | hc
    · exact h₁.linked c hc
    · exact h₁.cnxs ▸ h₂.linked c hc
  alive := by
    intro c hc
    rcases Finset.mem_union.mp hc with hc | hc
    · exact h₁.alive c hc
    · exact ((h₁.established c).mp (h₂.alive c hc)).1
  established c := by
    rw [h₂.established, h₁.established, Finset.mem_union, not_or, and_assoc]
  timer c hc := by
    rw [Finset.mem_union]
    rcases h₂.timer c hc with hc | hc
    · exact (h₁.timer c hc).imp_right .inl
    · exact .inr (.inr hc)
  orList i := by
    have hcard : ((K ∪ L).filter fun c => (p.cnx c).parent = i).card =
        (K.filter fun c => (p.cnx c).parent = i).card +
          (L.filter fun c => (p.cnx c).parent = i).card := by
      rw [Finset.filter_union, Finset.card_union_of_disjoint]
      exact Finset.disjoint_filter_filter (h₁.disjoint h₂)
    rw [h₂.orList, h₁.orList, Option.map_map, hcard]
    congr 1
    funext l
    simp only [Function.comp_apply, h₁.parent, Nat.add_assoc]
  fds := by
    rw [h₂.fds, h₁.fds, Finset.image_union, sdiff_sdiff_left]
    congr 2
    exact Finset.image_congr fun c _ => h₁.fd c

theorem Dies.erase {K : Finset ℕ} {p p' : Pool} (h : Dies K p p') (fd : ℕ) :
    Dies K { p with fds := p.fds.erase fd } { p' with fds := p'.fds.erase fd } where
  toFrame := ⟨h.parent, h.fd, h.freed, h.next, h.initialized, h.nfd, h.changed, h.connects,
    h.handler, h.globalHandler, h.closes, h.writes, h.polls⟩
  linked := h.linked
  alive := h.alive
  established := h.established
  timer := h.timer
  orList := h.orList
  fds := by
    change p'.fds.erase fd = p.fds.erase fd \ _
    rw [h.fds, Finset.erase_sdiff_comm]

/-- A pool whose connections all close when they are told to. -/
def ClosesFinal (p : Pool) : Prop := ∀ r ∈ p.env.closes, closes r = true

theorem Frame.closesFinal {p p' : Pool} (h : Frame p p') (hc : p.ClosesFinal) : p'.ClosesFinal :=
  fun r hr => hc r (h.closes r hr)

/-- The pool that the callback for a death finds; the descriptor is still in the set. -/
def dying (p : Pool) (c : ℕ) : Pool :=
  initCnxTimer c ((p.modifyCnx c fun x => { x with established := false }).modifyParent c
    fun l => { l with dead := l.dead + 1 })

theorem cnx_dying (p : Pool) (c d : ℕ) : (p.dying c).cnx d =
    if d = c then
      { p.cnx c with
        established := false
        timer := (p.flagReconnect || (p.cnx c).timer) }
    else p.cnx d := by
  unfold dying initCnxTimer modifyParent modifyCnx
  by_cases hd : d = c
  · subst hd
    cases p.flagReconnect <;> simp
  · cases p.flagReconnect <;> simp [hd]

theorem orList_dying (p : Pool) (c : ℕ) : (p.dying c).orList =
    p.orList.modify (p.cnx c).parent fun l => { l with dead := l.dead + 1 } := by
  unfold dying initCnxTimer modifyParent modifyCnx
  cases p.flagReconnect <;> simp

theorem frame_dying (p : Pool) (c : ℕ) : Frame p (p.dying c) := by
  have hrest : (p.dying c).next = p.next ∧ (p.dying c).initialized = p.initialized ∧
      (p.dying c).nfd = p.nfd ∧
      (p.dying c).connectionStringChanged = p.connectionStringChanged ∧
      (p.dying c).env = p.env := by
    unfold dying initCnxTimer
    split_ifs <;> exact ⟨rfl, rfl, rfl, rfl, rfl⟩
  obtain ⟨hn, hi, hf, hs, he⟩ := hrest
  refine ⟨fun d => ?_, fun d => ?_, fun d => ?_, hn, hi, hf, hs, by rw [he], by rw [he], by rw [he],
    by rw [he]; exact fun _ h => h, by rw [he]; exact fun _ _ h => h,
    by rw [he]; exact fun _ _ h => h⟩
  all_goals
    rw [cnx_dying]
    split_ifs with hd
    · rw [hd]
    · rfl

theorem fds_dying (p : Pool) (c : ℕ) : (p.dying c).fds = p.fds := by
  unfold dying initCnxTimer
  split_ifs <;> rfl

theorem dies_dying {p : Pool} {c : ℕ} (hc : c ∈ p.cnxs) (he : (p.cnx c).established = true) :
    Dies {c} p { p.dying c with fds := (p.dying c).fds.erase (p.cnx c).fd } where
  toFrame := by
    have h := frame_dying p c
    exact ⟨h.parent, h.fd, h.freed, h.next, h.initialized, h.nfd, h.changed, h.connects,
      h.handler, h.globalHandler, h.closes, h.writes, h.polls⟩
  linked d hd := by rwa [Finset.mem_singleton.mp hd]
  alive d hd := by rwa [Finset.mem_singleton.mp hd]
  established d := by
    change ((p.dying c).cnx d).established = true ↔ _
    rw [cnx_dying, Finset.mem_singleton]
    split_ifs with hd
    · simp [hd]
    · simp [hd]
  timer d hd := by
    change ((p.dying c).cnx d).timer = true at hd
    rw [cnx_dying] at hd
    rw [Finset.mem_singleton]
    split_ifs at hd with hdc
    · exact .inr hdc
    · exact .inl hd
  orList i := by
    change (p.dying c).orList[i]? = _
    rw [orList_dying, List.getElem?_modify, Finset.filter_singleton]
    split_ifs with hi
    · rfl
    · simp
  fds := by
    change (p.dying c).fds.erase _ = _
    rw [fds_dying, Finset.image_singleton, Finset.sdiff_singleton_eq_erase]

end Pool

/-- Whatever pool a callback is run on, it only kills connections among `S`. -/
def OnlyKills (S : Set ℕ) (notify : Pool → Pool) : Prop :=
  ∀ p : Pool, p.ClosesFinal → ∃ K : Finset ℕ, (∀ d ∈ K, d ∈ S) ∧ Pool.Dies K p (notify p)

namespace Pool

variable {S : Set ℕ} {notify : Pool → Pool} {p : Pool} {c : ℕ}

/-- A connection that dies takes with it those that the callback for its death kills. -/
theorem dies_notify (hn : OnlyKills S notify) (hp : p.ClosesFinal) (hc : c ∈ p.cnxs)
    (he : (p.cnx c).established = true) :
    ∃ K : Finset ℕ, (∀ d ∈ K, d = c ∨ d ∈ S) ∧ c ∈ K ∧ Dies K p { notify (p.dying c) with
      fds := (notify (p.dying c)).fds.erase ((notify (p.dying c)).cnx c).fd } := by
  obtain ⟨K, hK, h⟩ := hn (p.dying c) ((frame_dying p c).closesFinal hp)
  have hfd : ((notify (p.dying c)).cnx c).fd = (p.cnx c).fd :=
    (h.fd c).trans ((frame_dying p c).fd c)
  refine ⟨{c} ∪ K, fun d hd => ?_, by simp, ?_⟩
  · rw [Finset.mem_union, Finset.mem_singleton] at hd
    exact hd.imp_right (hK d)
  · rw [hfd]
    exact (dies_dying hc he).trans (h.erase _)

theorem dies_setStateDeadWith (hn : OnlyKills S notify) (hp : p.ClosesFinal) (hc : c ∈ p.cnxs)
    (he : (p.cnx c).established = true) :
    ∃ K : Finset ℕ, (∀ d ∈ K, d = c ∨ d ∈ S) ∧ c ∈ K ∧
      Dies K p (setStateDeadWith notify c p) := by
  have hframe : Frame p { p with env := { p.env with closes := p.env.closes.tail } } :=
    ⟨fun _ => rfl, fun _ => rfl, fun _ => rfl, rfl, rfl, rfl, rfl, rfl, rfl, rfl,
      fun _ h => List.mem_of_mem_tail h, fun _ _ h => h, fun _ _ h => h⟩
  have hempty := Dies.of_frame hframe (fun _ => rfl) (fun _ => rfl) rfl rfl
  have hfinal : closes (p.env.closes.headD (.ok ())) = true := by
    cases hcl : p.env.closes with
    | nil => rfl
    | cons r rs => exact hp r (by rw [hcl]; exact List.mem_cons_self)
  obtain ⟨K, hK, hcK, hdies⟩ := dies_notify hn (hframe.closesFinal hp)
    (by rw [hempty.cnxs]; exact hc) he
  have hstate := hempty.trans hdies
  rw [Finset.empty_union] at hstate
  refine ⟨K, hK, hcK, ?_⟩
  simp only [setStateDeadWith, preludeConnectionClose, he, not_true_eq_false, if_false, hfinal,
    if_true]
  exact hstate

theorem dies_setConnectionDeadWith (hn : OnlyKills S notify) (hp : p.ClosesFinal) (c : ℕ) :
    ∃ K : Finset ℕ, (∀ d ∈ K, d = c ∨ d ∈ S) ∧
      Dies K p (setConnectionDeadWith notify c p).2 := by
  unfold setConnectionDeadWith
  by_cases hc : c ∈ p.cnxs
  · by_cases he : (p.cnx c).established = true
    · obtain ⟨K, hK, -, hdies⟩ := dies_notify hn hp hc he
      refine ⟨K, hK, ?_⟩
      have hclosed : preludeConnectionClose c
          (p.modifyCnx c fun x => { x with established := false }) =
          (.error .generic, p.modifyCnx c fun x => { x with established := false }) := by
        simp [preludeConnectionClose, modifyCnx]
      simp only [hc, not_true_eq_false, if_false, he, setStateDeadWith, hclosed]
      exact hdies
    · rw [if_neg (not_not.mpr hc), if_pos he]
      exact ⟨∅, nofun, .refl p⟩
  · rw [if_pos hc]
    exact ⟨∅, nofun, .refl p⟩

end Pool

/-- The connections that a callback tries to kill. -/
def Reaction.kills : Reaction → Set ℕ
  | .done => ∅
  | .kill c nested rest => {d | d = c ∨ d ∈ nested.kills ∨ d ∈ rest.kills}

theorem onlyKills_react (r : Reaction) : OnlyKills r.kills (react r) := by
  induction r with
  | done => exact fun p _ => ⟨∅, nofun, .refl p⟩
  | kill c nested rest ihn ihr =>
    intro p hp
    obtain ⟨K, hK, h₁⟩ := Pool.dies_setConnectionDeadWith ihn hp c
    obtain ⟨L, hL, h₂⟩ := ihr _ (h₁.closesFinal hp)
    refine ⟨K ∪ L, fun d hd => ?_, h₁.trans h₂⟩
    rcases Finset.mem_union.mp hd with hd | hd
    · exact (hK d hd).imp_right .inl
    · exact .inr (.inr (hL d hd))

namespace Pool

variable {p : Pool} {c : ℕ}

theorem dies_tick (p : Pool) : Dies ∅ p p.tick :=
  .of_frame ⟨fun _ => rfl, fun _ => rfl, fun _ => rfl, rfl, rfl, rfl, rfl, rfl, rfl, rfl,
    fun _ h => h, fun _ _ h => h, fun _ _ h => h⟩ (fun _ => rfl) (fun _ => rfl) rfl rfl

/-- The connections that the callbacks for an event of a connection try to kill. -/
def Spares (p : Pool) (ev : Event) (c : ℕ) : Prop :=
  ∀ k, c ∉ (p.env.handler k ev c).2.kills ∧ c ∉ (p.env.globalHandler k ev c).kills

theorem dies_react (hp : p.ClosesFinal) (r : Reaction) :
    ∃ K : Finset ℕ, (∀ d ∈ K, d ∈ r.kills) ∧ Dies K p (react r p.tick) := by
  obtain ⟨K, hK, h⟩ := onlyKills_react r p.tick ((dies_tick p).closesFinal hp)
  have := (dies_tick p).trans h
  rw [Finset.empty_union] at this
  exact ⟨K, hK, this⟩

theorem dies_eventHandler (hp : p.ClosesFinal) (ev : Event) (c : ℕ) :
    ∃ K, Dies K p (eventHandler ev c p).2 ∧ (p.Spares ev c → c ∉ K) := by
  obtain ⟨K, hK, h⟩ := dies_react hp (p.env.handler p.ticks ev c).2
  exact ⟨K, h, fun hs hc => (hs _).1 (hK c hc)⟩

theorem dies_notifyEvent (hp : p.ClosesFinal) (ev : Event) (c : ℕ) (g : Bool) :
    ∃ K, Dies K p (notifyEvent ev c g p) ∧ (p.Spares ev c → c ∉ K) := by
  obtain ⟨K, h₁, hK⟩ := dies_eventHandler hp ev c
  unfold notifyEvent
  split_ifs
  · obtain ⟨L, hL, h₂⟩ := dies_react (h₁.closesFinal hp)
      ((eventHandler ev c p).2.env.globalHandler (eventHandler ev c p).2.ticks ev c)
    refine ⟨K ∪ L, h₁.trans h₂, fun hs hc => ?_⟩
    rcases Finset.mem_union.mp hc with hc | hc
    · exact hK hs hc
    · rw [h₁.globalHandler] at hL
      exact (hs _).2 (hL c hc)
  · exact ⟨K, h₁, hK⟩

theorem onlyKills_notifyEvent (ev : Event) (c : ℕ) (g : Bool) :
    OnlyKills Set.univ (notifyEvent ev c g) := by
  intro p hp
  obtain ⟨K, h, -⟩ := dies_notifyEvent hp ev c g
  exact ⟨K, fun _ _ => trivial, h⟩

theorem dies_setStateDead (hp : p.ClosesFinal) (hc : c ∈ p.cnxs)
    (he : (p.cnx c).established = true) (g : Bool) :
    ∃ K, c ∈ K ∧ Dies K p (setStateDead c g p) := by
  obtain ⟨K, -, hcK, h⟩ := dies_setStateDeadWith (onlyKills_notifyEvent .dead c g) hp hc he
  exact ⟨K, hcK, h⟩

theorem Dies.empty_trans {p q r : Pool} (h₁ : Dies ∅ p q) (h₂ : Dies ∅ q r) : Dies ∅ p r := by
  have := h₁.trans h₂
  rwa [Finset.empty_union] at this

end Pool

end LibPrelude
