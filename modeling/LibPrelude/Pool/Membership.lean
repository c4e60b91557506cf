import LibPrelude.Pool.Attempts

/-! # Which connections a pool links

The lists of a pool change only when a connection is added and when they are built
from the connection string. Every other call leaves them as they are, whatever the
environment answers, so in every run each connection is linked once, in its parent,
and each list counts its connections.
-/

namespace LibPrelude

/-- The connections of a list, and the number that it has for them. -/
def CnxList.members (l : CnxList) : List ℕ × ℕ := (l.and, l.total)

namespace Pool

/-- The same connections are linked in the same lists. -/
structure SameLists (p p' : Pool) : Prop where
  lists : ∀ i : ℕ, p'.orList[i]?.map CnxList.members = p.orList[i]?.map CnxList.members
  parent : ∀ c, (p'.cnx c).parent = (p.cnx c).parent
  next : p'.next = p.next
  initialized : p'.initialized = p.initialized

variable {p q r : Pool} {c : ℕ}

theorem SameLists.refl (p : Pool) : SameLists p p := ⟨fun _ => rfl, fun _ => rfl, rfl, rfl⟩

theorem SameLists.trans (h₁ : SameLists p q) (h₂ : SameLists q r) : SameLists p r where
  lists i := (h₂.lists i).trans (h₁.lists i)
  parent c := (h₂.parent c).trans (h₁.parent c)
  next := h₂.next.trans h₁.next
  initialized := h₂.initialized.trans h₁.initialized

theorem Dies.sameLists {K : Finset ℕ} (h : Dies K p q) : SameLists p q where
  lists i := by
    rw [h.orList, Option.map_map]
    rfl
  parent := h.parent
  next := h.next
  initialized := h.initialized

theorem Attempted.sameLists (h : Attempted c p q) : SameLists p q where
  lists i := by rw [h.orList]
  parent := h.parent
  next := h.next
  initialized := h.initialized

theorem SameLists.cnxs (h : SameLists p q) : q.cnxs = p.cnxs := by
  apply cnxs_eq
  intro i
  have := congrArg (Option.map Prod.fst) (h.lists i)
  rwa [Option.map_map, Option.map_map] at this

/-- A connection is linked once, in its parent, and each list has the number of its connections. -/
structure Tidy (p : Pool) : Prop extends Linked p where
  total : ∀ (i : ℕ) l, p.orList[i]? = some l → l.total = l.and.length

theorem SameLists.exists_list (h : SameLists p q) {i : ℕ} {l : CnxList}
    (hl : q.orList[i]? = some l) :
    ∃ l', p.orList[i]? = some l' ∧ l'.and = l.and ∧ l'.total = l.total := by
  have hi := h.lists i
  rw [hl, Option.map_some, eq_comm, Option.map_eq_some_iff] at hi
  obtain ⟨l', hl', hm⟩ := hi
  exact ⟨l', hl', congrArg Prod.fst hm, congrArg Prod.snd hm⟩

theorem SameLists.tidy (h : SameLists p q) (hp : p.Tidy) : q.Tidy where
  nodup := h.cnxs ▸ hp.nodup
  parent i l hl c hc := by
    obtain ⟨l', hl', hand, -⟩ := h.exists_list hl
    rw [h.parent]
    exact hp.parent i l' hl' c (hand ▸ hc)
  lt_next c hc := by
    rw [h.next]
    exact hp.lt_next c (h.cnxs ▸ hc)
  total i l hl := by
    obtain ⟨l', hl', hand, htotal⟩ := h.exists_list hl
    rw [← hand, ← htotal]
    exact hp.total i l' hl'

theorem sameLists_modifyCnx (p : Pool) (c : ℕ) {f : Cnx → Cnx}
    (hf : (f (p.cnx c)).parent = (p.cnx c).parent) : SameLists p (p.modifyCnx c f) where
  lists _ := rfl
  parent d := by
    by_cases hd : d = c
    · subst hd
      simpa [modifyCnx] using hf
    · simp [modifyCnx, hd]
  next := rfl
  initialized := rfl

theorem sameLists_modifyParent (p : Pool) (c : ℕ) {f : CnxList → CnxList}
    (hf : ∀ l, (f l).members = l.members) : SameLists p (p.modifyParent c f) where
  lists i := by
    change (p.orList.modify _ _)[i]?.map _ = _
    rw [List.getElem?_modify]
    cases p.orList[i]? with
    | none => rfl
    | some l =>
      split_ifs
      · exact congrArg some (hf l)
      · rfl
  parent _ := rfl
  next := rfl
  initialized := rfl

theorem SameLists.of_eq (hl : q.orList = p.orList) (hc : q.cnx = p.cnx) (hn : q.next = p.next)
    (hi : q.initialized = p.initialized) : SameLists p q :=
  ⟨fun _ => by rw [hl], fun _ => by rw [hc], hn, hi⟩

/-! ## Deaths -/

theorem sameLists_close (c : ℕ) (p : Pool) : SameLists p (preludeConnectionClose c p).2 := by
  unfold preludeConnectionClose
  split
  · exact .refl p
  · have h : SameLists p { p with env := { p.env with closes := p.env.closes.tail } } :=
      .of_eq rfl rfl rfl rfl
    dsimp only
    split
    · exact h.trans (sameLists_modifyCnx _ c rfl)
    · exact h

theorem sameLists_closeBlock (c : ℕ) (p : Pool) : SameLists p (closeConnectionFdBlock c p) := by
  unfold closeConnectionFdBlock
  split
  · exact .refl p
  · have h : SameLists p { p with env := { p.env with
        closes := (p.env.closes.dropWhile fun ret => ¬ closes ret).tail } } :=
      .of_eq rfl rfl rfl rfl
    exact h.trans (sameLists_modifyCnx _ c rfl)

theorem sameLists_initCnxTimer (c : ℕ) (p : Pool) : SameLists p (initCnxTimer c p) := by
  unfold initCnxTimer
  split_ifs
  · exact sameLists_modifyCnx p c rfl
  · exact .refl p

variable {notify : Pool → Pool}

theorem sameLists_setStateDeadWith (hn : ∀ q, SameLists q (notify q)) (c : ℕ) (p : Pool) :
    SameLists p (setStateDeadWith notify c p) := by
  have h := ((sameLists_close c p).trans (sameLists_modifyParent _ c
    (f := fun l => { l with dead := l.dead + 1 }) fun _ => rfl)).trans (sameLists_initCnxTimer c _)
  exact (h.trans (hn _)).trans (.of_eq rfl rfl rfl rfl)

theorem sameLists_setConnectionDeadWith (hn : ∀ q, SameLists q (notify q)) (c : ℕ) (p : Pool) :
    SameLists p (setConnectionDeadWith notify c p).2 := by
  unfold setConnectionDeadWith
  split
  · exact .refl p
  split
  · exact .refl p
  · exact (sameLists_modifyCnx p c rfl).trans (sameLists_setStateDeadWith hn c _)

theorem sameLists_react (r : Reaction) (p : Pool) : SameLists p (react r p) := by
  induction r generalizing p with
  | done => exact .refl p
  | kill c nested rest ihn ihr => exact (sameLists_setConnectionDeadWith ihn c p).trans (ihr _)

theorem sameLists_tick (p : Pool) : SameLists p p.tick := .of_eq rfl rfl rfl rfl

theorem sameLists_eventHandler (ev : Event) (c : ℕ) (p : Pool) :
    SameLists p (eventHandler ev c p).2 :=
  (sameLists_tick p).trans (sameLists_react _ _)

theorem sameLists_notifyEvent (ev : Event) (c : ℕ) (g : Bool) (p : Pool) :
    SameLists p (notifyEvent ev c g p) := by
  unfold notifyEvent
  have h := sameLists_eventHandler ev c p
  dsimp only
  split_ifs
  · exact (h.trans (sameLists_tick _)).trans (sameLists_react _ _)
  · exact h

theorem sameLists_setStateDead (c : ℕ) (g : Bool) (p : Pool) :
    SameLists p (setStateDead c g p) :=
  sameLists_setStateDeadWith (sameLists_notifyEvent .dead c g) c p

/-! ## Sends and flushes -/

theorem sameLists_saveToPool {m m' : Msg} (h : saveToPool m p = some (m', q)) :
    SameLists p q := by
  simp only [saveToPool, Option.map_eq_some_iff, Prod.mk.injEq] at h
  obtain ⟨⟨store, m₁, p₁⟩, hsave, -, rfl⟩ := h
  exact (dies_failoverSaveMsg hsave).sameLists.trans (.of_eq rfl rfl rfl rfl)

theorem sameLists_broadcastMessage {cs : List ℕ} {m m' : Msg}
    (h : broadcastMessage cs m p = some (m', q)) : SameLists p q := by
  induction cs generalizing m p with
  | nil =>
    simp only [broadcastMessage, Option.some.injEq, Prod.mk.injEq] at h
    obtain ⟨-, rfl⟩ := h
    exact .refl p
  | cons c cs ih =>
    simp only [broadcastMessage] at h
    split_ifs at h
    · simp only [Option.bind_eq_some_iff] at h
      obtain ⟨⟨ret, m₁, p₁⟩, hsend, h⟩ := h
      have h₁ := (dies_doSend hsend).1.sameLists
      cases ret with
      | ok => exact h₁.trans (ih h)
      | error e =>
        simp only [Option.bind_eq_some_iff] at h
        obtain ⟨⟨m₂, p₂⟩, hsave, h⟩ := h
        have h₂ := (h₁.trans (sameLists_setStateDead c true p₁)).trans
          (dies_saveToCnx hsave).sameLists
        exact h₂.trans (ih h)
    · simp only [Option.bind_eq_some_iff] at h
      obtain ⟨⟨m₁, p₁⟩, hsave, h⟩ := h
      exact (dies_saveToCnx hsave).sameLists.trans (ih h)

theorem sameLists_broadcast {m : Msg} (h : preludeConnectionPoolBroadcast m p = some q) :
    SameLists p q := by
  simp only [preludeConnectionPoolBroadcast, walkManagerLists, Option.map_eq_some_iff] at h
  obtain ⟨⟨m', q⟩, h, rfl⟩ := h
  split at h
  · exact sameLists_broadcastMessage h
  · exact sameLists_saveToPool h

theorem sameLists_flushMsg {m : Msg} {target : Target} {ret : Ret}
    (h : flushMsg m p target = some (ret, q)) : SameLists p q := by
  cases target with
  | one c =>
    simp only [flushMsg, Option.bind_eq_some_iff] at h
    obtain ⟨⟨ret₁, m₁, p₁⟩, hsend, h⟩ := h
    have h₁ := (dies_doSend hsend).1.sameLists
    cases ret₁ with
    | ok =>
      simp only [Option.some.injEq, Prod.mk.injEq] at h
      obtain ⟨-, rfl⟩ := h
      exact h₁
    | error e =>
      simp only [Option.map_eq_some_iff, Prod.mk.injEq] at h
      obtain ⟨⟨m₂, p₂⟩, hsave, -, rfl⟩ := h
      exact (h₁.trans (sameLists_setStateDead c true p₁)).trans (dies_saveToCnx hsave).sameLists
  | any i =>
    simp only [flushMsg, Option.map_eq_some_iff, Prod.mk.injEq] at h
    obtain ⟨⟨m₁, p₁⟩, hb, -, rfl⟩ := h
    exact sameLists_broadcastMessage hb

theorem sameLists_failoverFlushLoop {target : Target} {fuel : ℕ} {ret : Ret}
    (h : failoverFlushLoop target fuel p = some (ret, q)) : SameLists p q := by
  induction fuel generalizing p with
  | zero => cases h
  | succ fuel ih =>
    rw [failoverFlushLoop] at h
    split at h
    · simp only [Option.some.injEq, Prod.mk.injEq] at h
      exact h.2 ▸ .refl p
    · next f hf =>
      simp only [Option.bind_eq_some_iff] at h
      obtain ⟨⟨size, msg, f'⟩, -, h⟩ := h
      have hset (f' : Failover) := (dies_setStore p f' target).sameLists
      split at h
      · split_ifs at h
        · simp only [Option.some.injEq, Prod.mk.injEq] at h
          exact h.2 ▸ hset _
        simp only [Option.bind_eq_some_iff] at h
        obtain ⟨⟨ret₁, p₁⟩, hmsg, h⟩ := h
        have h₁ := (hset _).trans (sameLists_flushMsg hmsg)
        cases ret₁ with
        | ok => exact h₁.trans (ih h)
        | error e =>
          simp only [Option.some.injEq, Prod.mk.injEq] at h
          exact h.2 ▸ h₁
      · simp only [Option.some.injEq, Prod.mk.injEq] at h
        exact h.2 ▸ hset _

theorem sameLists_failoverFlush {target : Target} {ret : Ret}
    (h : failoverFlush target p = some (ret, q)) : SameLists p q := by
  unfold failoverFlush at h
  split at h
  · simp only [Option.some.injEq, Prod.mk.injEq] at h
    exact h.2 ▸ .refl p
  · split_ifs at h
    · simp only [Option.some.injEq, Prod.mk.injEq] at h
      exact h.2 ▸ .refl p
    · exact sameLists_failoverFlushLoop h

theorem sameLists_revived (p : Pool) (c : ℕ) : SameLists p (p.revived c) :=
  (sameLists_modifyCnx p c rfl).trans (sameLists_modifyParent _ c fun _ => rfl)

theorem sameLists_setStateAlive {g : Bool} {ret : Ret} (h : setStateAlive c g p = some (ret, q)) :
    SameLists p q := by
  have hr := (sameLists_revived p c).trans (sameLists_notifyEvent .alive c g (p.revived c))
  simp only [setStateAlive, Option.bind_eq_some_iff] at h
  obtain ⟨⟨ret₁, p₁⟩, hflush, h⟩ := h
  have h₁ := hr.trans (sameLists_failoverFlush hflush)
  cases ret₁ with
  | error e =>
    simp only [Option.some.injEq, Prod.mk.injEq] at h
    exact h.2 ▸ h₁
  | ok =>
    simp only [Option.map_eq_some_iff] at h
    obtain ⟨⟨ret₂, p₂⟩, hflush₂, h⟩ := h
    have h₂ : SameLists p p₂ := by
      split_ifs at hflush₂
      · exact h₁.trans (sameLists_failoverFlush hflush₂)
      · simp only [Option.some.injEq, Prod.mk.injEq] at hflush₂
        exact hflush₂.2 ▸ h₁
    cases ret₂ with
    | error e =>
      simp only [Prod.mk.injEq] at h
      exact h.2 ▸ h₂
    | ok =>
      simp only [Prod.mk.injEq] at h
      rw [← h.2]
      exact h₂.trans (.of_eq rfl rfl rfl rfl)

/-! ## Connecting -/

theorem sameLists_connect (c : ℕ) (p : Pool) : SameLists p (preludeConnectionConnect c p).2 := by
  have h := sameLists_closeBlock c p
  have h' : SameLists p { closeConnectionFdBlock c p with env := { (closeConnectionFdBlock c p).env
      with connects := (closeConnectionFdBlock c p).env.connects.tail } } :=
    h.trans (.of_eq rfl rfl rfl rfl)
  cases hn : (closeConnectionFdBlock c p).env.connects.headD (.refused .generic none) with
  | refused e fd =>
    simp only [preludeConnectionConnect, hn]
    exact h'.trans (sameLists_modifyCnx _ c rfl)
  | established fd =>
    simp only [preludeConnectionConnect, hn]
    exact h'.trans (sameLists_modifyCnx _ c rfl)

/-- An attempt to connect, and the change of state that follows it. -/
inductive Tries (c : ℕ) (g : Bool) (p q : Pool) : Prop
  | refused (e : ErrorCode) (p₁ : Pool) :
      preludeConnectionConnect c p = (.error e, p₁) → q = setStateDead c g p₁ → Tries c g p q
  | established (p₁ : Pool) (ret : Ret) :
      preludeConnectionConnect c p = (.ok (), p₁) → setStateAlive c g p₁ = some (ret, q) →
        Tries c g p q

theorem Tries.sameLists {g : Bool} (h : Tries c g p q) : SameLists p q := by
  have hconnect := sameLists_connect c p
  cases h with
  | refused e p₁ hp hq =>
    rw [hp] at hconnect
    exact hq ▸ hconnect.trans (sameLists_setStateDead c g p₁)
  | established p₁ ret hp halive =>
    rw [hp] at hconnect
    exact hconnect.trans (sameLists_setStateAlive halive)

theorem initConnection_cases {ret : Ret} {tried : Bool}
    (h : initConnection c p = some (ret, tried, q)) :
    ((p.cnx c).established = true ∧ q = p ∧ ret = .ok ()) ∨
    ((p.cnx c).established = false ∧ ret = .error .profile ∧
      preludeConnectionConnect c p = (.error .profile, q)) ∨
    ((p.cnx c).established = false ∧ ret = .ok () ∧ Tries c false p q ∧
      (preludeConnectionConnect c p).1 ≠ .error .profile) := by
  unfold initConnection at h
  split at h
  · next he =>
    simp only [Option.some.injEq, Prod.mk.injEq] at h
    exact .inl ⟨he, h.2.2.symm, h.1.symm⟩
  next he =>
  rw [Bool.not_eq_true] at he
  split at h
  · next e p₁ hp =>
    split at h
    · next hprofile =>
      subst hprofile
      simp only [Option.some.injEq, Prod.mk.injEq] at h
      exact .inr (.inl ⟨he, h.1.symm, h.2.2 ▸ hp⟩)
    · next hprofile =>
      simp only [Option.some.injEq, Prod.mk.injEq] at h
      refine .inr (.inr ⟨he, h.1.symm, .refused e p₁ hp h.2.2.symm, ?_⟩)
      rw [hp]
      exact fun h => hprofile (Except.error.inj h)
  · next p₁ hp =>
    simp only [Option.map_eq_some_iff, Prod.mk.injEq] at h
    obtain ⟨⟨ret₁, p₂⟩, halive, hret, -, rfl⟩ := h
    refine .inr (.inr ⟨he, hret.symm, .established p₁ ret₁ hp halive, ?_⟩)
    rw [hp]
    rintro ⟨⟩

theorem sameLists_initConnection {ret : Ret} {tried : Bool}
    (h : initConnection c p = some (ret, tried, q)) : SameLists p q := by
  have hconnect := sameLists_connect c p
  obtain ⟨-, rfl, -⟩ | ⟨-, -, hp⟩ | ⟨-, -, ht, -⟩ := initConnection_cases h
  · exact .refl q
  · rwa [hp] at hconnect
  · exact ht.sameLists

theorem sameLists_initConnections {cs : List ℕ} {ret : Ret} {tried : Bool}
    (h : initConnections cs p = some (ret, tried, q)) : SameLists p q := by
  induction cs generalizing p ret tried with
  | nil =>
    simp only [initConnections, Option.some.injEq, Prod.mk.injEq] at h
    exact h.2.2 ▸ .refl p
  | cons c cs ih =>
    simp only [initConnections, Option.bind_eq_some_iff] at h
    obtain ⟨⟨ret₁, tried₁, p₁⟩, hc, h⟩ := h
    have h₁ := sameLists_initConnection hc
    cases ret₁ with
    | error e =>
      simp only [Option.some.injEq, Prod.mk.injEq] at h
      exact h.2.2 ▸ h₁
    | ok =>
      simp only [Option.map_eq_some_iff, Prod.mk.injEq] at h
      obtain ⟨⟨ret₂, tried₂, p₂⟩, hcs, -, -, rfl⟩ := h
      exact h₁.trans (ih hcs)

/-! ## New connections -/

def link (p : Pool) (i : ℕ) (established : Bool) (fd : ℕ) (store : Option Failover) : Pool :=
  { p with
    orList := p.orList.modify i fun l => { l with and := l.and ++ [p.next], total := l.total + 1 }
    cnx := Function.update p.cnx p.next
      ⟨established, fd, i, false, initialExpirationTime, store, [], false⟩
    next := p.next + 1 }

theorem newConnection_cases (i : ℕ) (established : Bool) (fd : ℕ) (p : Pool) : ∃ stores,
    (∃ e, newConnection i established fd p =
      (.error e, { p with env := { p.env with stores } })) ∨
    ∃ store, newConnection i established fd p =
      (.ok (), { p with env := { p.env with stores } }.link i established fd store) := by
  unfold newConnection
  dsimp only
  split_ifs
  · refine ⟨p.env.stores.tail, ?_⟩
    split
    · next e _ => exact .inl ⟨e, rfl⟩
    · next f _ => exact .inr ⟨some f, rfl⟩
  · exact ⟨p.env.stores, .inr ⟨none, rfl⟩⟩

theorem cnxs_link (established : Bool) (fd : ℕ) (store : Option Failover) {i : ℕ}
    (hi : i < p.orList.length) : (p.link i established fd store).cnxs.Perm (p.next :: p.cnxs) := by
  obtain ⟨l₁, l, l₂, hl, -, hm⟩ := List.exists_of_modify
    (fun l : CnxList => { l with and := l.and ++ [p.next], total := l.total + 1 }) hi
  change ((p.orList.modify _ _).flatMap CnxList.and).Perm (p.next :: p.orList.flatMap CnxList.and)
  rw [hm, hl]
  simp only [List.flatMap_append, List.flatMap_cons, ← List.append_assoc]
  rw [List.append_assoc _ [p.next], List.singleton_append]
  exact List.perm_middle

theorem Tidy.link (hp : p.Tidy) (established : Bool) (fd : ℕ) (store : Option Failover) {i : ℕ}
    (hi : i < p.orList.length) : (p.link i established fd store).Tidy := by
  have hperm := cnxs_link established fd store hi
  have hnew : p.next ∉ p.cnxs := fun h => Nat.lt_irrefl _ (hp.lt_next _ h)
  have hlist {j : ℕ} {l : CnxList} (hl : (p.link i established fd store).orList[j]? = some l) :
      ∃ l', p.orList[j]? = some l' ∧ (i = j ∧ l.and = l'.and ++ [p.next] ∧ l.total = l'.total + 1 ∨
        i ≠ j ∧ l = l') := by
    change (p.orList.modify _ _)[j]? = _ at hl
    rw [List.getElem?_modify, Option.map_eq_map, Option.map_eq_some_iff] at hl
    obtain ⟨l', hl', rfl⟩ := hl
    refine ⟨l', hl', ?_⟩
    split_ifs with hij
    · exact .inl ⟨hij, rfl, rfl⟩
    · exact .inr ⟨hij, rfl⟩
  refine ⟨⟨?_, fun j l hl c hc => ?_, fun c hc => ?_⟩, fun j l hl => ?_⟩
  · exact hperm.nodup_iff.mpr (List.nodup_cons.mpr ⟨hnew, hp.nodup⟩)
  · change (Function.update p.cnx p.next _ c).parent = j
    obtain ⟨l', hl', hor⟩ := hlist hl
    by_cases hcn : c = p.next
    · rw [hcn, Function.update_self]
      rcases hor with ⟨hij, -⟩ | ⟨-, rfl⟩
      · exact hij
      · exact absurd (mem_cnxs_of_getElem? hl' (hcn ▸ hc)) hnew
    · rw [Function.update_of_ne hcn]
      refine hp.parent j l' hl' c ?_
      rcases hor with ⟨-, hand, -⟩ | ⟨-, rfl⟩
      · rw [hand, List.mem_append, List.mem_singleton] at hc
        exact hc.resolve_right hcn
      · exact hc
  · rcases List.mem_cons.mp (hperm.mem_iff.mp hc) with rfl | hc
    · exact Nat.lt_succ_self _
    · exact Nat.lt_succ_of_lt (hp.lt_next c hc)
  · obtain ⟨l', hl', ⟨-, hand, htotal⟩ | ⟨-, rfl⟩⟩ := hlist hl
    · rw [hand, htotal, hp.total j l' hl', List.length_append, List.length_singleton]
    · exact hp.total j l hl'

theorem sameLists_stores (p : Pool) (stores : List (Except ErrorCode Failover)) :
    SameLists p { p with env := { p.env with stores } } := .of_eq rfl rfl rfl rfl

theorem tidy_newConnection (hp : p.Tidy) (established : Bool) (fd : ℕ) {i : ℕ}
    (hi : i < p.orList.length) : (newConnection i established fd p).2.Tidy := by
  obtain ⟨stores, ⟨e, h⟩ | ⟨store, h⟩⟩ := newConnection_cases i established fd p
  · rw [h]
    exact (sameLists_stores p stores).tidy hp
  · rw [h]
    exact ((sameLists_stores p stores).tidy hp).link established fd store hi

theorem length_newConnection (i : ℕ) (established : Bool) (fd : ℕ) (p : Pool) :
    (newConnection i established fd p).2.orList.length = p.orList.length := by
  obtain ⟨stores, ⟨e, h⟩ | ⟨store, h⟩⟩ := newConnection_cases i established fd p
  · rw [h]
  · rw [h]
    exact List.length_modify ..

theorem initialized_newConnection (i : ℕ) (established : Bool) (fd : ℕ) (p : Pool) :
    (newConnection i established fd p).2.initialized = p.initialized := by
  obtain ⟨stores, ⟨e, h⟩ | ⟨store, h⟩⟩ := newConnection_cases i established fd p
  · rw [h]
  · rw [h]
    rfl

theorem newConnection_linked {i : ℕ} {established : Bool} {fd : ℕ} (hi : i < p.orList.length)
    (h : newConnection i established fd p = (.ok (), q)) : p.next ∈ q.cnxs ∧
      (q.cnx p.next).established = established ∧ q.env.closes = p.env.closes := by
  obtain ⟨stores, ⟨e, hn⟩ | ⟨store, hn⟩⟩ := newConnection_cases i established fd p
  · rw [hn] at h
    cases h
  · rw [hn] at h
    cases h
    refine ⟨?_, by simp [link], rfl⟩
    exact (cnxs_link (p := { p with env := { p.env with stores } }) established fd store
      hi).mem_iff.mpr List.mem_cons_self

theorem Tidy.createConnectionList (hp : p.Tidy) : (createConnectionList p).Tidy := by
  have hcnxs : (LibPrelude.createConnectionList p).cnxs = p.cnxs := by
    simp [LibPrelude.createConnectionList, cnxs]
  have hlist {i : ℕ} {l : CnxList}
      (hl : (LibPrelude.createConnectionList p).orList[i]? = some l) :
      p.orList[i]? = some l ∨ l = ⟨[], 0, 0⟩ := by
    change (p.orList ++ [⟨[], 0, 0⟩])[i]? = some l at hl
    rw [List.getElem?_append] at hl
    split_ifs at hl
    · exact .inl hl
    · exact .inr (List.mem_singleton.mp (List.mem_of_getElem? hl))
  refine ⟨⟨hcnxs ▸ hp.nodup, fun i l hl c hc => ?_, fun c hc => hp.lt_next c (hcnxs ▸ hc)⟩,
    fun i l hl => ?_⟩
  · rcases hlist hl with hl | rfl
    · exact hp.parent i l hl c hc
    · exact absurd hc List.not_mem_nil
  · rcases hlist hl with hl | rfl
    · exact hp.total i l hl
    · rfl

theorem tidy_newConnectionFromAddress (hp : p.Tidy) (addr : List Char) {i : ℕ}
    (hi : i < p.orList.length) : (newConnectionFromAddress i addr p).2.Tidy ∧
      (newConnectionFromAddress i addr p).2.orList.length = p.orList.length ∧
      (newConnectionFromAddress i addr p).2.initialized = p.initialized := by
  unfold newConnectionFromAddress
  split
  · exact ⟨hp, rfl, rfl⟩
  · exact ⟨tidy_newConnection hp false 0 hi, length_newConnection i false 0 p,
      initialized_newConnection i false 0 p⟩

theorem tidy_parseConfigWords (fuel : ℕ) (line : Option (List Char)) (hp : p.Tidy)
    (hne : p.orList ≠ []) : (parseConfigWords fuel line p).2.Tidy ∧
      (parseConfigWords fuel line p).2.initialized = p.initialized := by
  induction fuel generalizing line p with
  | zero => exact ⟨hp, rfl⟩
  | succ fuel ih =>
    rw [parseConfigWords]
    split
    · exact ⟨hp, rfl⟩
    · next word line _ =>
      have hlast : p.orList.length - 1 < p.orList.length := by
        have := List.length_pos_iff.mpr hne
        omega
      obtain ⟨htidy, hlen, hinit⟩ := tidy_newConnectionFromAddress hp word hlast
      split_ifs
      · exact ih line hp.createConnectionList (by simp [LibPrelude.createConnectionList])
      · exact ih line hp hne
      · split
        · next e q h =>
          rw [h] at htidy hinit
          exact ⟨htidy, hinit⟩
        · next q h =>
          rw [h] at htidy hlen hinit
          have hq : q.orList ≠ [] := by
            rw [← List.length_pos_iff, hlen]
            exact List.length_pos_iff.mpr hne
          obtain ⟨h₁, h₂⟩ := ih line htidy hq
          exact ⟨h₁, h₂.trans hinit⟩

/-! ## Operations -/

theorem sameLists_destroyConnectionSingle (c : ℕ) (p : Pool) :
    SameLists p (destroyConnectionSingle c p) :=
  (sameLists_closeBlock c p).trans (sameLists_modifyCnx _ c rfl)

theorem sameLists_connectionListDestroy (p : Pool) : SameLists p (connectionListDestroy p) := by
  unfold connectionListDestroy
  generalize p.cnxs = cs
  induction cs generalizing p with
  | nil => exact .refl p
  | cons c cs ih => exact (sameLists_destroyConnectionSingle c p).trans (ih _)

theorem sameLists_initFailover (p : Pool) : SameLists p (initFailover p).2 := by
  unfold initFailover
  dsimp only
  split_ifs
  · split
    · exact .of_eq rfl rfl rfl rfl
    · exact .of_eq rfl rfl rfl rfl
  · exact .refl p

theorem tidy_of_nil (h : p.orList = []) : p.Tidy := by
  have hcnxs : p.cnxs = [] := by rw [cnxs, h, List.flatMap_nil]
  refine ⟨⟨hcnxs ▸ List.nodup_nil, fun i l hl => ?_, fun c hc => ?_⟩, fun i l hl => ?_⟩
  · simp [h] at hl
  · simp [hcnxs] at hc
  · simp [h] at hl

theorem tidy_initLists (hp : p.Tidy) :
    (initLists p).2.Tidy ∧ (initLists p).2.initialized = p.initialized := by
  unfold initLists
  split_ifs
  · exact ⟨hp, rfl⟩
  · refine (tidy_parseConfigWords _ _ (tidy_of_nil rfl).createConnectionList
      (by simp [LibPrelude.createConnectionList])).imp_right fun h => h.trans ?_
    exact (sameLists_connectionListDestroy { p with connectionStringChanged := false }).initialized
  · exact ⟨hp, rfl⟩

theorem tidy_preludeConnectionPoolInit {ret : Ret} (hp : p.Tidy)
    (h : preludeConnectionPoolInit p = some (ret, q)) : q.Tidy := by
  have h₁ := (sameLists_initFailover p).tidy hp
  unfold preludeConnectionPoolInit at h
  split at h
  · next e p₁ hf =>
    simp only [Option.some.injEq, Prod.mk.injEq] at h
    rw [hf] at h₁
    exact h.2 ▸ h₁
  · next p₁ hf =>
    rw [hf] at h₁
    have h₂ := (tidy_initLists h₁).1
    split at h
    · next e p₂ hl =>
      simp only [Option.some.injEq, Prod.mk.injEq] at h
      rw [hl] at h₂
      exact h.2 ▸ h₂
    · next p₂ hl =>
      rw [hl] at h₂
      simp only [Option.map_eq_some_iff] at h
      obtain ⟨⟨ret₃, tried, p₃⟩, hc, h⟩ := h
      have h₃ := (sameLists_initConnections hc).tidy h₂
      cases ret₃ with
      | error e =>
        simp only [Prod.mk.injEq] at h
        exact h.2 ▸ h₃
      | ok =>
        simp only [Prod.mk.injEq] at h
        rw [← h.2]
        have h₄ : (if tried then react (p₃.env.poolHandler p₃.ticks) p₃.tick else p₃).Tidy := by
          split_ifs
          · exact ((sameLists_tick p₃).trans (sameLists_react _ _)).tidy h₃
          · exact h₃
        exact ⟨⟨h₄.nodup, h₄.parent, h₄.lt_next⟩, h₄.total⟩

theorem sameLists_checkConnectionEvent (c : ℕ) (p : Pool) :
    SameLists p (checkConnectionEvent c p) := by
  have h := sameLists_eventHandler .input c p
  unfold checkConnectionEvent
  dsimp only
  split_ifs
  · exact h.trans (sameLists_setStateDead c false _)
  · exact h

theorem sameLists_checkConnections (rfds : Finset ℕ) (cs : List ℕ) (p : Pool) :
    SameLists p (checkConnections rfds cs p).2 := by
  induction cs generalizing p with
  | nil => exact .refl p
  | cons c cs ih =>
    rw [checkConnections]
    split_ifs
    · exact (sameLists_checkConnectionEvent c p).trans (ih _)
    · exact ih p

theorem sameLists_connectionPoolCheckEvent (ready : Finset ℕ) (p : Pool) :
    SameLists p (connectionPoolCheckEvent ready p) := by
  have h := sameLists_checkConnections (ready ∩ p.fds) p.cnxs p
  unfold connectionPoolCheckEvent
  dsimp only
  split_ifs
  · exact (h.trans (sameLists_tick _)).trans (sameLists_react _ _)
  · exact h

theorem sameLists_connectionTimerExpire (h : connectionTimerExpire c p = some q) :
    SameLists p q := by
  have hconnect := sameLists_connect c p
  unfold connectionTimerExpire at h
  split at h
  · next p₁ hp =>
    rw [hp] at hconnect
    simp only [Option.map_eq_some_iff] at h
    obtain ⟨⟨ret, p₂⟩, halive, rfl⟩ := h
    exact hconnect.trans (sameLists_setStateAlive halive)
  · next e p₁ hp =>
    rw [hp] at hconnect
    simp only [Option.some.injEq] at h
    exact h ▸ hconnect.trans (sameLists_modifyCnx p₁ c rfl)

theorem sameLists_reestablish (p : Pool) (c : ℕ) (fd : Option ℕ) :
    SameLists p (p.reestablish c fd) := by
  cases fd with
  | none => exact .refl p
  | some fd =>
    exact sameLists_modifyCnx p c
      (f := fun x => { x with established := true, fd := p.newFd fd }) rfl

theorem sameLists_setConnectionAlive {ret : Ret}
    (h : preludeConnectionPoolSetConnectionAlive c p = some (ret, q)) : SameLists p q := by
  unfold preludeConnectionPoolSetConnectionAlive at h
  split at h
  · simp only [Option.some.injEq, Prod.mk.injEq] at h
    exact h.2 ▸ .refl p
  split at h
  · simp only [Option.some.injEq, Prod.mk.injEq] at h
    exact h.2 ▸ .refl p
  · exact sameLists_setStateAlive h

def withList (p : Pool) : Pool := if p.orList = [] then createConnectionList p else p

theorem tidy_withList (hp : p.Tidy) : p.withList.Tidy := by
  unfold withList
  split_ifs
  · exact hp.createConnectionList
  · exact hp

theorem withList_kept (p : Pool) : p.withList.next = p.next ∧ p.withList.env = p.env ∧
    p.withList.initialized = p.initialized := by
  unfold withList
  split_ifs <;> exact ⟨rfl, rfl, rfl⟩

theorem withList_pos (p : Pool) : 0 < p.withList.orList.length := by
  unfold withList
  split_ifs with h
  · simp [createConnectionList]
  · exact List.length_pos_iff.mpr h

/-- A new connection is connected if the pool is initialised, and the pool's store flushed. -/
theorem addConnection_cases {established : Bool} {fd : ℕ} {ret : Ret}
    (h : preludeConnectionPoolAddConnection established fd p = some (ret, q)) :
    (∃ e, newConnection 0 established fd p.withList = (.error e, q)) ∨
    ∃ q₁ q₂, newConnection 0 established fd p.withList = (.ok (), q₁) ∧
      (if q₁.initialized = true ∧ established = false then Tries p.withList.next true q₁ q₂
        else q₂ = q₁) ∧
      (q = q₂ ∨ (q₂.listAt 0).dead = 0 ∧ failoverFlush (.any 0) q₂ = some (ret, q)) := by
  have hw : (if p.orList = [] then createConnectionList p else p) = p.withList := rfl
  simp only [preludeConnectionPoolAddConnection, hw, Bool.not_eq_true] at h
  split at h
  · next e q₁ hn =>
    simp only [Option.some.injEq, Prod.mk.injEq] at h
    exact .inl ⟨e, h.2 ▸ hn⟩
  next q₁ hn =>
  simp only [Option.bind_eq_some_iff] at h
  obtain ⟨⟨ret₂, q₂⟩, hconnect, h⟩ := h
  refine .inr ⟨q₁, q₂, hn, ?_, ?_⟩
  · split_ifs at hconnect ⊢ with hc
    · split at hconnect
      · next e p₁ hp =>
        simp only [Option.some.injEq, Prod.mk.injEq] at hconnect
        exact .refused e p₁ hp hconnect.2.symm
      · next p₁ hp =>
        simp only [Option.map_eq_some_iff, Prod.mk.injEq] at hconnect
        obtain ⟨⟨ret₁, p₂⟩, halive, -, rfl⟩ := hconnect
        exact .established p₁ ret₁ hp halive
    · simp only [Option.some.injEq, Prod.mk.injEq] at hconnect
      exact hconnect.2.symm
  · split_ifs at h with hf
    · exact .inr ⟨hf.1, h⟩
    · simp only [Option.some.injEq, Prod.mk.injEq] at h
      exact .inl h.2.symm

theorem tidy_preludeConnectionPoolAddConnection {established : Bool} {fd : ℕ} {ret : Ret}
    (hp : p.Tidy) (h : preludeConnectionPoolAddConnection established fd p = some (ret, q)) :
    q.Tidy := by
  have hnew := tidy_newConnection (tidy_withList hp) established fd p.withList_pos
  obtain ⟨e, hn⟩ | ⟨q₁, q₂, hn, hc, hf⟩ := addConnection_cases h
  · rwa [hn] at hnew
  · rw [hn] at hnew
    have h₂ : q₂.Tidy := by
      split_ifs at hc
      · exact hc.sameLists.tidy hnew
      · exact hc ▸ hnew
    rcases hf with rfl | ⟨-, hf⟩
    · exact h₂
    · exact (sameLists_failoverFlush hf).tidy h₂

theorem initialized_addConnection {established : Bool} {fd : ℕ} {ret : Ret}
    (h : preludeConnectionPoolAddConnection established fd p = some (ret, q)) :
    q.initialized = p.initialized := by
  have hnew := initialized_newConnection 0 established fd p.withList
  rw [p.withList_kept.2.2] at hnew
  obtain ⟨e, hn⟩ | ⟨q₁, q₂, hn, hc, hf⟩ := addConnection_cases h
  · rwa [hn] at hnew
  · rw [hn] at hnew
    have h₂ : q₂.initialized = p.initialized := by
      split_ifs at hc
      · exact hc.sameLists.initialized.trans hnew
      · exact hc ▸ hnew
    rcases hf with rfl | ⟨-, hf⟩
    · exact h₂
    · exact (sameLists_failoverFlush hf).initialized.trans h₂

theorem Tidy.apply {op : PoolOp} (hp : p.Tidy) (h : p.apply op = some q) : q.Tidy := by
  cases op with
  | add established fd =>
    simp only [Pool.apply, Option.map_eq_some_iff] at h
    obtain ⟨⟨ret, q'⟩, h, rfl⟩ := h
    exact tidy_preludeConnectionPoolAddConnection hp h
  | del c =>
    simp only [Pool.apply, Option.some.injEq] at h
    subst h
    unfold preludeConnectionPoolDelConnection
    split
    · exact hp
    · exact (sameLists_destroyConnectionSingle c p).tidy hp
  | dead c =>
    simp only [Pool.apply, Option.some.injEq] at h
    subst h
    exact (sameLists_setConnectionDeadWith (sameLists_notifyEvent .dead c false) c p).tidy hp
  | alive c fd =>
    simp only [Pool.apply, Option.map_eq_some_iff] at h
    obtain ⟨⟨ret, q'⟩, h, rfl⟩ := h
    exact ((sameLists_reestablish p c fd).trans (sameLists_setConnectionAlive h)).tidy hp
  | broadcast m => exact (sameLists_broadcast h).tidy hp
  | timer c =>
    simp only [Pool.apply] at h
    split_ifs at h
    exact (sameLists_connectionTimerExpire h).tidy hp
  | check ready =>
    simp only [Pool.apply, Option.some.injEq] at h
    exact h ▸ (sameLists_connectionPoolCheckEvent ready p).tidy hp
  | string s =>
    simp only [Pool.apply, Option.some.injEq] at h
    subst h
    have hs : SameLists p (preludeConnectionPoolSetConnectionString s p) :=
      .of_eq rfl rfl rfl rfl
    exact hs.tidy hp
  | init =>
    simp only [Pool.apply, Option.map_eq_some_iff] at h
    obtain ⟨⟨ret, q'⟩, h, rfl⟩ := h
    exact tidy_preludeConnectionPoolInit hp h

theorem apply_of_step {env : Env} {op : PoolOp} (h : p.step env op = some q) :
    { p with env }.apply op = some q := by
  unfold step at h
  split_ifs at h
  exact h

theorem Tidy.withEnv (hp : p.Tidy) (env : Env) : { p with env }.Tidy :=
  (SameLists.of_eq rfl rfl rfl rfl : SameLists p { p with env }).tidy hp

/-- In every run each connection is linked once and each list has the number of its connections. -/
theorem Run.tidy {allowed : Pool → PoolOp → Prop} (h : Run allowed p) : p.Tidy := by
  induction h with
  | new flagReconnect flagFailover => exact tidy_of_nil rfl
  | step env op _ _ hstep ih => exact (ih.withEnv env).apply (apply_of_step hstep)

end Pool

end LibPrelude
