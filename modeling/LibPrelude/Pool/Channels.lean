import LibPrelude.Failover.Queue
import LibPrelude.Pool.Membership

/-! # The channels of a pool

The channel of a connection is what its peer was sent, its store, and the answers that its
descriptor has left to give. The channels and the store of the pool are all of the mail.
Connecting, dying and the callbacks do not touch it: only sends and saves do.
-/

namespace LibPrelude

structure Channel where
  sent : List UInt8
  store : Option Failover
  writes : List (Except ErrorCode ℕ)
  polls : List {r : Ret // r ≠ .error .eagain}

namespace Pool

def channel (p : Pool) (c : ℕ) : Channel :=
  ⟨(p.cnx c).sent, (p.cnx c).failover, p.env.writes c, p.env.polls c⟩

/-- The channels, and the store of the pool. -/
def mail (p : Pool) : (ℕ → Channel) × Option Failover := (p.channel, p.failover)

def mailWith (p : Pool) (c : ℕ) (x : Channel) : (ℕ → Channel) × Option Failover :=
  (Function.update p.channel c x, p.failover)

variable {p q : Pool} {c : ℕ}

theorem mail_modifyCnx (p : Pool) (c : ℕ) {f : Cnx → Cnx} (hs : ∀ x, (f x).sent = x.sent)
    (hf : ∀ x, (f x).failover = x.failover) : (p.modifyCnx c f).mail = p.mail := by
  refine Prod.ext ?_ rfl
  funext d
  change Channel.mk _ _ _ _ = Channel.mk _ _ _ _
  simp only [modifyCnx, Function.update_apply]
  split_ifs with hd
  · subst hd
    rw [hs, hf]
  · rfl

theorem mail_modifyParent (p : Pool) (c : ℕ) (f : CnxList → CnxList) :
    (p.modifyParent c f).mail = p.mail := rfl

/-! ## Deaths -/

theorem mail_close (c : ℕ) (p : Pool) : (preludeConnectionClose c p).2.mail = p.mail := by
  unfold preludeConnectionClose
  split
  · rfl
  · dsimp only
    split_ifs
    · exact mail_modifyCnx _ c (fun _ => rfl) fun _ => rfl
    · rfl

theorem mail_closeBlock (c : ℕ) (p : Pool) : (closeConnectionFdBlock c p).mail = p.mail := by
  unfold closeConnectionFdBlock
  split
  · rfl
  · exact mail_modifyCnx _ c (fun _ => rfl) fun _ => rfl

theorem mail_initCnxTimer (c : ℕ) (p : Pool) : (initCnxTimer c p).mail = p.mail := by
  unfold initCnxTimer
  split_ifs
  · exact mail_modifyCnx p c (fun _ => rfl) fun _ => rfl
  · rfl

variable {notify : Pool → Pool}

theorem mail_setStateDeadWith (hn : ∀ q, (notify q).mail = q.mail) (c : ℕ) (p : Pool) :
    (setStateDeadWith notify c p).mail = p.mail :=
  (hn _).trans ((mail_initCnxTimer c _).trans (mail_close c p))

theorem mail_setConnectionDeadWith (hn : ∀ q, (notify q).mail = q.mail) (c : ℕ) (p : Pool) :
    (setConnectionDeadWith notify c p).2.mail = p.mail := by
  unfold setConnectionDeadWith
  split
  · rfl
  · split
    · rfl
    · exact (mail_setStateDeadWith hn c _).trans
        (mail_modifyCnx p c (fun _ => rfl) fun _ => rfl)

theorem mail_react (r : Reaction) (p : Pool) : (react r p).mail = p.mail := by
  induction r generalizing p with
  | done => rfl
  | kill c nested rest ihn ihr => exact (ihr _).trans (mail_setConnectionDeadWith ihn c p)

theorem mail_eventHandler (ev : Event) (c : ℕ) (p : Pool) : (eventHandler ev c p).2.mail = p.mail :=
  mail_react _ p.tick

theorem mail_notifyEvent (ev : Event) (c : ℕ) (g : Bool) (p : Pool) :
    (notifyEvent ev c g p).mail = p.mail := by
  have h := mail_eventHandler ev c p
  unfold notifyEvent
  dsimp only
  split_ifs
  · exact (mail_react _ _).trans h
  · exact h

theorem mail_setStateDead (c : ℕ) (g : Bool) (p : Pool) : (setStateDead c g p).mail = p.mail :=
  mail_setStateDeadWith (mail_notifyEvent .dead c g) c p

/-! ## Connecting and polling -/

theorem mail_connect (c : ℕ) (p : Pool) : (preludeConnectionConnect c p).2.mail = p.mail := by
  unfold preludeConnectionConnect
  rw [← mail_closeBlock c p]
  dsimp only
  split <;> dsimp only
  · exact mail_modifyCnx _ c (fun _ => rfl) fun _ => rfl
  · exact mail_modifyCnx _ c (fun _ => rfl) fun _ => rfl

theorem mail_checkConnectionEvent (c : ℕ) (p : Pool) :
    (checkConnectionEvent c p).mail = p.mail := by
  have h := mail_eventHandler .input c p
  unfold checkConnectionEvent
  dsimp only
  split_ifs
  · exact (mail_setStateDead c false _).trans h
  · exact h

theorem mail_checkConnections (rfds : Finset ℕ) (cs : List ℕ) (p : Pool) :
    (checkConnections rfds cs p).2.mail = p.mail := by
  induction cs generalizing p with
  | nil => rfl
  | cons c cs ih =>
    rw [checkConnections]
    split_ifs
    · exact (ih _).trans (mail_checkConnectionEvent c p)
    · exact ih p

theorem mail_checkEvent (ready : Finset ℕ) (p : Pool) :
    (connectionPoolCheckEvent ready p).mail = p.mail := by
  have h := mail_checkConnections (ready ∩ p.fds) p.cnxs p
  unfold connectionPoolCheckEvent
  dsimp only
  split_ifs
  · exact (mail_react _ _).trans h
  · exact h

theorem mail_reestablish (p : Pool) (c : ℕ) (fd : Option ℕ) :
    (p.reestablish c fd).mail = p.mail := by
  cases fd with
  | none => rfl
  | some fd =>
    rw [reestablish]
    exact mail_modifyCnx p c (fun _ => rfl) fun _ => rfl

theorem mail_destroy (c : ℕ) (p : Pool) : (destroyConnectionSingle c p).mail = p.mail := by
  rw [← mail_closeBlock c p, destroyConnectionSingle]
  exact mail_modifyCnx _ c (fun _ => rfl) fun _ => rfl

/-- The connection that is revived is not sent anything before its callbacks ran. -/
theorem mail_revived (p : Pool) (c : ℕ) : (p.revived c).mail = p.mail := by
  rw [revived, mail_modifyParent]
  exact mail_modifyCnx p c (fun _ => rfl) fun _ => rfl

/-! ## Sends and saves -/

theorem mail_accept (c : ℕ) (bs : List UInt8) (left : List (Except ErrorCode ℕ)) (p : Pool) :
    (p.accept c bs left).mail =
      p.mailWith c { p.channel c with sent := (p.channel c).sent ++ bs, writes := left } := by
  refine Prod.ext ?_ rfl
  funext d
  by_cases hd : d = c
  · subst hd
    simp [mail, mailWith, channel, accept, modifyCnx]
  · simp [mail, mailWith, channel, accept, modifyCnx, hd]

theorem mail_poll (c : ℕ) (p : Pool) : (isTcpConnectionStillEstablished c p).2.mail =
    p.mailWith c { p.channel c with polls := (p.channel c).polls.tail } := by
  refine Prod.ext ?_ ?_
  · funext d
    unfold isTcpConnectionStillEstablished
    by_cases hd : d = c
    · subst hd
      cases hp : p.env.polls d <;> simp [mail, mailWith, channel, hp]
    · cases hp : p.env.polls c <;> simp [mail, mailWith, channel, hd]
  · unfold isTcpConnectionStillEstablished
    split <;> rfl

theorem mail_setStore (p : Pool) (c : ℕ) (store : Option Failover) :
    (p.modifyCnx c fun x => { x with failover := store }).mail =
      p.mailWith c { p.channel c with store } := by
  refine Prod.ext ?_ rfl
  funext d
  by_cases hd : d = c
  · subst hd
    simp [mail, mailWith, channel, modifyCnx]
  · simp [mail, mailWith, channel, modifyCnx, hd]

theorem mailWith_trans {x y : Channel} {r : Pool} (hq : q.mail = p.mailWith c x)
    (hr : r.mail = q.mailWith c y) : r.mail = p.mailWith c y := by
  have hc : q.channel = _ := congrArg Prod.fst hq
  have hf : q.failover = _ := congrArg Prod.snd hq
  rw [hr, mailWith, hc, hf]
  simp [mailWith]

theorem channel_of_mailWith {x : Channel} (h : q.mail = p.mailWith c x) :
    q.channel c = x ∧ (∀ d, d ≠ c → q.channel d = p.channel d) ∧ q.failover = p.failover := by
  have hc : q.channel = Function.update p.channel c x := congrArg Prod.fst h
  refine ⟨?_, fun d hd => ?_, congrArg Prod.snd h⟩
  · rw [hc, Function.update_self]
  · rw [hc, Function.update_of_ne hd]

theorem channel_eq (h : q.mail = p.mail) : q.channel = p.channel := congrArg Prod.fst h

theorem failover_eq (h : q.mail = p.mail) : q.failover = p.failover := congrArg Prod.snd h

theorem mailWith_congr (h : q.mail = p.mail) (x : Channel) : q.mailWith c x = p.mailWith c x := by
  rw [mailWith, mailWith, channel_eq h, failover_eq h]

end Pool

end LibPrelude
