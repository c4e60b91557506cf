import LibPrelude.Pool.Sends

/-! # Connecting

An attempt to connect changes one connection: it becomes established, with a
descriptor that no other established connection has, or it stays as it was but for
the number of its descriptor.
-/

namespace LibPrelude

namespace Pool

/-- What an attempt to connect `c`, and the steps that follow it, leave alone. -/
structure Keeps (p p' : Pool) : Prop where
  cnxs : p'.cnxs = p.cnxs
  next : p'.next = p.next
  initialized : p'.initialized = p.initialized
  changed : p'.connectionStringChanged = p.connectionStringChanged
  parent : ∀ d, (p'.cnx d).parent = (p.cnx d).parent
  handler : p'.env.handler = p.env.handler
  globalHandler : p'.env.globalHandler = p.env.globalHandler
  closes : ∀ r ∈ p'.env.closes, r ∈ p.env.closes
  writes : ∀ d, ∀ r ∈ p'.env.writes d, r ∈ p.env.writes d
  polls : ∀ d, ∀ r ∈ p'.env.polls d, r ∈ p.env.polls d

theorem Keeps.refl (p : Pool) : Keeps p p :=
  ⟨rfl, rfl, rfl, rfl, fun _ => rfl, rfl, rfl, fun _ h => h, fun _ _ h => h, fun _ _ h => h⟩

theorem Keeps.trans {p q r : Pool} (h₁ : Keeps p q) (h₂ : Keeps q r) : Keeps p r where
  cnxs := h₂.cnxs.trans h₁.cnxs
  next := h₂.next.trans h₁.next
  initialized := h₂.initialized.trans h₁.initialized
  changed := h₂.changed.trans h₁.changed
  parent d := (h₂.parent d).trans (h₁.parent d)
  handler := h₂.handler.trans h₁.handler
  globalHandler := h₂.globalHandler.trans h₁.globalHandler
  closes r hr := h₁.closes r (h₂.closes r hr)
  writes d r hr := h₁.writes d r (h₂.writes d r hr)
  polls d r hr := h₁.polls d r (h₂.polls d r hr)

theorem Frame.keeps {p p' : Pool} (h : Frame p p') (hc : p'.cnxs = p.cnxs) : Keeps p p' :=
  ⟨hc, h.next, h.initialized, h.changed, h.parent, h.handler, h.globalHandler, h.closes, h.writes,
    h.polls⟩

theorem Dies.keeps {K : Finset ℕ} {p p' : Pool} (h : Dies K p p') : Keeps p p' :=
  h.toFrame.keeps h.cnxs

/-- Connections close when they are told to, and no callback declares the connection dead whose
`alive` or `input` event it handles. -/
structure Quiet (p : Pool) : Prop where
  closes : p.ClosesFinal
  alive : ∀ c, p.Spares .alive c
  input : ∀ c, p.Spares .input c

theorem Keeps.quiet {p p' : Pool} (h : Keeps p p') (hq : p.Quiet) : p'.Quiet where
  closes r hr := hq.closes r (h.closes r hr)
  alive c := by
    unfold Spares
    rw [h.handler, h.globalHandler]
    exact hq.alive c
  input c := by
    unfold Spares
    rw [h.handler, h.globalHandler]
    exact hq.input c

/-- The pool after `c` was connected, or not, and nothing else happened. -/
structure Attempted (c : ℕ) (p p' : Pool) : Prop extends Keeps p p' where
  orList : p'.orList = p.orList
  fds : p'.fds = p.fds
  nfd : p'.nfd = p.nfd
  timer : ∀ d, (p'.cnx d).timer = (p.cnx d).timer
  established : ∀ d, d ≠ c → (p'.cnx d).established = (p.cnx d).established
  fd : ∀ d, d ≠ c → (p'.cnx d).fd = (p.cnx d).fd

variable {p : Pool} {c : ℕ}

/-- The next attempt to connect. -/
def nextConnect (p : Pool) : Connect := p.env.connects.headD (.refused .generic none)

theorem attempted_modifyCnx (p : Pool) (c : ℕ) (connects : List Connect) (e : Bool) (fd : ℕ) :
    Attempted c p ({ p with env := { p.env with connects } }.modifyCnx c fun x =>
      { x with established := e, fd }) := by
  have hcnx (d : ℕ) (hd : d ≠ c) : ({ p with env := { p.env with connects } }.modifyCnx c
      fun x => { x with established := e, fd }).cnx d = p.cnx d :=
    Function.update_of_ne hd _ _
  refine ⟨⟨rfl, rfl, rfl, rfl, fun d => ?_, rfl, rfl, fun _ h => h, fun _ _ h => h,
    fun _ _ h => h⟩, rfl, rfl, rfl, fun d => ?_, fun d hd => by rw [hcnx d hd],
    fun d hd => by rw [hcnx d hd]⟩
  all_goals
    by_cases hd : d = c
    · subst hd
      simp [modifyCnx]
    · rw [hcnx d hd]

theorem newFd_notMem (p : Pool) (fd : ℕ) : p.newFd fd ∉ p.openFds := by
  unfold newFd
  split_ifs with h
  · intro hmem
    have hle := Finset.le_sup (f := id) hmem
    simp only [id_eq] at hle
    omega
  · exact h

theorem closeConnectionFdBlock_closed (he : (p.cnx c).established = false) :
    closeConnectionFdBlock c p = p := by
  simp [closeConnectionFdBlock, he]

/-- A refused attempt leaves a connection that was not established as it was. -/
theorem preludeConnectionConnect_refused {e : ErrorCode} {fd : Option ℕ}
    (he : (p.cnx c).established = false) (hn : p.nextConnect = .refused e fd) :
    ∃ p', preludeConnectionConnect c p = (.error e, p') ∧ Attempted c p p' ∧
      (p'.cnx c).established = false ∧ (p'.cnx c).fd = fd.getD (p.cnx c).fd := by
  unfold nextConnect at hn
  simp only [preludeConnectionConnect, closeConnectionFdBlock_closed he, hn]
  have hsame : (fun x : Cnx => { x with fd := fd.getD x.fd }) (p.cnx c) =
      (fun x : Cnx => { x with established := false, fd := fd.getD (p.cnx c).fd }) (p.cnx c) := by
    rw [← he]
  refine ⟨_, rfl, ?_, ?_, ?_⟩
  · have hattempt := attempted_modifyCnx p c p.env.connects.tail false (fd.getD (p.cnx c).fd)
    unfold modifyCnx at hattempt ⊢
    rw [hsame]
    exact hattempt
  · simp [modifyCnx, he]
  · simp [modifyCnx]

theorem preludeConnectionConnect_established {fd : ℕ}
    (he : (p.cnx c).established = false) (hn : p.nextConnect = .established fd) :
    ∃ p', preludeConnectionConnect c p = (.ok (), p') ∧ Attempted c p p' ∧
      (p'.cnx c).established = true ∧ (p'.cnx c).fd ∉ p.openFds := by
  unfold nextConnect at hn
  simp only [preludeConnectionConnect, closeConnectionFdBlock_closed he, hn]
  refine ⟨_, rfl, attempted_modifyCnx p c p.env.connects.tail true _, ?_, ?_⟩
  · simp [modifyCnx]
  · simp only [modifyCnx, Function.update_self]
    exact newFd_notMem { p with env := { p.env with connects := p.env.connects.tail } } fd

end Pool

end LibPrelude
