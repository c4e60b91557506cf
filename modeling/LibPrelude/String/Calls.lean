import LibPrelude.String.Setters

/-! # Calls keep the world sound

A call that its caller may make, on a string whose buffer no other string refers
to, and that meets none of the defects of the source, ends and keeps the world
sound. It leaves alone every block that its string does not own, except that
clearing a borrowed string stores a NUL at the start of the text.
-/

namespace LibPrelude

variable {m m' : ByteMemory} {s s' t : StringObject} {bytes : List UInt8} {i j b : ℕ}
  {w w' : StringWorld} {p : Ptr} {call : StringCall} {r : StringCallResult}
  {f : ByteMemory → StringObject → Option StringCallResult}

namespace StringObject

/-- A printed text is cut, and the larger buffer that it needs is refused. -/
def PrintCut (m : ByteMemory) (s : StringObject) (text : List UInt8) : Prop :=
  s.printSize - s.index ≤ text.length ∧ 2 ≤ s.printSize - s.index ∧ text.head? ≠ some 0 ∧
    (s.ownData = false → (m.request s.printSize).2 = true) ∧
    ((s.printMemory m).request (s.printGrown text)).2 = false

end StringObject

namespace StringCall

def subject : StringCall → Option ℕ
  | .ref i | .setDupFast i _ _ | .setNodupFast i _ _ | .setRefFast i _ _ | .copyRef _ i
  | .copyDup _ i | .ncat i _ _ | .vprintf i _ | .truncate i _ | .clear i | .getStringReleased i
  | .destroy i => some i
  | _ => none

/-- What the caller owes: live objects, readable texts, and buffers that it may give away. -/
def Used (w : StringWorld) : StringCall → Prop
  | .buffer bytes => bytes.length ≤ w.memory.limit
  | .new => True
  | .newDupFast str len => len < str.length
  | .newNodupFast b len => b ∈ w.caller ∧ w.memory.Readable ⟨b, len⟩
  | .newRefFast p len => w.memory.Readable ⟨p.block, p.offset + len⟩
  | .ref i | .clone i | .vprintf i _ | .truncate i _ | .clear i | .getStringReleased i
  | .destroy i => (w.object i).isSome
  | .setDupFast i str len => (w.object i).isSome ∧ len < str.length
  | .setNodupFast i b len => (w.object i).isSome ∧ b ∈ w.caller ∧ w.memory.Readable ⟨b, len⟩
  | .setRefFast i p len =>
    (w.object i).isSome ∧ w.memory.Readable ⟨p.block, p.offset + len⟩ ∧ ¬w.Owns i p.block
  | .copyRef src dst | .copyDup src dst => (w.object src).isSome ∧ (w.object dst).isSome
  | .ncat i str len =>
    (w.object i).isSome ∧ len ≤ str.length ∧ str.length ≤ addressSpace

/-- No other string refers to a buffer that the call may move, release or overwrite. -/
def Alone (w : StringWorld) : StringCall → Prop
  | .setDupFast i _ _ | .setNodupFast i _ _ | .setRefFast i _ _ | .copyRef _ i | .copyDup _ i
  | .ncat i _ _ | .vprintf i _ | .getStringReleased i => w.Unshared i
  | .destroy i => ∀ s, w.object i = some s → s.refcount ≤ 1 → w.Unshared i
  | _ => True

/-- The call meets none of these defects: an append to a borrowed string with room to spare whose
growth is out of range, a printed text of which a part is stored before the buffer is refused,
the truncation of a borrowed string, and a copy for which there is no memory. -/
def Safe (w : StringWorld) : StringCall → Prop
  | .ncat i _ len => ∀ s, w.object i = some s → s.ownData = false →
    len + 1 < s.size - s.index → s.growth (len + 1) ≠ none
  | .vprintf i text =>
    text.length < intMax ∧ ∀ s, w.object i = some s → ¬s.PrintCut w.memory text
  | .truncate i len => ∀ s, w.object i = some s → s.ownData = false → 0 < len →
    len ≤ s.index → (w.memory.request 0).2 = false
  | .copyDup src dst => ∀ s, src ≠ dst → w.object src = some s → s.size ≠ 0 →
    (w.memory.request s.size).2 = true
  | _ => True

def Clears (call : StringCall) (i : ℕ) : Prop := call = .clear i ∨ call = .truncate i 0

end StringCall

namespace StringWorld

/-- What a call may do to the blocks of memory. -/
def Frame (w : StringWorld) (call : StringCall) (w' : StringWorld) : Prop :=
  ∀ b bytes, w.memory.bytesAt b = some bytes →
    (∃ i, call.subject = some i ∧ w.Owns i b) ∨ w'.memory.bytesAt b = some bytes ∨
      ∃ i s p, call.Clears i ∧ w.object i = some s ∧ s.ownData = false ∧ s.data = some p ∧
        p.block = b ∧ w'.memory.bytesAt b = some (bytes.set p.offset 0)

def Ends (w : StringWorld) (call : StringCall) (run : StringCallRet) : Prop :=
  ∃ w' ret, run = some (w', ret) ∧ w'.Good ∧ w.Frame call w'

theorem Frame.of_bytesAt (h : w'.memory.bytesAt = w.memory.bytesAt) : w.Frame call w' :=
  fun b bytes hb => .inr (.inl (by rw [h, hb]))

theorem on_eq (hs : w.object i = some s) (hf : f w.memory s = some r) :
    w.on i f = some ({ w with memory := r.memory }.setObject i (some r.object), r.ret) := by
  unfold on
  simp only [hs, hf, Option.bind_eq_bind, Option.bind_some, Option.pure_def]

theorem Good.on (hw : w.Good) (hs : w.object i = some s) (hun : w.Unshared i)
    (hf : f w.memory s = some r) (hmoves : s.Moves w.memory r.memory r.object)
    (hwf : r.object.WellFormed r.memory) (hsub : call.subject = some i) :
    w.Ends call (w.on i f) := by
  refine ⟨_, _, on_eq hs hf, hw.moved hs (fun _ _ _ _ => .inl hun) hmoves hwf, ?_⟩
  intro b bytes hb
  rcases hmoves.frame b bytes hb with h | h
  · exact .inl ⟨i, hsub, s, hs, h⟩
  · exact .inr (.inl h)

theorem preludeStringNew_spec (hw : w.Good) (g : StringWorld → ℕ → StringCallRet) :
    ∃ w₁, w₁.Good ∧ w₁.memory.bytesAt = w.memory.bytesAt ∧ w₁.caller = w.caller ∧
      (w.creating g = some (w₁, .error .enomem) ∨
        w.creating g = g w₁ w.strings.length ∧
          w₁.object w.strings.length = some freshString ∧
          ∀ j, j ≠ w.strings.length → w₁.object j = w.object j) := by
  have hnone : w.object w.strings.length = none := by simp [object]
  have hfree : ∀ b, ¬w.Owns w.strings.length b := by simp [Owns, hnone]
  unfold creating preludeStringNew
  rcases hr : w.memory.request stringStructureSize with ⟨m', _ | _⟩
  · have hm : m' = (w.memory.request stringStructureSize).1 := by rw [hr]
    refine ⟨{ w with memory := m' }, ?_, by rw [hm]; rfl, rfl, .inl rfl⟩
    refine hw.replaced hfree (fun _ _ => rfl) ?_ (by rw [hm]; rfl) (by rw [hm]; rfl) rfl
    intro s hs
    rw [object_withMemory, hnone] at hs
    cases hs
  · have hm : m' = (w.memory.request stringStructureSize).1 := by rw [hr]
    have hobj : ∀ j, ({ w with memory := m', strings := w.strings ++ [some freshString] } :
        StringWorld).object j = if j = w.strings.length then some freshString else w.object j := by
      intro j
      unfold object
      split
      · rename_i hj
        simp [hj]
      · rename_i hj
        rcases Nat.lt_or_gt_of_ne hj with hlt | hgt
        · rw [List.getElem?_append_left hlt]
        · rw [List.getElem?_eq_none (by simp; omega), List.getElem?_eq_none (by omega)]
    refine ⟨{ w with memory := m', strings := w.strings ++ [some freshString] }, ?_,
      by rw [hm]; rfl, rfl,
        .inr ⟨rfl, by rw [hobj, if_pos rfl], fun j hj => by rw [hobj, if_neg hj]⟩⟩
    refine hw.replaced hfree (fun j hj => by rw [hobj, if_neg hj]) ?_ (by rw [hm]; rfl)
      (by rw [hm]; rfl) rfl
    intro s hs
    rw [hobj, if_pos rfl, Option.some.injEq] at hs
    subst hs
    exact ⟨rfl, StringObject.wellFormed_null rfl rfl rfl⟩

theorem Good.created (hw : w.Good)
    (hf : ∀ m, m.bytesAt = w.memory.bytesAt → ∃ r, f m freshString = some r ∧
      freshString.Moves m r.memory r.object ∧ r.object.WellFormed r.memory) :
    w.Ends call (w.creating fun w i => w.on i f) := by
  rcases preludeStringNew_spec hw fun w i => w.on i f with
    ⟨w₁, hw₁, hbytes, -, hrun | ⟨hrun, hs, -⟩⟩
  · exact ⟨w₁, _, hrun, hw₁, .of_bytesAt hbytes⟩
  · rcases hf w₁.memory hbytes with ⟨r, hr, hmoves, hwf⟩
    refine ⟨_, _, hrun.trans (on_eq hs hr), hw₁.moved hs ?_ hmoves hwf, ?_⟩
    · intro b bytes ho
      cases ho
    · intro b bytes hb
      rcases hmoves.frame b bytes (hbytes ▸ hb) with h | h
      · cases h
      · exact .inr (.inl h)

theorem Good.emptied (hw : w.Good) (hs : w.object i = some s) (hun : w.Unshared i) :
    ∃ m', w.emptied i = some ({ w with memory := m' }.setObject i (some s.nulled)) ∧
      s.destroyInternal w.memory = some (m', s.nulled) ∧ s.Moves w.memory m' s.nulled ∧
      m'.grants = w.memory.grants ∧
      ({ w with memory := m' }.setObject i (some s.nulled)).Good := by
  rcases StringObject.destroyInternal_spec (hw.wellFormed i s hs) with ⟨m', hm', hmoves, hgr⟩
  refine ⟨m', ?_, hm', hmoves, hgr,
    hw.moved hs (fun _ _ _ _ => .inl hun) hmoves StringObject.nulled_wellFormed⟩
  unfold StringWorld.emptied
  simp only [hs, hm', Option.bind_eq_bind, Option.bind_some, Option.pure_def]

theorem setObject_setObject (w : StringWorld) (i : ℕ) (o o' : Option StringObject) :
    (w.setObject i o).setObject i o' = w.setObject i o' := by
  simp [setObject, List.set_set]

theorem setObject_caller (w : StringWorld) (i : ℕ) (o o' : Option StringObject)
    (blocks : List ℕ) : { w.setObject i o with caller := blocks }.setObject i o' =
      { w.setObject i o' with caller := blocks } := by
  simp [setObject, List.set_set]

/-- A call that stores NULs only, and does not change what its string owns. -/
theorem Good.ended (hw : w.Good) (hs : w.object i = some s)
    (hkeep : ∀ b bytes, w.memory.bytesAt b = some bytes →
      ∃ bytes', m'.bytesAt b = some bytes' ∧ KeepsEnds bytes bytes')
    (hback : ∀ b, w.memory.bytesAt b = none → m'.bytesAt b = none)
    (hl : m'.limit = w.memory.limit) (ho : s'.owned = s.owned) (hwf : s'.WellFormed m') :
    ({ w with memory := m' }.setObject i (some s')).Good := by
  have hobj : ∀ j, ({ w with memory := m' }.setObject i (some s')).object j =
      if j = i then some s' else w.object j :=
    object_setObject (w := { w with memory := m' }) hs (some s')
  have howns : ∀ b, ({ w with memory := m' }.setObject i (some s')).Owns i b ↔ w.Owns i b := by
    intro b
    simp [Owns, hobj, hs, ho]
  have hlive : ∀ b bytes', m'.bytesAt b = some bytes' →
      ∃ bytes, w.memory.bytesAt b = some bytes ∧ bytes'.length = bytes.length := by
    intro b bytes' hb
    rcases hold : w.memory.bytesAt b with _ | bytes
    · simp [hback b hold] at hb
    · rcases hkeep b bytes hold with ⟨bytes'', hb'', hlen, -⟩
      rw [hb, Option.some.injEq] at hb''
      exact ⟨bytes, rfl, hb'' ▸ hlen⟩
  refine hw.step (i := i) ?_ (fun b bytes hb => .inr (hkeep b bytes hb)) ?_ ?_ ?_ ?_ hw.nodup ?_
    (hl ▸ hw.limit)
  · intro j hj
    rw [hobj, if_neg hj]
  · intro t ht
    rw [hobj, if_pos rfl, Option.some.injEq] at ht
    exact ht ▸ hwf
  · intro b bytes hb
    rw [howns]
    by_cases hib : w.Owns i b
    · exact .inl hib
    · by_cases hc : b ∈ w.caller
      · exact .inr (.inl hc)
      · rcases hlive b bytes hb with ⟨old, hold, -⟩
        exact .inr (.inr ⟨hib, hc, old, hold⟩)
  · intro b hb
    exact ⟨hw.apart i b ((howns b).mp hb), .inl ((howns b).mp hb)⟩
  · intro b hb
    rcases hw.caller b hb with ⟨bytes, hbytes⟩
    rcases hkeep b bytes hbytes with ⟨bytes', hb', -⟩
    exact ⟨⟨bytes', hb'⟩, .inl hb⟩
  · intro b bytes hb
    change bytes.length ≤ m'.limit
    rcases hlive b bytes hb with ⟨old, hold, hlen⟩
    rw [hl, hlen]
    exact hw.small b old hold

theorem Good.unmoved (hw : w.Good) (hs : w.object i = some s) (hm : m'.bytesAt = w.memory.bytesAt)
    (hl : m'.limit = w.memory.limit) (ho : s'.owned = s.owned) (hwf : s'.WellFormed w.memory) :
    ({ w with memory := m' }.setObject i (some s')).Good := by
  have hkeep : ∀ b bytes, w.memory.bytesAt b = some bytes →
      ∃ bytes', m'.bytesAt b = some bytes' ∧ KeepsEnds bytes bytes' :=
    fun b bytes hb => ⟨bytes, hm ▸ hb, .refl bytes⟩
  exact hw.ended hs hkeep (fun b hb => hm ▸ hb) hl ho
    (hwf.keep fun b bytes _ hb => hkeep b bytes hb)

theorem ends_newDupFast {str : List UInt8} {len : ℕ} (hw : w.Good) (hlen : len < str.length) :
    w.Ends call (w.newDupFast str len) := by
  have hlast : (Bytes.load str len 1).isSome := by
    rw [Bytes.load_eq_some (by omega)]
    rfl
  unfold newDupFast
  rcases StringObject.stringReturnIfInvalid_cases len hlast with ⟨e, he⟩ | ⟨hok, -⟩
  · rw [he]
    exact ⟨_, _, rfl, hw, .of_bytesAt rfl⟩
  · rw [hok]
    exact hw.created fun m _ =>
      StringObject.dupText_spec (s := freshString) str len rfl rfl rfl (by omega)

theorem Readable.of_bytesAt {p : Ptr} (h : m.Readable p) (hm : m'.bytesAt = m.bytesAt) :
    m'.Readable p := by
  rcases h with ⟨bytes, hb, hlt⟩
  exact ⟨bytes, hm ▸ hb, hlt⟩

theorem load_congr {n : ℕ} (hm : m'.bytesAt p.block = m.bytesAt p.block) :
    m'.load p n = m.load p n := by
  rw [Memory.load, Memory.load, hm]

theorem ends_newRefFast {len : ℕ} (hw : w.Good)
    (hr : w.memory.Readable ⟨p.block, p.offset + len⟩) : w.Ends call (w.newRefFast p len) := by
  unfold newRefFast
  rcases StringObject.stringReturnIfInvalid_cases len hr.load with ⟨e, he⟩ | ⟨hok, hend⟩
  · rw [he]
    exact ⟨_, _, rfl, hw, .of_bytesAt rfl⟩
  · rw [hok]
    refine hw.created fun m hm => ⟨_, rfl, .of_bytesAt rfl rfl rfl rfl, ?_⟩
    exact StringObject.refText_wellFormed (Readable.of_bytesAt hr hm)
      ((load_congr (by rw [hm])).trans hend) rfl

/-- A string that owns a block of which the byte at `len` is a NUL. -/
theorem nodupText_wellFormed {len : ℕ} (hr : m.Readable ⟨b, len⟩)
    (hend : m.load ⟨b, len⟩ 1 = some [0]) : (s.nodupText b len).WellFormed m := by
  rcases hr with ⟨bytes, hb, hlt⟩
  refine ⟨⟨_, StringObject.text_of_buffer (p := ⟨b, 0⟩) rfl hb ?_ ?_ ?_⟩, fun q hq => ?_⟩
  · simp only [StringObject.nodupText] at hlt ⊢
    omega
  · exact Nat.lt_succ_self len
  · exact fun _ => rfl
  · cases hq
    simpa [StringObject.nodupText] using hend

theorem ends_newNodupFast {len : ℕ} (hw : w.Good) (hb : b ∈ w.caller)
    (hr : w.memory.Readable ⟨b, len⟩) : w.Ends call (w.newNodupFast b len) := by
  unfold newNodupFast
  rcases StringObject.stringReturnIfInvalid_cases len hr.load with ⟨e, he⟩ | ⟨hok, hend⟩
  · rw [he]
    exact ⟨_, _, rfl, hw, .of_bytesAt rfl⟩
  · rw [hok]
    rcases preludeStringNew_spec hw fun w i => { w with caller := w.caller.erase b }.on i fun m s =>
      some ⟨m, s.nodupText b len, .ok 0⟩ with ⟨w₁, hw₁, hbytes, hc, hrun | ⟨hrun, hs, -⟩⟩
    · exact ⟨w₁, _, hrun, hw₁, .of_bytesAt hbytes⟩
    · refine ⟨_, _, hrun.trans (on_eq (w := { w₁ with caller := w₁.caller.erase b }) hs rfl),
        hw₁.handedOver hs rfl (hc ▸ hb) rfl ?_, .of_bytesAt hbytes⟩
      exact nodupText_wellFormed (Readable.of_bytesAt hr hbytes)
        ((load_congr (by rw [hbytes])).trans hend)

theorem ends_ref (hw : w.Good) (hs : w.object i = some s) :
    w.Ends call (w.preludeStringRef i) :=
  ⟨_, _, on_eq hs rfl, hw.unmoved hs rfl rfl rfl (hw.wellFormed i s hs), .of_bytesAt rfl⟩

theorem Good.dropped (hw : w.Good) (hs : w.object i = some s) (hn : s.owned = none)
    (hm : m'.bytesAt = w.memory.bytesAt) (hl : m'.limit = w.memory.limit) :
    ({ w with memory := m' }.setObject i none).Good := by
  have hobj : ∀ j, ({ w with memory := m' }.setObject i none).object j =
      if j = i then none else w.object j :=
    object_setObject (w := { w with memory := m' }) hs none
  refine hw.replaced (i := i) ?_ (fun j hj => by rw [hobj, if_neg hj]) ?_ hm hl rfl
  · intro b
    simp [Owns, hs, hn]
  · intro t ht
    rw [hobj, if_pos rfl] at ht
    cases ht

theorem ends_destroy (hw : w.Good) (hs : w.object i = some s)
    (hun : s.refcount ≤ 1 → w.Unshared i) (hsub : call.subject = some i) :
    w.Ends call (w.preludeStringDestroy i) := by
  unfold preludeStringDestroy
  by_cases hz : s.refcount - 1 ≠ 0
  · refine ⟨w.setObject i (some { s with refcount := s.refcount - 1 }), .ok 0, ?_,
      hw.unmoved hs rfl rfl rfl (hw.wellFormed i s hs), .of_bytesAt rfl⟩
    simp only [hs, Option.bind_eq_bind, Option.bind_some, if_pos hz, Option.pure_def]
  · rcases hw.emptied hs (hun (by omega)) with ⟨m₁, -, hm₁, hmoves, -, hgood₁⟩
    have hrun : ({ s with refcount := s.refcount - 1 } : StringObject).destroyInternal w.memory =
        some (m₁, { s.nulled with refcount := s.refcount - 1 }) := by
      have hfree : s.freeData w.memory = some m₁ := by
        unfold StringObject.destroyInternal at hm₁
        rcases hf : s.freeData w.memory with _ | m₂
        · rw [hf] at hm₁
          cases hm₁
        · rw [hf] at hm₁
          cases hm₁
          rfl
      change (s.freeData w.memory).map _ = _
      rw [hfree]
      rfl
    have hobj : ({ w with memory := m₁ }.setObject i (some s.nulled)).object i = some s.nulled := by
      rw [object_setObject (w := { w with memory := m₁ }) hs, if_pos rfl]
    have hframe : ∀ o, w.Frame call ({ w with memory := m₁ }.setObject i o) := by
      intro o b bytes hb
      rcases hmoves.frame b bytes hb with h | h
      · exact .inl ⟨i, hsub, s, hs, h⟩
      · exact .inr (.inl h)
    refine ⟨_, .ok 0, ?_, ?_, hframe (if s.nulled.ownStructure then none
      else some { s.nulled with refcount := s.refcount - 1 })⟩
    · simp only [hs, Option.bind_eq_bind, Option.bind_some, if_neg hz, hrun, Option.pure_def]
    · rw [← setObject_setObject { w with memory := m₁ } i (some s.nulled)]
      split
      · exact hgood₁.dropped hobj StringObject.nulled_owned rfl rfl
      · exact hgood₁.unmoved hobj rfl rfl rfl (StringObject.wellFormed_null rfl rfl rfl)

theorem ends_clone (hw : w.Good) (hs : w.object i = some s) :
    w.Ends call (w.preludeStringClone i) := by
  unfold preludeStringClone
  simp only [hs, Option.bind_eq_bind, Option.bind_some]
  rcases preludeStringNew_spec hw _ with ⟨w₁, hw₁, hbytes, -, hrun | ⟨hrun, hnew, -⟩⟩
  · exact ⟨w₁, _, hrun, hw₁, .of_bytesAt hbytes⟩
  · rw [hrun]
    have hwf : s.WellFormed w₁.memory :=
      (hw.wellFormed i s hs).keep fun b bytes _ hb => ⟨bytes, hbytes ▸ hb, .refl bytes⟩
    rcases StringObject.duplicate_spec (s := freshString) rfl rfl hwf with
      ⟨r, hr, ⟨hret, hmoves, hwf'⟩ | ⟨hret, -, -, hsame, hlim, hobj⟩⟩
    · rw [on_eq hnew hr]
      simp only [hret, Option.bind_some, Option.pure_def]
      refine ⟨_, _, rfl, hw₁.moved hnew ?_ hmoves hwf', ?_⟩
      · intro b bytes ho
        cases ho
      · intro b bytes hb
        rcases hmoves.frame b bytes (hbytes ▸ hb) with h | h
        · cases h
        · exact .inr (.inl h)
    · rw [on_eq hnew hr]
      simp only [hret, Option.bind_some]
      have hobj' : ({ w₁ with memory := r.memory }.setObject w.strings.length
          (some r.object)).object w.strings.length = some r.object := by
        rw [object_setObject (w := { w₁ with memory := r.memory }) hnew, if_pos rfl]
      have hgood := hw₁.dropped hnew rfl hsame hlim
      have hdestroy : ({ w₁ with memory := r.memory }.setObject w.strings.length
          (some r.object)).preludeStringDestroy w.strings.length =
          some ({ w₁ with memory := r.memory }.setObject w.strings.length none, .ok 0) := by
        rw [← setObject_setObject { w₁ with memory := r.memory } w.strings.length (some r.object)
          none]
        generalize { w₁ with memory := r.memory }.setObject w.strings.length (some r.object) = w₂
          at hobj' ⊢
        unfold preludeStringDestroy
        rw [hobj', hobj]
        rfl
      refine ⟨_, .error .enomem, ?_, hgood, .of_bytesAt (hsame.trans hbytes)⟩
      rw [hdestroy]
      rfl

theorem frame_of_moves (hs : w.object i = some s) (hmoves : s.Moves w.memory m' s')
    (hm : w'.memory.bytesAt = m'.bytesAt) (hsub : call.subject = some i) : w.Frame call w' := by
  intro b bytes hb
  rcases hmoves.frame b bytes hb with h | h
  · exact .inl ⟨i, hsub, s, hs, h⟩
  · exact .inr (.inl (hm ▸ h))

theorem ends_setNodupFast {len : ℕ} (hw : w.Good) (hs : w.object i = some s)
    (hun : w.Unshared i) (hb : b ∈ w.caller) (hr : w.memory.Readable ⟨b, len⟩)
    (hsub : call.subject = some i) : w.Ends call (w.setNodupFast i b len) := by
  unfold setNodupFast StringObject.setNodupFast
  rcases StringObject.stringReturnIfInvalid_cases len hr.load with ⟨e, he⟩ | ⟨hok, hend⟩
  · rw [on_eq (r := ⟨w.memory, s, .error e⟩) hs (by simp only [he]; rfl)]
    exact ⟨_, _, rfl, hw.unmoved hs rfl rfl rfl (hw.wellFormed i s hs), .of_bytesAt rfl⟩
  · rcases hw.emptied hs hun with ⟨m₁, -, hm₁, hmoves, -, hgood⟩
    rw [on_eq (r := ⟨m₁, s.nulled.nodupText b len, .ok 0⟩) hs (by simp only [hok, hm₁]; rfl)]
    have hobj : ({ w with memory := m₁ }.setObject i (some s.nulled)).object i =
        some s.nulled := by
      rw [object_setObject (w := { w with memory := m₁ }) hs, if_pos rfl]
    have hnot : s.owned ≠ some b := fun ho => hw.apart i b ⟨s, hs, ho⟩ hb
    rcases hr with ⟨bytes, hbytes, hlt⟩
    have hb' : m₁.bytesAt b = some bytes := (hmoves.frame b bytes hbytes).resolve_left hnot
    have hwf : (s.nulled.nodupText b len).WellFormed m₁ :=
      nodupText_wellFormed ⟨bytes, hb', hlt⟩
        ((load_congr (p := ⟨b, len⟩) (hb'.trans hbytes.symm)).trans hend)
    have hover := hgood.handedOver hobj StringObject.nulled_owned (b := b) hb (by rfl) hwf
    refine ⟨_, _, rfl, ?_, frame_of_moves hs hmoves rfl hsub⟩
    rwa [setObject_caller] at hover

theorem ends_copyRef (hw : w.Good) (hs : w.object i = some s) (ht : (w.object j).isSome)
    (hun : w.Unshared i) (hsub : call.subject = some i) : w.Ends call (w.copyRef j i) := by
  rcases hw.emptied hs hun with ⟨m₁, hrun, -, hmoves, -, hgood⟩
  have hobj : ∀ k, ({ w with memory := m₁ }.setObject i (some s.nulled)).object k =
      if k = i then some s.nulled else w.object k :=
    object_setObject (w := { w with memory := m₁ }) hs (some s.nulled)
  obtain ⟨t, ht'⟩ : ∃ t, ({ w with memory := m₁ }.setObject i (some s.nulled)).object j =
      some t := by
    rw [hobj]
    split
    · exact ⟨_, rfl⟩
    · exact Option.isSome_iff_exists.mp ht
  have hi : ({ w with memory := m₁ }.setObject i (some s.nulled)).object i = some s.nulled := by
    rw [hobj, if_pos rfl]
  unfold copyRef
  simp only [hrun, ht', Option.bind_eq_bind, Option.bind_some]
  refine ⟨_, _, on_eq hi rfl, hgood.unmoved hi rfl rfl ?_ ?_, frame_of_moves hs hmoves rfl hsub⟩
  · rw [StringObject.nulled_owned]
    exact StringObject.owned_of_borrowed rfl
  · rcases hgood.wellFormed j t ht' with ⟨⟨c, hc⟩, he⟩
    refine ⟨⟨c, ?_⟩, he⟩
    rcases Option.eq_none_or_eq_some t.data with hp | ⟨p, hp⟩
    · rcases hc.nil hp with ⟨rfl, hi, hz⟩
      unfold StringObject.Text
      simp only [hp]
      exact ⟨trivial, hi, hz⟩
    · rcases hc.buffer hp with ⟨bytes, hb, hsize, hlt, rfl, -⟩
      exact StringObject.text_of_buffer (s := { s.nulled with
        size := t.size, index := t.index, data := t.data, ownData := false }) hp hb hsize hlt
        (by simp)

theorem ends_copyDup (hw : w.Good) (hs : w.object i = some s) (ht : (w.object j).isSome)
    (hun : w.Unshared i) (hsub : call.subject = some i)
    (hsafe : ∀ t, j ≠ i → w.object j = some t → t.size ≠ 0 → (w.memory.request t.size).2 = true) :
    w.Ends call (w.copyDup j i) := by
  rcases hw.emptied hs hun with ⟨m₁, hrun, -, hmoves, hgr, hgood⟩
  have hobj : ∀ k, ({ w with memory := m₁ }.setObject i (some s.nulled)).object k =
      if k = i then some s.nulled else w.object k :=
    object_setObject (w := { w with memory := m₁ }) hs (some s.nulled)
  obtain ⟨t, ht'⟩ : ∃ t, ({ w with memory := m₁ }.setObject i (some s.nulled)).object j =
      some t := by
    rw [hobj]
    split
    · exact ⟨_, rfl⟩
    · exact Option.isSome_iff_exists.mp ht
  have hi : ({ w with memory := m₁ }.setObject i (some s.nulled)).object i = some s.nulled := by
    rw [hobj, if_pos rfl]
  unfold copyDup
  simp only [hrun, ht', Option.bind_eq_bind, Option.bind_some]
  rcases StringObject.duplicate_spec (s := s.nulled) StringObject.nulled_owned rfl
    (hgood.wellFormed j t ht') with ⟨r, hr, ⟨hret, hmoves', hwf⟩ | ⟨hret, hz, hreq, -⟩⟩
  · refine ⟨_, _, on_eq hi hr, hgood.moved hi ?_ hmoves' hwf,
      frame_of_moves hs (hmoves.trans hmoves') rfl hsub⟩
    intro b bytes ho
    rw [StringObject.nulled_owned] at ho
    cases ho
  · exfalso
    rw [hobj] at ht'
    split at ht'
    · cases ht'
      exact hz rfl
    · rename_i hji
      have hgranted := hsafe t hji ht' hz
      change (m₁.request t.size).2 = false at hreq
      rw [Memory.request_granted, hgr, hmoves.limit, ← Memory.request_granted, hgranted] at hreq
      cases hreq

theorem ends_truncate {len : ℕ} (hw : w.Good) (hs : w.object i = some s)
    (hsafe : s.ownData = false → 0 < len → len ≤ s.index → (w.memory.request 0).2 = false)
    (hsub : call.subject = some i) (hclear : len = 0 → call.Clears i) :
    w.Ends call (w.on i fun m s => s.truncate m len) := by
  have hwf := hw.wellFormed i s hs
  by_cases hlen : s.index < len
  · rw [on_eq (r := ⟨w.memory, s, .error .assertion⟩) hs (if_pos hlen)]
    exact ⟨_, _, rfl, hw.unmoved hs rfl rfl rfl hwf, .of_bytesAt rfl⟩
  by_cases hcut : len = 0 ∨ s.ownData
  · rcases StringObject.truncate_spec hwf (by omega) hcut with
      ⟨m', hm', hlim, hwf', ⟨-, rfl⟩ | ⟨p, bytes, bytes', hp, hb, hbytes, rfl⟩⟩
    · exact ⟨_, _, on_eq hs hm', hw.unmoved hs rfl rfl rfl hwf', .of_bytesAt rfl⟩
    · refine ⟨_, _, on_eq hs hm', hw.ended hs ?_ ?_ hlim rfl hwf', ?_⟩
      · intro b old hold
        by_cases hbp : b = p.block
        · rw [hbp, hb, Option.some.injEq] at hold
          subst hold
          refine ⟨_, by rw [hbytes, hbp, Function.update_self], List.length_set, fun k hk => ?_⟩
          rw [List.getElem?_set]
          split
          · rename_i hk'
            rw [if_pos (hk' ▸ (List.getElem?_eq_some_iff.mp hk).1)]
          · exact hk
        · exact ⟨old, by rw [hbytes, Function.update_of_ne hbp, hold], .refl old⟩
      · intro b hold
        rw [hbytes, Function.update_of_ne, hold]
        rintro rfl
        simp [hb] at hold
      · intro b old hold
        by_cases hbp : b = p.block
        · rw [hbp, hb, Option.some.injEq] at hold
          subst hold
          by_cases ho : s.ownData
          · exact .inl ⟨i, hsub, s, hs, hbp ▸ StringObject.owned_of_data ho hp⟩
          · have hz : len = 0 := hcut.resolve_right ho
            refine .inr (.inr ⟨i, s, p, hclear hz, hs, by simpa using ho, hp, hbp.symm, ?_⟩)
            change m'.bytesAt b = _
            rw [hbytes, hbp, Function.update_self, hz, Nat.add_zero]
        · exact .inr (.inl ((congrFun hbytes b).trans
            ((Function.update_of_ne hbp _ _).trans hold)))
  · rw [not_or] at hcut
    have hborrowed : s.ownData = false := by simpa using hcut.2
    have hreq := hsafe hborrowed (by omega) (by omega)
    rcases hm : w.memory.malloc 0 with ⟨m', _ | b⟩
    · rcases Memory.malloc_none hm with ⟨hbytes, hlim, -⟩
      have hrun : s.truncate w.memory len = some ⟨m', s, .error .enomem⟩ := by
        unfold StringObject.truncate StringObject.makeStringOwn
        rw [if_neg hlen, if_pos ⟨hcut.1, hborrowed⟩, hm]
        rfl
      exact ⟨_, _, on_eq hs hrun, hw.unmoved hs hbytes hlim rfl hwf, .of_bytesAt hbytes⟩
    · have := (Memory.malloc_some hm).2.2.2.2.2
      simp [hreq] at this

theorem ends_getStringReleased (hw : w.Good) (hs : w.object i = some s) (hun : w.Unshared i)
    (hsub : call.subject = some i) : w.Ends call (w.getStringReleased i) := by
  unfold getStringReleased
  rcases StringObject.getStringReleased_spec (hw.wellFormed i s hs) with ⟨r, out, hr,
    ⟨rfl, hobj, hbytes, hlim⟩ | ⟨b, t, rfl, hto, hmoves, hwf, hcase⟩⟩
  · simp only [hs, hr, Option.bind_eq_bind, Option.bind_some, Option.pure_def]
    refine ⟨_, _, rfl, ?_, .of_bytesAt hbytes⟩
    simp only [Option.toList_none, List.append_nil, hobj]
    exact hw.unmoved hs hbytes hlim rfl (hw.wellFormed i s hs)
  · simp only [hs, hr, Option.bind_eq_bind, Option.bind_some, Option.pure_def]
    refine ⟨_, _, rfl, ?_, frame_of_moves hs hmoves rfl hsub⟩
    have hgood := hw.moved hs (fun _ _ _ _ => .inl hun) hmoves hwf
    have hi : ({ w with memory := r.memory }.setObject i (some t)).object i = some t := by
      rw [object_setObject (w := { w with memory := r.memory }) hs, if_pos rfl]
    have hback : r.object.owned = none ∧ r.object.WellFormed r.memory := by
      rcases hcase with ⟨-, hobj⟩ | ⟨ho, hobj⟩
      · rw [hobj]
        exact ⟨StringObject.nulled_owned, StringObject.nulled_wellFormed⟩
      · rw [hobj]
        refine ⟨StringObject.owned_of_borrowed ho, ?_⟩
        refine (hw.wellFormed i s hs).keep fun b' bytes _ hb' => ⟨bytes, ?_, .refl bytes⟩
        refine (hmoves.frame b' bytes hb').resolve_left ?_
        rw [StringObject.owned_of_borrowed ho]
        simp
    have hover := hgood.handedBack hi hto hback.1 hback.2
    rwa [setObject_caller] at hover

theorem ends_buffer (hw : w.Good) (hlen : bytes.length ≤ w.memory.limit) :
    w.Ends call (some (w.buffer bytes, .ok 0)) := by
  have hnone : w.object w.strings.length = none := by simp [object]
  have hfree : ∀ b, ¬w.Owns w.strings.length b := by simp [Owns, hnone]
  have hbytes : (w.buffer bytes).memory.bytesAt =
      Function.update w.memory.bytesAt w.memory.blocks.length (some bytes) :=
    Memory.bytesAt_addBlock _ _
  have hnew := w.memory.bytesAt_length
  have hold : ∀ b old, w.memory.bytesAt b = some old →
      (w.buffer bytes).memory.bytesAt b = some old := by
    intro b old hb
    rw [hbytes, Function.update_of_ne, hb]
    rintro rfl
    simp [hnew] at hb
  refine ⟨_, _, rfl, ?_, fun b old hb => .inr (.inl (hold b old hb))⟩
  refine hw.step (i := w.strings.length) (fun _ _ => rfl)
    (fun b old hb => .inr ⟨old, hold b old hb, .refl old⟩) ?_ ?_ ?_ ?_ ?_ ?_ hw.limit
  · intro s hs
    rw [show (w.buffer bytes).object = w.object from rfl, hnone] at hs
    cases hs
  · intro b old hb
    right
    by_cases hbl : b = w.memory.blocks.length
    · exact .inl (List.mem_append.mpr (.inr (by simp [hbl])))
    · rw [hbytes, Function.update_of_ne hbl] at hb
      by_cases hc : b ∈ w.caller
      · exact .inl (List.mem_append.mpr (.inl hc))
      · exact .inr ⟨hfree b, hc, old, hb⟩
  · exact fun b hb => absurd hb (hfree b)
  · intro b hb
    rcases List.mem_append.mp hb with hc | hc
    · rcases hw.caller b hc with ⟨old, hold'⟩
      exact ⟨⟨old, hold b old hold'⟩, .inl hc⟩
    · rw [List.mem_singleton.mp hc]
      exact ⟨⟨bytes, by rw [hbytes, Function.update_self]⟩, .inr (.inr hnew)⟩
  · refine List.nodup_append_comm.mp ?_
    have hfresh : w.memory.blocks.length ∉ w.caller := by
      intro hc
      rcases hw.caller _ hc with ⟨old, hold'⟩
      simp [hnew] at hold'
    simpa using ⟨hfresh, hw.nodup⟩
  · intro b old hb
    change old.length ≤ w.memory.limit
    rw [hbytes] at hb
    by_cases hbl : b = w.memory.blocks.length
    · rw [hbl, Function.update_self, Option.some.injEq] at hb
      exact hb ▸ hlen
    · rw [Function.update_of_ne hbl] at hb
      exact hw.small b old hb

end StringWorld

end LibPrelude
