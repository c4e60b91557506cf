import LibPrelude.String.Runs

/-! # Borrowed memory

The calls made on a string change no byte of the buffer that it borrowed, unless
the string is cleared while it borrows a text that is not empty.
-/

namespace LibPrelude

variable {w w' w₁ : StringWorld} {s : StringObject} {call : StringCall}
  {ret : Except ErrorCode ℕ} {i j b : ℕ} {bytes : List UInt8}
  {f : ByteMemory → StringObject → Option StringCallResult}

/-- The block that a call hands to a string. -/
def StringCall.gives : StringCall → Option ℕ
  | .newNodupFast b _ | .setNodupFast _ b _ => some b
  | _ => none

namespace StringWorld

/-- Only the string `i` changes, and the caller gives nothing away but the block `given`. -/
def OnlyChanges (w : StringWorld) (i : ℕ) (given : Option ℕ) (w' : StringWorld) : Prop :=
  (∀ j, j ≠ i → w'.object j = w.object j) ∧ ∀ b ∈ w.caller, given = some b ∨ b ∈ w'.caller

theorem onlyChanges_setObject {m : ByteMemory} {blocks : List ℕ} (hs : w.object i = some s)
    (o : Option StringObject) (hc : ∀ b ∈ w.caller, b ∈ blocks) :
    w.OnlyChanges i none ({ w with memory := m, caller := blocks }.setObject i o) := by
  refine ⟨fun j hj => ?_, fun b hb => .inr (hc b hb)⟩
  rw [object_setObject (w := { w with memory := m, caller := blocks }) hs, if_neg hj]
  rfl

theorem OnlyChanges.trans (h₁ : w.OnlyChanges i none w₁) (h₂ : w₁.OnlyChanges i none w') :
    w.OnlyChanges i none w' := by
  refine ⟨fun j hj => (h₂.1 j hj).trans (h₁.1 j hj), fun b hb => ?_⟩
  exact h₂.2 b ((h₁.2 b hb).resolve_left (by simp))

theorem on_onlyChanges (h : w.on i f = some (w', ret)) : w.OnlyChanges i none w' := by
  unfold on at h
  rcases hs : w.object i with _ | s
  · simp [hs] at h
  · rcases hf : f w.memory s with _ | r
    · simp [hs, hf] at h
    · simp only [hs, hf, Option.bind_eq_bind, Option.bind_some, Option.pure_def,
        Option.some.injEq, Prod.mk.injEq] at h
      rw [← h.1]
      exact onlyChanges_setObject hs _ fun _ hb => hb

theorem emptied_onlyChanges (h : w.emptied i = some w') : w.OnlyChanges i none w' := by
  unfold emptied at h
  rcases hs : w.object i with _ | s
  · simp [hs] at h
  · rcases hf : s.destroyInternal w.memory with _ | ⟨m, s'⟩
    · simp [hs, hf] at h
    · simp only [hs, hf, Option.bind_eq_bind, Option.bind_some, Option.pure_def,
        Option.some.injEq] at h
      rw [← h]
      exact onlyChanges_setObject hs _ fun _ hb => hb

theorem setNodupFast_onlyChanges {len : ℕ} (h : w.setNodupFast i b len = some (w', ret)) :
    w.OnlyChanges i (some b) w' := by
  unfold setNodupFast at h
  rcases hon : w.on i fun m s => s.setNodupFast m b len with _ | ⟨w₁, e | n⟩
  · simp [hon] at h
  · simp only [hon, Option.bind_eq_bind, Option.bind_some, Option.pure_def, Option.some.injEq,
      Prod.mk.injEq] at h
    have honly := on_onlyChanges hon
    rw [← h.1]
    exact ⟨honly.1, fun b' hb' => .inr ((honly.2 b' hb').resolve_left (by simp))⟩
  · simp only [hon, Option.bind_eq_bind, Option.bind_some, Option.pure_def, Option.some.injEq,
      Prod.mk.injEq] at h
    have honly := on_onlyChanges hon
    rw [← h.1]
    refine ⟨honly.1, fun b' hb' => ?_⟩
    have hmem := (honly.2 b' hb').resolve_left (by simp)
    by_cases hbb : b' = b
    · exact .inl (by rw [hbb])
    · exact .inr ((List.mem_erase_of_ne hbb).mpr hmem)

theorem copy_onlyChanges {g : StringObject → ByteMemory → StringObject → Option StringCallResult}
    (h : (do
      let w ← w.emptied i
      let s ← w.object j
      w.on i (g s)) = some (w', ret)) : w.OnlyChanges i none w' := by
  rcases he : w.emptied i with _ | w₁
  · simp [he] at h
  · rcases ho : w₁.object j with _ | s
    · simp [he, ho] at h
    · simp only [he, ho, Option.bind_eq_bind, Option.bind_some] at h
      exact (emptied_onlyChanges he).trans (on_onlyChanges h)

theorem getStringReleased_onlyChanges (h : w.getStringReleased i = some (w', ret)) :
    w.OnlyChanges i none w' := by
  unfold getStringReleased at h
  rcases hs : w.object i with _ | s
  · simp [hs] at h
  · rcases hr : s.getStringReleased w.memory with _ | ⟨r, out⟩
    · simp [hs, hr] at h
    · simp only [hs, hr, Option.bind_eq_bind, Option.bind_some, Option.pure_def,
        Option.some.injEq, Prod.mk.injEq] at h
      rw [← h.1]
      exact onlyChanges_setObject hs _ fun _ hb => List.mem_append.mpr (.inl hb)

theorem destroy_onlyChanges (h : w.preludeStringDestroy i = some (w', ret)) :
    w.OnlyChanges i none w' := by
  unfold preludeStringDestroy at h
  rcases hs : w.object i with _ | s
  · simp [hs] at h
  · simp only [hs, Option.bind_eq_bind, Option.bind_some, Option.pure_def] at h
    split at h
    · simp only [Option.some.injEq, Prod.mk.injEq] at h
      rw [← h.1]
      exact onlyChanges_setObject hs _ fun _ hb => hb
    · rcases hf : ({ s with refcount := s.refcount - 1 } : StringObject).destroyInternal
        w.memory with _ | ⟨m, s'⟩
      · simp [hf] at h
      · simp only [hf, Option.bind_some, Option.some.injEq, Prod.mk.injEq] at h
        rw [← h.1]
        exact onlyChanges_setObject hs _ fun _ hb => hb

theorem call_onlyChanges (hsub : call.subject = some i) (h : w.call call = some (w', ret)) :
    w.OnlyChanges i call.gives w' := by
  cases call with
  | buffer | new | newDupFast | newNodupFast | newRefFast | clone => cases hsub
  | ref =>
    cases hsub
    unfold StringWorld.call preludeStringRef at h
    exact on_onlyChanges h
  | setDupFast | setRefFast | ncat | vprintf | truncate | clear =>
    cases hsub
    unfold StringWorld.call at h
    exact on_onlyChanges h
  | setNodupFast =>
    cases hsub
    exact setNodupFast_onlyChanges h
  | copyRef | copyDup =>
    cases hsub
    exact copy_onlyChanges h
  | getStringReleased =>
    cases hsub
    exact getStringReleased_onlyChanges h
  | destroy =>
    cases hsub
    exact destroy_onlyChanges h

/-- The call does not clear the string while it borrows a text in the block that is not empty. -/
def SparesFirst (w : StringWorld) (call : StringCall) (i b : ℕ) : Prop :=
  ∀ s p bytes, call.Clears i → w.object i = some s → s.ownData = false → s.data = some p →
    p.block = b → w.memory.bytesAt b = some bytes → bytes[p.offset]? = some 0

/-- Calls on the string `i`, which do not hand the block `b` to it. -/
inductive Operated (i b : ℕ) (w : StringWorld) : StringWorld → Prop
  | nil : Operated i b w w
  | call {w₁ w₂ : StringWorld} {call : StringCall} {ret : Except ErrorCode ℕ} :
      Operated i b w w₁ → call.subject = some i → call.Used w₁ → call.Alone w₁ → call.Safe w₁ →
      call.gives ≠ some b → w₁.SparesFirst call i b → w₁.call call = some (w₂, ret) →
      Operated i b w w₂

theorem set_eq_self {k : ℕ} {x : UInt8} (h : bytes[k]? = some x) : bytes.set k x = bytes := by
  refine List.ext_getElem? fun n => ?_
  rw [List.getElem?_set]
  split
  · rename_i hk
    rw [← hk, h, if_pos (List.getElem?_eq_some_iff.mp h).1]
  · rfl

/-- One call leaves the block as it was, and it stays another's. -/
theorem spared_step (hw : w.Good) (hnot : ¬w.Owns i b) (hb : w.memory.bytesAt b = some bytes)
    (hsub : call.subject = some i) (hu : call.Used w) (ha : call.Alone w) (hs : call.Safe w)
    (hg : call.gives ≠ some b) (hspare : w.SparesFirst call i b)
    (hrun : w.call call = some (w', ret)) :
    w'.Good ∧ ¬w'.Owns i b ∧ w'.memory.bytesAt b = some bytes := by
  rcases hw.ends hu ha hs with ⟨w₁, ret₁, hrun₁, hgood, hframe⟩
  obtain rfl : w₁ = w' := by
    rw [hrun, Option.some.injEq, Prod.mk.injEq] at hrun₁
    exact hrun₁.1.symm
  have honly := call_onlyChanges hsub hrun
  refine ⟨hgood, fun hown => ?_, ?_⟩
  · rcases hw.kept b bytes hb with hc | ⟨j, t, ht, htb⟩
    · exact hgood.apart i b hown ((honly.2 b hc).resolve_left hg)
    · have hj : j ≠ i := by
        rintro rfl
        exact hnot ⟨t, ht, htb⟩
      exact hj (hgood.unique j i b ⟨t, (honly.1 j hj).trans ht, htb⟩ hown)
  · rcases hframe b bytes hb with ⟨k, hk, hown⟩ | h | ⟨k, s, p, hclear, hs', ho, hp, hpb, hset⟩
    · rw [hsub, Option.some.injEq] at hk
      exact absurd (hk ▸ hown) hnot
    · exact h
    · have hk : k = i := by
        rcases hclear with rfl | rfl
        · exact Option.some.inj hsub
        · exact Option.some.inj hsub
      subst hk
      rw [hset, set_eq_self (hspare s p bytes hclear hs' ho hp hpb hb)]

/-- The calls made on a string that borrows the block `b` change no byte of it, as long as the
string is not cleared while it borrows a text there that is not empty. -/
theorem borrowed_unchanged (h : Reached w) (hs : w.object i = some s) (ho : s.ownData = false)
    (hb : s.block = some b) (hrun : Operated i b w w') :
    w'.memory.bytesAt b = w.memory.bytesAt b := by
  rcases (h.good.wellFormed i s hs).live hb with ⟨bytes, hbytes⟩
  have hnot : ¬w.Owns i b := by
    rintro ⟨t, ht, htb⟩
    rw [hs, Option.some.injEq] at ht
    rw [← ht, StringObject.owned_of_borrowed ho] at htb
    cases htb
  have hall : w'.Good ∧ ¬w'.Owns i b ∧ w'.memory.bytesAt b = some bytes := by
    induction hrun with
    | nil => exact ⟨h.good, hnot, hbytes⟩
    | call _ hsub hu ha hsafe hg hspare hcall ih =>
      exact spared_step ih.1 ih.2.1 ih.2.2 hsub hu ha hsafe hg hspare hcall
  rw [hall.2.2, hbytes]

theorem sparesFirst_of_not_clears {call : StringCall} (h : ¬call.Clears i) :
    w.SparesFirst call i b :=
  fun _ _ _ hclears => absurd hclears h

/-- The caller's text, and a string that owns a copy of seven bytes. -/
def ownedText (bytes : List UInt8) (index : ℕ) : StringWorld :=
  ⟨⟨[some [97, 98, 0], some bytes], [], addressSpace, 0⟩,
    [some ⟨true, true, 1, some ⟨1, 0⟩, 7, index⟩], [0]⟩

def borrowedEnd : StringWorld :=
  ⟨⟨[some [97, 98, 0], none], [], addressSpace, 0⟩,
    [some ⟨true, false, 1, some ⟨0, 2⟩, 1, 0⟩], [0]⟩

/-- The text `ab` is appended to and cut; then the string borrows the end of it, and is cleared. -/
theorem borrowed_unchanged_appended : ∃ w₁ w₂ w₃ w₄ : StringWorld,
    borrowedText.call (.ncat 0 [99] 1) = some (w₁, .ok 1) ∧
    w₁.call (.truncate 0 1) = some (w₂, .ok 0) ∧
    w₂.call (.setRefFast 0 ⟨0, 2⟩ 0) = some (w₃, .ok 0) ∧
    w₃.call (.clear 0) = some (w₄, .ok 0) ∧ Operated 0 0 borrowedText w₄ ∧
    w₄.memory.bytesAt 0 = borrowedText.memory.bytesAt 0 := by
  have hused₁ : (StringCall.ncat 0 [99] 1).Used borrowedText := ⟨rfl, by decide, by decide⟩
  have hsafe₁ : (StringCall.ncat 0 [99] 1).Safe borrowedText := by
    intro s hs _ hroom
    obtain rfl := Option.some.inj hs
    exact absurd hroom (by decide)
  have h₁ : Operated 0 0 borrowedText (ownedText [97, 98, 99, 0, 0, 0, 0] 3) :=
    .call .nil rfl hused₁ unshared_single hsafe₁ (by simp [StringCall.gives])
      (sparesFirst_of_not_clears (by simp [StringCall.Clears])) rfl
  have h₂ : Operated 0 0 borrowedText (ownedText [97, 0, 99, 0, 0, 0, 0] 1) := by
    have hused₂ : (StringCall.truncate 0 1).Used (ownedText [97, 98, 99, 0, 0, 0, 0] 3) := rfl
    refine .call h₁ rfl hused₂ trivial ?_ (by simp [StringCall.gives])
      (sparesFirst_of_not_clears (by simp [StringCall.Clears])) rfl
    intro s hs hborrows
    obtain rfl := Option.some.inj hs
    cases hborrows
  have h₃ : Operated 0 0 borrowedText borrowedEnd := by
    have hused₃ : (StringCall.setRefFast 0 ⟨0, 2⟩ 0).Used
        (ownedText [97, 0, 99, 0, 0, 0, 0] 1) := by
      refine ⟨rfl, ⟨[97, 98, 0], rfl, by decide⟩, ?_⟩
      rintro ⟨s, hs, howned⟩
      obtain rfl := Option.some.inj hs
      cases howned
    exact .call h₂ rfl hused₃ unshared_single trivial (by simp [StringCall.gives])
      (sparesFirst_of_not_clears (by simp [StringCall.Clears])) rfl
  have h₄ : Operated 0 0 borrowedText borrowedEnd := by
    have hused₄ : (StringCall.clear 0).Used borrowedEnd := rfl
    refine .call h₃ rfl hused₄ trivial trivial (by simp [StringCall.gives]) ?_ rfl
    -- the byte that is overwritten is the NUL behind the text
    intro s p bytes _ hs _ hp _ hb
    obtain rfl := Option.some.inj hs
    obtain rfl := Option.some.inj hp
    obtain rfl := Option.some.inj hb
    rfl
  exact ⟨_, _, _, _, rfl, rfl, rfl, rfl, h₄,
    borrowed_unchanged reached_borrowedText rfl rfl rfl h₄⟩

/-- Clearing the string stores a NUL over the first byte of the text. -/
theorem borrowed_cleared : Reached borrowedText ∧
    borrowedText.memory.bytesAt 0 = some [97, 98, 0] ∧
    (borrowedText.call (.clear 0)).map (fun r => r.1.memory.bytesAt 0) =
      some (some [0, 98, 0]) :=
  ⟨reached_borrowedText, rfl, rfl⟩

end StringWorld

end LibPrelude
