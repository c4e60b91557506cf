import LibPrelude.String.Operations

/-! # The representation of a string

A string without a buffer is empty; any other holds its text in a live block, at
the start of one when it owns it. A call moves a string: it leaves alone every
block the string does not own, and the string owns what it owned or new blocks.
-/

namespace LibPrelude

variable {m m₁ m₂ : ByteMemory} {s s₁ s₂ : StringObject} {c ys bytes : List UInt8} {b n len : ℕ}
  {p : Ptr}

/-- No block is larger than one request may be. -/
def Memory.Small {α : Type*} (m : Memory α) : Prop :=
  ∀ b bytes, m.bytesAt b = some bytes → bytes.length ≤ m.limit

namespace StringObject

def block (s : StringObject) : Option ℕ := s.data.map Ptr.block

def owned (s : StringObject) : Option ℕ := if s.ownData then s.block else none

/-- The text before the position `index`. -/
def Text (m : ByteMemory) (s : StringObject) (c : List UInt8) : Prop :=
  match s.data with
  | none => c = [] ∧ s.index = 0 ∧ s.size = 0
  | some p => ∃ bytes, m.bytesAt p.block = some bytes ∧ p.offset + s.size ≤ bytes.length ∧
      s.index < s.size ∧ (bytes.drop p.offset).take s.index = c ∧ (s.ownData → p.offset = 0)

/-- The buffer has a NUL at the position `index`. -/
def Ended (m : ByteMemory) (s : StringObject) : Prop :=
  ∀ p, s.data = some p → m.load ⟨p.block, p.offset + s.index⟩ 1 = some [0]

/-- The representation invariant. -/
def WellFormed (m : ByteMemory) (s : StringObject) : Prop := (∃ c, s.Text m c) ∧ s.Ended m

/-- The string holds the text `c`. -/
def Holds (m : ByteMemory) (s : StringObject) (c : List UInt8) : Prop := s.Text m c ∧ s.Ended m

/-- What one call may do to the memory and to its string. -/
structure Moves (m : ByteMemory) (s : StringObject) (m' : ByteMemory) (s' : StringObject) :
    Prop where
  frame : ∀ b bytes, m.bytesAt b = some bytes → s.owned = some b ∨ m'.bytesAt b = some bytes
  live : ∀ b bytes, m'.bytesAt b = some bytes →
    s'.owned = some b ∨ s.owned ≠ some b ∧ ∃ bytes', m.bytesAt b = some bytes'
  own : ∀ b, s'.owned = some b → s.owned = some b ∨ m.bytesAt b = none
  small : m.Small → m'.Small
  limit : m'.limit = m.limit
  refcount : s'.refcount = s.refcount

theorem Moves.refl (m : ByteMemory) (s : StringObject) : s.Moves m m s where
  frame _ _ h := .inr h
  live b bytes h := by
    by_cases hs : s.owned = some b
    · exact .inl hs
    · exact .inr ⟨hs, bytes, h⟩
  own _ h := .inl h
  small h := h
  limit := rfl
  refcount := rfl

theorem Moves.of_bytesAt (hm : m₁.bytesAt = m.bytesAt) (hl : m₁.limit = m.limit)
    (ho : s₁.owned = s.owned) (hr : s₁.refcount = s.refcount) : s.Moves m m₁ s₁ where
  frame _ _ h := .inr (hm ▸ h)
  live b bytes h := by
    by_cases hs : s.owned = some b
    · exact .inl (ho.trans hs)
    · exact .inr ⟨hs, bytes, hm ▸ h⟩
  own _ h := .inl (ho ▸ h)
  small h b bytes hb := hl ▸ h b bytes (hm ▸ hb)
  limit := hl
  refcount := hr

theorem Moves.trans (h₁ : s.Moves m m₁ s₁) (h₂ : s₁.Moves m₁ m₂ s₂) : s.Moves m m₂ s₂ where
  frame b bytes h := by
    rcases h₁.frame b bytes h with hs | h'
    · exact .inl hs
    rcases h₂.frame b bytes h' with hs | h''
    · rcases h₁.own b hs with hs' | hn
      · exact .inl hs'
      · simp [hn] at h
    · exact .inr h''
  live b bytes h := by
    rcases h₂.live b bytes h with hs | ⟨hs, bytes', h'⟩
    · exact .inl hs
    rcases h₁.live b bytes' h' with hs' | h''
    · exact absurd hs' hs
    · exact .inr h''
  own b h := by
    rcases h₂.own b h with hs | hn
    · exact h₁.own b hs
    cases hb : m.bytesAt b with
    | none => exact .inr rfl
    | some bytes =>
      rcases h₁.frame b bytes hb with hs | h'
      · exact .inl hs
      · simp [hn] at h'
  small h := h₂.small (h₁.small h)
  limit := h₂.limit.trans h₁.limit
  refcount := h₂.refcount.trans h₁.refcount

theorem Moves.fresh (hs : s.owned = none) (hb : m.bytesAt b = none)
    (hm : m₁.bytesAt = Function.update m.bytesAt b (some bytes)) (hl : m₁.limit = m.limit)
    (hle : bytes.length ≤ m.limit) (ho : s₁.owned = some b) (hr : s₁.refcount = s.refcount) :
    s.Moves m m₁ s₁ where
  frame b' bytes' h := by
    rw [hm, Function.update_of_ne]
    · exact .inr h
    · rintro rfl
      simp [hb] at h
  live b' bytes' h := by
    by_cases hbb : b' = b
    · exact .inl (hbb ▸ ho)
    · rw [hm, Function.update_of_ne hbb] at h
      exact .inr ⟨by simp [hs], bytes', h⟩
  own b' h := by
    rw [ho, Option.some.injEq] at h
    exact .inr (h ▸ hb)
  small h b' bytes' hb' := by
    rw [hl]
    rw [hm] at hb'
    by_cases hbb : b' = b
    · rw [hbb, Function.update_self, Option.some.injEq] at hb'
      exact hb' ▸ hle
    · rw [Function.update_of_ne hbb] at hb'
      exact h b' bytes' hb'
  limit := hl
  refcount := hr

theorem Moves.written (hs : s.owned = some b)
    (hm : m₁.bytesAt = Function.update m.bytesAt b (some bytes)) (hl : m₁.limit = m.limit)
    (hle : m.Small → bytes.length ≤ m.limit) (ho : s₁.owned = some b)
    (hr : s₁.refcount = s.refcount) : s.Moves m m₁ s₁ where
  frame b' bytes' h := by
    by_cases hbb : b' = b
    · exact .inl (hbb ▸ hs)
    · exact .inr (by rw [hm, Function.update_of_ne hbb, h])
  live b' bytes' h := by
    by_cases hbb : b' = b
    · exact .inl (hbb ▸ ho)
    · rw [hm, Function.update_of_ne hbb] at h
      exact .inr ⟨by simpa [hs] using Ne.symm hbb, bytes', h⟩
  own b' h := .inl (hs.trans (ho.symm.trans h))
  small h b' bytes' hb' := by
    rw [hl]
    rw [hm] at hb'
    by_cases hbb : b' = b
    · rw [hbb, Function.update_self, Option.some.injEq] at hb'
      exact hb' ▸ hle h
    · rw [Function.update_of_ne hbb] at hb'
      exact h b' bytes' hb'
  limit := hl
  refcount := hr

theorem Moves.released (hs : s.owned = some b)
    (hm : m₁.bytesAt = Function.update m.bytesAt b none) (hl : m₁.limit = m.limit)
    (ho : s₁.owned = none) (hr : s₁.refcount = s.refcount) : s.Moves m m₁ s₁ where
  frame b' bytes' h := by
    by_cases hbb : b' = b
    · exact .inl (hbb ▸ hs)
    · exact .inr (by rw [hm, Function.update_of_ne hbb, h])
  live b' bytes' h := by
    by_cases hbb : b' = b
    · rw [hm, hbb, Function.update_self] at h
      cases h
    · rw [hm, Function.update_of_ne hbb] at h
      exact .inr ⟨by simpa [hs] using Ne.symm hbb, bytes', h⟩
  own b' h := by simp [ho] at h
  small h b' bytes' hb' := by
    rw [hl]
    rw [hm] at hb'
    by_cases hbb : b' = b
    · rw [hbb, Function.update_self] at hb'
      cases hb'
    · rw [Function.update_of_ne hbb] at hb'
      exact h b' bytes' hb'
  limit := hl
  refcount := hr

theorem Moves.moved {b' : ℕ} {old : List UInt8} (hs : s.owned = some b)
    (hb : m.bytesAt b = some old) (hb' : m.bytesAt b' = none) (hne : b' ≠ b)
    (hm : m₁.bytesAt = Function.update (Function.update m.bytesAt b none) b' (some bytes))
    (hl : m₁.limit = m.limit) (hle : bytes.length ≤ m.limit) (ho : s₁.owned = some b')
    (hr : s₁.refcount = s.refcount) : s.Moves m m₁ s₁ := by
  have hdead := Memory.bytesAt_setBlock hb none
  have hnull : ({ s with data := none } : StringObject).owned = none := by simp [owned, block]
  have hrel : s.Moves m (m.setBlock b none) { s with data := none } :=
    .released hs hdead rfl hnull rfl
  refine hrel.trans (.fresh hnull ?_ ?_ hl hle ho hr)
  · rw [hdead, Function.update_of_ne hne, hb']
  · rw [hm, hdead]

end StringObject

end LibPrelude
