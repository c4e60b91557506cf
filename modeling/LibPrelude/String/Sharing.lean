import LibPrelude.String.Buffer

/-! # Strings that share memory

In a sound world every string is well formed, and every live block is either the
caller's or is to be released by one string. A call on one string keeps the world
sound when no other string refers to the buffer that it gives up or overwrites.
-/

namespace LibPrelude

variable {m m' : ByteMemory} {s s' t : StringObject} {bytes bytes' : List UInt8} {i j b : ℕ}
  {w w' : StringWorld} {p : Ptr}

def KeepsEnds (bytes bytes' : List UInt8) : Prop :=
  bytes'.length = bytes.length ∧ ∀ k : ℕ, bytes[k]? = some 0 → bytes'[k]? = some 0

theorem KeepsEnds.refl (bytes : List UInt8) : KeepsEnds bytes bytes := ⟨rfl, fun _ h => h⟩

theorem load_one_eq_some {x : UInt8} (hb : m.bytesAt p.block = some bytes) :
    m.load p 1 = some [x] ↔ bytes[p.offset]? = some x := by
  rw [Memory.load_of_bytesAt hb, Bytes.load]
  split
  · rename_i hle
    have hlt : p.offset < bytes.length := by omega
    have htake : (bytes.drop p.offset).take 1 = [bytes[p.offset]] := by
      rw [List.drop_eq_getElem_cons hlt]
      rfl
    rw [List.getElem?_eq_getElem hlt, htake]
    simp
  · rename_i hle
    rw [List.getElem?_eq_none (by omega)]
    simp

namespace StringObject

theorem WellFormed.keep (h : s.WellFormed m) (hb : ∀ b bytes, s.block = some b →
    m.bytesAt b = some bytes → ∃ bytes', m'.bytesAt b = some bytes' ∧ KeepsEnds bytes bytes') :
    s.WellFormed m' := by
  rcases h with ⟨⟨c, hc⟩, he⟩
  rcases Option.eq_none_or_eq_some s.data with hp | ⟨p, hp⟩
  · refine ⟨⟨c, hc.congr fun b h => ?_⟩, he.congr fun b h => ?_⟩ <;> simp [block, hp] at h
  · rcases hc.buffer hp with ⟨bytes, hbytes, hsize, hlt, -, hoff⟩
    rcases hb p.block bytes (by rw [block, hp]; rfl) hbytes with ⟨bytes', hbytes', hlen, hnul⟩
    refine ⟨⟨(bytes'.drop p.offset).take s.index, ?_⟩, ?_⟩
    · unfold Text
      rw [hp]
      exact ⟨bytes', hbytes', by omega, hlt, rfl, hoff⟩
    · intro q hq
      obtain rfl : p = q := Option.some.inj (hp.symm.trans hq)
      refine (load_one_eq_some (p := ⟨p.block, p.offset + s.index⟩) hbytes').mpr (hnul _ ?_)
      exact (load_one_eq_some (p := ⟨p.block, p.offset + s.index⟩) hbytes).mp (he p hp)

theorem WellFormed.live (h : s.WellFormed m) (hb : s.block = some b) :
    ∃ bytes, m.bytesAt b = some bytes := by
  rcases h with ⟨⟨c, hc⟩, -⟩
  cases hp : s.data with
  | none => simp [block, hp] at hb
  | some p =>
    rcases hc.buffer hp with ⟨bytes, hbytes, -⟩
    simp only [block, hp, Option.map_some, Option.some.injEq] at hb
    exact ⟨bytes, hb ▸ hbytes⟩

theorem block_of_owned (h : s.owned = some b) : s.block = some b := by
  unfold owned at h
  split at h
  · exact h
  · cases h

end StringObject

namespace StringWorld

def Owns (w : StringWorld) (i b : ℕ) : Prop := ∃ s, w.object i = some s ∧ s.owned = some b

/-- No other string refers to a block that the string owns. -/
def Unshared (w : StringWorld) (i : ℕ) : Prop :=
  ∀ b, w.Owns i b → ∀ j, j ≠ i → ∀ t, w.object j = some t → t.block ≠ some b

structure Good (w : StringWorld) : Prop where
  wellFormed : ∀ i s, w.object i = some s → s.WellFormed w.memory
  caller : ∀ b ∈ w.caller, ∃ bytes, w.memory.bytesAt b = some bytes
  nodup : w.caller.Nodup
  apart : ∀ i b, w.Owns i b → b ∉ w.caller
  unique : ∀ i j b, w.Owns i b → w.Owns j b → i = j
  kept : ∀ b bytes, w.memory.bytesAt b = some bytes → b ∈ w.caller ∨ ∃ i, w.Owns i b
  small : w.memory.Small
  limit : w.memory.limit ≤ addressSpace

theorem Good.live (hw : w.Good) (h : w.Owns i b) : ∃ bytes, w.memory.bytesAt b = some bytes := by
  rcases h with ⟨s, hs, hb⟩
  exact (hw.wellFormed i s hs).live (StringObject.block_of_owned hb)

/-- What a call on the string `i` has to respect. -/
theorem Good.step (hw : w.Good) (others : ∀ j, j ≠ i → w'.object j = w.object j)
    (ends : ∀ b bytes, w.memory.bytesAt b = some bytes → w.Owns i b ∧ w.Unshared i ∨
      ∃ bytes', w'.memory.bytesAt b = some bytes' ∧ KeepsEnds bytes bytes')
    (wf : ∀ s, w'.object i = some s → s.WellFormed w'.memory)
    (live : ∀ b bytes, w'.memory.bytesAt b = some bytes → w'.Owns i b ∨ b ∈ w'.caller ∨
      ¬w.Owns i b ∧ b ∉ w.caller ∧ ∃ bytes', w.memory.bytesAt b = some bytes')
    (own : ∀ b, w'.Owns i b → b ∉ w'.caller ∧
      (w.Owns i b ∨ b ∈ w.caller ∨ w.memory.bytesAt b = none))
    (caller : ∀ b ∈ w'.caller, (∃ bytes, w'.memory.bytesAt b = some bytes) ∧
      (b ∈ w.caller ∨ w.Owns i b ∨ w.memory.bytesAt b = none))
    (nodup : w'.caller.Nodup) (small : w'.memory.Small) (limit : w'.memory.limit ≤ addressSpace) :
    w'.Good := by
  have owns : ∀ j, j ≠ i → ∀ b, w'.Owns j b → w.Owns j b := by
    rintro j hj b ⟨s, hs, hb⟩
    exact ⟨s, others j hj ▸ hs, hb⟩
  have outside : ∀ j, j ≠ i → ∀ b, w'.Owns j b → ¬w'.Owns i b := by
    intro j hj b hjb hib
    have hjb' := owns j hj b hjb
    rcases (own b hib).2 with h | h | h
    · exact hj (hw.unique j i b hjb' h)
    · exact hw.apart j b hjb' h
    · rcases hw.live hjb' with ⟨bytes, hbytes⟩
      simp [h] at hbytes
  constructor
  · intro j s hs
    by_cases hj : j = i
    · exact wf s (hj ▸ hs)
    · have hs' := others j hj ▸ hs
      refine (hw.wellFormed j s hs').keep fun b bytes hb hbytes => ?_
      rcases ends b bytes hbytes with ⟨hib, hun⟩ | h
      · exact absurd hb (hun b hib j hj s hs')
      · exact h
  · exact fun b hb => (caller b hb).1
  · exact nodup
  · intro j b hjb hb
    by_cases hj : j = i
    · exact (own b (hj ▸ hjb)).1 hb
    · have hjb' := owns j hj b hjb
      rcases (caller b hb).2 with h | h | h
      · exact hw.apart j b hjb' h
      · exact hj (hw.unique j i b hjb' h)
      · rcases hw.live hjb' with ⟨bytes, hbytes⟩
        simp [h] at hbytes
  · intro j k b hjb hkb
    by_cases hj : j = i
    · by_cases hk : k = i
      · rw [hj, hk]
      · exact absurd (hj ▸ hjb) (outside k hk b hkb)
    · by_cases hk : k = i
      · exact absurd (hk ▸ hkb) (outside j hj b hjb)
      · exact hw.unique j k b (owns j hj b hjb) (owns k hk b hkb)
  · intro b bytes hb
    rcases live b bytes hb with h | h | ⟨hib, hcal, bytes', hbytes'⟩
    · exact .inr ⟨i, h⟩
    · exact .inl h
    · rcases hw.kept b bytes' hbytes' with h | ⟨j, s, hs, hsb⟩
      · exact absurd h hcal
      · have hj : j ≠ i := by
          rintro rfl
          exact hib ⟨s, hs, hsb⟩
        exact .inr ⟨j, s, (others j hj).trans hs, hsb⟩
  · exact small
  · exact limit

theorem object_setObject (hs : w.object i = some s) (o : Option StringObject) (j : ℕ) :
    (w.setObject i o).object j = if j = i then o else w.object j := by
  have hlt : i < w.strings.length := by
    by_contra h
    simp [object, List.getElem?_eq_none (Nat.le_of_not_lt h)] at hs
  unfold object setObject
  split
  · rename_i hj
    simp [hj, hlt]
  · rename_i hj
    rw [List.getElem?_set_ne (Ne.symm hj)]

theorem object_withMemory (m : ByteMemory) : { w with memory := m }.object = w.object := rfl

theorem Good.moved (hw : w.Good) (hs : w.object i = some s)
    (hun : ∀ b bytes, s.owned = some b → w.memory.bytesAt b = some bytes → w.Unshared i ∨
      ∃ bytes', m'.bytesAt b = some bytes' ∧ KeepsEnds bytes bytes')
    (hmoves : s.Moves w.memory m' s') (hwf : s'.WellFormed m') :
    ({ w with memory := m' }.setObject i (some s')).Good := by
  have hobj : ∀ j, ({ w with memory := m' }.setObject i (some s')).object j =
      if j = i then some s' else w.object j :=
    object_setObject (w := { w with memory := m' }) hs (some s')
  have howns : ∀ b, ({ w with memory := m' }.setObject i (some s')).Owns i b ↔
      s'.owned = some b := by
    intro b
    simp [Owns, hobj]
  have howns' : ∀ b, w.Owns i b ↔ s.owned = some b := by
    intro b
    simp [Owns, hs]
  refine hw.step (i := i) ?_ ?_ ?_ ?_ ?_ ?_ hw.nodup (hmoves.small hw.small)
    (hmoves.limit ▸ hw.limit)
  · intro j hj
    rw [hobj, if_neg hj]
  · intro b bytes hb
    rcases hmoves.frame b bytes hb with h | h
    · rcases hun b bytes h hb with hun | hkeep
      · exact .inl ⟨(howns' b).mpr h, hun⟩
      · exact .inr hkeep
    · exact .inr ⟨bytes, h, .refl bytes⟩
  · intro t ht
    rw [hobj, if_pos rfl, Option.some.injEq] at ht
    exact ht ▸ hwf
  · intro b bytes hb
    rw [howns, howns']
    rcases hmoves.live b bytes hb with h | h
    · exact .inl h
    · by_cases hc : b ∈ w.caller
      · exact .inr (.inl hc)
      · exact .inr (.inr ⟨h.1, hc, h.2⟩)
  · intro b hb
    rw [howns] at hb
    rw [howns']
    rcases hmoves.own b hb with h | h
    · exact ⟨hw.apart i b ⟨s, hs, h⟩, .inl h⟩
    · refine ⟨fun hc => ?_, .inr (.inr h)⟩
      rcases hw.caller b hc with ⟨bytes, hbytes⟩
      simp [h] at hbytes
  · intro b hb
    rcases hw.caller b hb with ⟨bytes, hbytes⟩
    rcases hmoves.frame b bytes hbytes with h | h
    · exact absurd hb (hw.apart i b ⟨s, hs, h⟩)
    · exact ⟨⟨bytes, h⟩, .inl hb⟩

/-- Only the strings change: one that owned nothing still owns nothing, or is gone. -/
theorem Good.replaced (hw : w.Good) (hs : ∀ b, ¬w.Owns i b)
    (others : ∀ j, j ≠ i → w'.object j = w.object j)
    (ho : ∀ s, w'.object i = some s → s.owned = none ∧ s.WellFormed w.memory)
    (hb : w'.memory.bytesAt = w.memory.bytesAt) (hl : w'.memory.limit = w.memory.limit)
    (hc : w'.caller = w.caller) : w'.Good := by
  have howns : ∀ b, ¬w'.Owns i b := by
    rintro b ⟨s, hs', hsb⟩
    simp [(ho s hs').1] at hsb
  refine hw.step (i := i) others ?_ ?_ ?_ ?_ ?_ (hc ▸ hw.nodup) ?_ (hl ▸ hw.limit)
  · intro b bytes hbytes
    exact .inr ⟨bytes, hb ▸ hbytes, .refl bytes⟩
  · intro s hs'
    exact (ho s hs').2.keep fun b bytes _ hbytes => ⟨bytes, hb ▸ hbytes, .refl bytes⟩
  · intro b bytes hbytes
    by_cases hcal : b ∈ w.caller
    · exact .inr (.inl (hc ▸ hcal))
    · exact .inr (.inr ⟨hs b, hcal, bytes, hb ▸ hbytes⟩)
  · exact fun b h => absurd h (howns b)
  · intro b hcal
    rw [hc] at hcal
    rcases hw.caller b hcal with ⟨bytes, hbytes⟩
    exact ⟨⟨bytes, hb ▸ hbytes⟩, .inl hcal⟩
  · intro b bytes hbytes
    rw [hl]
    exact hw.small b bytes (hb ▸ hbytes)

/-- The caller hands one of its blocks to a string that owned nothing. -/
theorem Good.handedOver (hw : w.Good) (hs : w.object i = some s) (hn : s.owned = none)
    (hb : b ∈ w.caller) (ho : s'.owned = some b) (hwf : s'.WellFormed w.memory) :
    ({ w with caller := w.caller.erase b }.setObject i (some s')).Good := by
  have hobj : ∀ j, ({ w with caller := w.caller.erase b }.setObject i (some s')).object j =
      if j = i then some s' else w.object j :=
    object_setObject (w := { w with caller := w.caller.erase b }) hs (some s')
  have howns : ∀ b', ({ w with caller := w.caller.erase b }.setObject i (some s')).Owns i b' ↔
      b = b' := by
    intro b'
    simp [Owns, hobj, ho]
  have hfree : ∀ b', ¬w.Owns i b' := by
    intro b'
    simp [Owns, hs, hn]
  refine hw.step (i := i) ?_ ?_ ?_ ?_ ?_ ?_ (hw.nodup.erase b) hw.small hw.limit
  · intro j hj
    rw [hobj, if_neg hj]
  · exact fun b' bytes hbytes => .inr ⟨bytes, hbytes, .refl bytes⟩
  · intro t ht
    rw [hobj, if_pos rfl, Option.some.injEq] at ht
    exact ht ▸ hwf
  · intro b' bytes hbytes
    rw [howns]
    by_cases hbb : b = b'
    · exact .inl hbb
    · by_cases hc : b' ∈ w.caller
      · exact .inr (.inl ((List.mem_erase_of_ne (Ne.symm hbb)).mpr hc))
      · exact .inr (.inr ⟨hfree b', hc, bytes, hbytes⟩)
  · intro b' hb'
    rw [howns] at hb'
    rw [← hb']
    exact ⟨hw.nodup.not_mem_erase, .inr (.inl hb)⟩
  · intro b' hb'
    have hc := List.mem_of_mem_erase hb'
    exact ⟨hw.caller b' hc, .inl hc⟩

/-- A string hands its block to the caller. -/
theorem Good.handedBack (hw : w.Good) (hs : w.object i = some s) (ho : s.owned = some b)
    (hn : s'.owned = none) (hwf : s'.WellFormed w.memory) :
    ({ w with caller := w.caller ++ [b] }.setObject i (some s')).Good := by
  have hobj : ∀ j, ({ w with caller := w.caller ++ [b] }.setObject i (some s')).object j =
      if j = i then some s' else w.object j :=
    object_setObject (w := { w with caller := w.caller ++ [b] }) hs (some s')
  have hib : w.Owns i b := ⟨s, hs, ho⟩
  have hfree : ∀ b', ¬({ w with caller := w.caller ++ [b] }.setObject i (some s')).Owns i b' := by
    intro b'
    simp [Owns, hobj, hn]
  refine hw.step (i := i) ?_ ?_ ?_ ?_ ?_ ?_ ?_ hw.small hw.limit
  · intro j hj
    rw [hobj, if_neg hj]
  · exact fun b' bytes hbytes => .inr ⟨bytes, hbytes, .refl bytes⟩
  · intro t ht
    rw [hobj, if_pos rfl, Option.some.injEq] at ht
    exact ht ▸ hwf
  · intro b' bytes hbytes
    by_cases hmem : b' ∈ w.caller ++ [b]
    · exact .inr (.inl hmem)
    · rw [List.mem_append, List.mem_singleton, not_or] at hmem
      refine .inr (.inr ⟨?_, hmem.1, bytes, hbytes⟩)
      rintro ⟨t, ht, htb⟩
      rw [hs, Option.some.injEq] at ht
      rw [← ht, ho, Option.some.injEq] at htb
      exact hmem.2 htb.symm
  · exact fun b' hb' => absurd hb' (hfree b')
  · intro b' hb'
    rcases List.mem_append.mp hb' with hc | hc
    · exact ⟨hw.caller b' hc, .inl hc⟩
    · rw [List.mem_singleton.mp hc]
      exact ⟨hw.live hib, .inr (.inl hib)⟩
  · exact List.nodup_append_comm.mp (by simpa using ⟨hw.apart i b hib, hw.nodup⟩)

end StringWorld

end LibPrelude
