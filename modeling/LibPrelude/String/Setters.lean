import LibPrelude.String.Append
import LibPrelude.String.Sharing

/-! # Setting, cutting and releasing a string

Each call leaves its string well formed, or says which request has to be granted
for that.
-/

namespace LibPrelude

variable {m m' : ByteMemory} {s s' src : StringObject} {c d str bytes : List UInt8}
  {b n len : ℕ} {p : Ptr}

/-- A byte at the position can be read. -/
def Memory.Readable {α : Type*} (m : Memory α) (p : Ptr) : Prop :=
  ∃ bytes, m.bytesAt p.block = some bytes ∧ p.offset < bytes.length

theorem Memory.Readable.load (h : m.Readable p) : (m.load p 1).isSome := by
  rcases h with ⟨bytes, hb, hlt⟩
  rw [StringObject.load_eq hb (by omega)]
  rfl

namespace StringObject

theorem wellFormed_null (hp : s.data = none) (hi : s.index = 0) (hs : s.size = 0) :
    s.WellFormed m := by
  refine ⟨⟨[], ?_⟩, fun p h => ?_⟩
  · unfold Text
    rw [hp]
    exact ⟨rfl, hi, hs⟩
  · rw [hp] at h
    cases h

def nulled (s : StringObject) : StringObject := { s with data := none, index := 0, size := 0 }

theorem nulled_owned : s.nulled.owned = none := owned_of_null rfl

theorem nulled_wellFormed : s.nulled.WellFormed m := wellFormed_null rfl rfl rfl

theorem destroyInternal_spec (h : s.WellFormed m) :
    ∃ m', s.destroyInternal m = some (m', s.nulled) ∧ s.Moves m m' s.nulled ∧
      m'.grants = m.grants := by
  have hmap : ∀ m', s.freeData m = some m' → s.destroyInternal m = some (m', s.nulled) := by
    intro m' hm'
    rw [destroyInternal, hm']
    rfl
  by_cases ho : s.ownData
  · rcases Option.eq_none_or_eq_some s.data with hp | ⟨p, hp⟩
    · refine ⟨m, hmap m (by rw [freeData, if_pos ho, hp]), .of_bytesAt rfl rfl ?_ rfl, rfl⟩
      rw [nulled_owned, owned_of_null hp]
    · rcases h with ⟨⟨c, hc⟩, -⟩
      rcases hc.buffer hp with ⟨bytes, hb, -, -, -, hoff⟩
      rcases Memory.free_of_bytesAt hb with ⟨m', hm'⟩
      rcases Memory.free_some hm' with ⟨hbytes, hlim, hgr⟩
      refine ⟨m', hmap m' ?_, .released (owned_of_data ho hp) hbytes hlim nulled_owned rfl, hgr⟩
      rw [freeData, if_pos ho, hp]
      exact (if_pos (hoff ho)).trans hm'
  · refine ⟨m, hmap m (by rw [freeData, if_neg ho]), .of_bytesAt rfl rfl ?_ rfl, rfl⟩
    rw [nulled_owned, owned_of_borrowed (by simpa using ho)]

theorem stringReturnIfInvalid_cases (len : ℕ) {last : Option (List UInt8)} (h : last.isSome) :
    (∃ e, stringReturnIfInvalid last len = some (.error e)) ∨
      stringReturnIfInvalid last len = some (.ok ()) ∧ last = some [0] := by
  unfold stringReturnIfInvalid
  split
  · exact .inl ⟨_, rfl⟩
  · rcases Option.isSome_iff_exists.mp h with ⟨bytes, rfl⟩
    rw [Option.map_some]
    by_cases hz : bytes = [0]
    · rw [if_pos hz, hz]
      exact .inr ⟨rfl, rfl⟩
    · rw [if_neg hz]
      exact .inl ⟨_, rfl⟩

theorem dupText_spec (str : List UInt8) (len : ℕ) (hp : s.data = none) (hi : s.index = 0)
    (hs : s.size = 0)
    (hlen : len ≤ str.length) :
    ∃ r, s.dupText m str len = some r ∧ s.Moves m r.memory r.object ∧
      r.object.WellFormed r.memory := by
  unfold dupText stringBufAlloc
  rcases hm : m.malloc (len + 1) with ⟨m', _ | b⟩
  · rcases Memory.malloc_none hm with ⟨hbytes, hlim, -⟩
    refine ⟨_, rfl, .of_bytesAt hbytes hlim ?_ rfl, wellFormed_null rfl hi hs⟩
    rw [owned_of_null hp, owned_of_null rfl]
  · have hl : (str.take len).length = len := by simp [hlen]
    rcases copied_spec (c := str.take len)
      { s with data := some ⟨b, 0⟩, index := len, size := len + 1, ownData := true } hm
      (owned_of_null hp) (by omega) rfl rfl rfl hl.symm rfl with ⟨m₂, hm₂, hmoves, -, hholds⟩
    have hload : Bytes.load str 0 len = some (str.take len) := by
      rw [Bytes.load_eq_some (by omega), List.drop_zero]
    refine ⟨⟨m₂, _, .ok 0⟩, ?_, hmoves, ⟨_, hholds.1⟩, hholds.2⟩
    simp only [stringBufCopy, Nat.lt_succ_self, if_true, hload, hm₂, Option.bind_eq_bind,
      Option.bind_some, Option.pure_def]

theorem setDupFast_spec (h : s.WellFormed m) (hlen : len < str.length) :
    ∃ r, s.setDupFast m str len = some r ∧ s.Moves m r.memory r.object ∧
      r.object.WellFormed r.memory := by
  have hlast : (Bytes.load str len 1).isSome := by
    rw [Bytes.load_eq_some (by omega)]
    rfl
  unfold setDupFast
  rcases stringReturnIfInvalid_cases len hlast with ⟨e, he⟩ | ⟨hok, -⟩
  · rw [he]
    exact ⟨_, rfl, .refl m s, h⟩
  · rcases destroyInternal_spec h with ⟨m₁, hm₁, hmoves₁, -⟩
    rcases dupText_spec (s := s.nulled) (m := m₁) str len rfl rfl rfl (by omega)
      with ⟨r, hr, hmoves₂, hwf⟩
    refine ⟨r, ?_, hmoves₁.trans hmoves₂, hwf⟩
    simp only [hok, hm₁, Option.bind_eq_bind, Option.bind_some]
    exact hr

/-- A reference to a text outside of the buffer that the string gives up. -/
theorem refText_wellFormed (hr : m.Readable ⟨p.block, p.offset + len⟩)
    (hend : m.load ⟨p.block, p.offset + len⟩ 1 = some [0]) (ho : s.ownData = false) :
    (s.refText p len).WellFormed m := by
  rcases hr with ⟨bytes, hb, hlt⟩
  refine ⟨⟨(bytes.drop p.offset).take len, bytes, hb, ?_, ?_, rfl, ?_⟩, fun q hq => ?_⟩
  · simp only [refText] at hlt ⊢
    omega
  · simp [refText]
  · simp [refText, ho]
  · cases hq
    exact hend

theorem setRefFast_spec (h : s.WellFormed m) (hr : m.Readable ⟨p.block, p.offset + len⟩)
    (hne : s.owned ≠ some p.block) :
    ∃ r, s.setRefFast m p len = some r ∧ s.Moves m r.memory r.object ∧
      r.object.WellFormed r.memory := by
  unfold setRefFast
  rcases stringReturnIfInvalid_cases len hr.load with ⟨e, he⟩ | ⟨hok, hend⟩
  · rw [he]
    exact ⟨_, rfl, .refl m s, h⟩
  · rcases destroyInternal_spec h with ⟨m₁, hm₁, hmoves, -⟩
    rcases hr with ⟨bytes, hb, hlt⟩
    have hb' : m₁.bytesAt p.block = some bytes :=
      (hmoves.frame p.block bytes hb).resolve_left hne
    have hend' : m₁.load ⟨p.block, p.offset + len⟩ 1 = some [0] := by
      rw [← hend, Memory.load, Memory.load]
      simp only [hb, hb']
    have hwf : ({ s.nulled with ownData := false }.refText p len).WellFormed m₁ :=
      refText_wellFormed ⟨bytes, hb', hlt⟩ hend' rfl
    refine ⟨⟨m₁, { s.nulled.refText p len with ownData := false }, .ok 0⟩, ?_, ?_, hwf⟩
    · simp only [hok, hm₁, Option.bind_eq_bind, Option.bind_some, Option.pure_def]
    · refine hmoves.trans (.of_bytesAt rfl rfl ?_ rfl)
      rw [nulled_owned, owned_of_borrowed rfl]

theorem duplicate_spec (hn : s.owned = none) (hd : s.data = none) (h : src.WellFormed m) :
    ∃ r, s.duplicate m src = some r ∧
      ((r.ret = .ok 0 ∧ s.Moves m r.memory r.object ∧ r.object.WellFormed r.memory) ∨
        (r.ret = .error .enomem ∧ src.size ≠ 0 ∧ (m.request src.size).2 = false ∧
          r.memory.bytesAt = m.bytesAt ∧ r.memory.limit = m.limit ∧
          r.object = { s with size := src.size, index := src.index, ownData := true })) := by
  rcases h with ⟨⟨c, hc⟩, -⟩
  unfold duplicate
  by_cases hz : src.size = 0
  · have hi := hc.index_le
    refine ⟨_, by rw [if_pos hz], .inl ⟨rfl, .of_bytesAt rfl rfl ?_ rfl, ?_⟩⟩
    · rw [hn]
      exact owned_of_null (s := { s with size := src.size, index := src.index, ownData := true }) hd
    · exact wellFormed_null hd (by simp only; omega) hz
  · rw [if_neg hz]
    rcases hm : m.malloc src.size with ⟨m', _ | b⟩
    · rcases Memory.malloc_none hm with ⟨hbytes, hlim, -, hreq⟩
      exact ⟨_, rfl, .inr ⟨rfl, hz, hreq, hbytes, hlim, rfl⟩⟩
    · rcases Option.eq_none_or_eq_some src.data with hp | ⟨p, hp⟩
      · exact absurd (hc.nil hp).2.2 hz
      · rcases hc.buffer hp with ⟨bytes, hb, hsize, hlt, htext, -⟩
        rcases Memory.malloc_some hm with ⟨hfresh, hbytes, -⟩
        have hne : p.block ≠ b := by
          rintro rfl
          simp [hb] at hfresh
        have hload : m'.load p src.index = some c := by
          rw [load_eq (by rw [hbytes, Function.update_of_ne hne, hb]) (by omega), htext]
        have hcl := hc.length
        rcases copied_spec (c := c) { s with
            size := src.size, index := src.index, ownData := true, data := some ⟨b, 0⟩ } hm hn
          (by omega) rfl rfl rfl hcl.symm rfl with ⟨m₂, hm₂, hmoves, -, hholds⟩
        have hcopy : Bytes.load c 0 src.index = some c := by
          rw [Bytes.load_eq_some (by omega), List.drop_zero, List.take_of_length_le (by omega)]
        refine ⟨⟨m₂, _, .ok 0⟩, ?_, .inl ⟨rfl, hmoves, ⟨c, hholds.1⟩, hholds.2⟩⟩
        simp only [hp, hload, stringBufCopy, hlt, if_true, hcopy, hm₂, Option.bind_eq_bind,
          Option.bind_some, Option.pure_def]

/-- Cutting a text stores a NUL in the buffer, its own or not. -/
theorem truncate_spec (h : s.WellFormed m) (hlen : len ≤ s.index)
    (ho : len = 0 ∨ s.ownData) :
    ∃ m', s.truncate m len = some ⟨m', { s with index := len }, .ok 0⟩ ∧
      m'.limit = m.limit ∧ ({ s with index := len } : StringObject).WellFormed m' ∧
      (s.data = none ∧ m' = m ∨ ∃ p bytes bytes', s.data = some p ∧
        m.bytesAt p.block = some bytes ∧
        m'.bytesAt = Function.update m.bytesAt p.block (some bytes') ∧
        bytes' = bytes.set (p.offset + len) 0) := by
  have hown : ¬(len ≠ 0 ∧ s.ownData = false) := by
    rintro ⟨hz, hf⟩
    rcases ho with h0 | ht
    · exact hz h0
    · simp [hf] at ht
  rcases h with ⟨⟨c, hc⟩, he⟩
  rcases Option.eq_none_or_eq_some s.data with hp | ⟨p, hp⟩
  · have hz : len = 0 := by
      have := (hc.nil hp).2.1
      omega
    refine ⟨m, ?_, rfl, wellFormed_null hp hz (hc.nil hp).2.2, .inl ⟨hp, rfl⟩⟩
    unfold truncate position
    rw [if_neg (by omega), if_neg hown]
    simp only [hp, Option.bind_eq_bind, Option.bind_some, Option.map_none, Option.pure_def]
  · rcases hc.buffer hp with ⟨bytes, hb, hsize, hlt, htext, hoff⟩
    rcases Memory.store_some (p := ⟨p.block, p.offset + len⟩) (x := [0]) hb (by simp; omega) with
      ⟨m', hm', hlim, -, hbytes⟩
    have hset : m'.bytesAt = Function.update m.bytesAt p.block
        (some (bytes.set (p.offset + len) 0)) := by
      rw [List.set_eq_take_append_cons_drop, if_pos (by omega), hbytes]
      simp
    have hb' : m'.bytesAt p.block = some (bytes.set (p.offset + len) 0) := by
      rw [hset, Function.update_self]
    have htext' := text_of_buffer (s := { s with index := len }) (p := p) hp hb'
      (by simp only [List.length_set]; exact hsize) (hlen.trans_lt hlt) hoff
    refine ⟨m', ?_, hlim, ⟨⟨_, htext'⟩, fun q hq => ?_⟩, .inr ⟨p, bytes, _, hp, hb, hset, rfl⟩⟩
    · unfold truncate position
      rw [if_neg (by omega), if_neg hown]
      simp only [hp, Option.bind_eq_bind, Option.bind_some, Option.map_some, hm', Option.pure_def]
    · obtain rfl : p = q := Option.some.inj (hp.symm.trans hq)
      refine (load_one_eq_some (p := ⟨p.block, p.offset + len⟩) hb').mpr ?_
      rw [List.getElem?_set_self (by omega)]

theorem strlen_spec (h : 0 ∈ str) :
    strlen str = some (str.takeWhile (· ≠ 0)).length ∧
      str.take ((str.takeWhile (· ≠ 0)).length + 1) = str.takeWhile (· ≠ 0) ++ [0] := by
  refine ⟨if_pos h, ?_⟩
  induction str with
  | nil => cases h
  | cons x xs ih =>
    by_cases hx : x = 0
    · subst hx
      simp
    · have hmem : 0 ∈ xs := by
        rcases List.mem_cons.mp h with h0 | h0
        · exact absurd h0.symm hx
        · exact h0
      rw [List.takeWhile_cons_of_pos (by simpa using hx), List.length_cons, List.take_succ_cons,
        ih hmem, List.cons_append]

/-- What is handed to the caller is a new block of its own. -/
theorem getStringReleased_spec (h : s.WellFormed m) :
    ∃ r out, s.getStringReleased m = some (r, out) ∧
      ((out = none ∧ r.object = s ∧ r.memory.bytesAt = m.bytesAt ∧ r.memory.limit = m.limit) ∨
        ∃ b t, out = some b ∧ t.owned = some b ∧ s.Moves m r.memory t ∧ t.WellFormed r.memory ∧
          (s.ownData ∧ r.object = s.nulled ∨ s.ownData = false ∧ r.object = s)) := by
  have hrange : sizeRange = 2 ^ 64 := rfl
  rcases h with ⟨⟨c, hc⟩, he⟩
  unfold getStringReleased
  by_cases hz : s.index = 0
  · rw [if_pos hz]
    exact ⟨_, _, rfl, .inl ⟨rfl, rfl, rfl, rfl⟩⟩
  rcases Option.eq_none_or_eq_some s.data with hp | ⟨p, hp⟩
  · exact absurd (hc.nil hp).2.1 hz
  rw [if_neg hz]
  by_cases ho : s.ownData
  · rw [if_pos ho]
    by_cases hwrap : sizeRange ≤ s.index + 1
    · rw [if_pos hwrap]
      exact ⟨_, _, rfl, .inl ⟨rfl, rfl, rfl, rfl⟩⟩
    rw [if_neg hwrap]
    rcases reallocData_spec hc ho (Nat.lt_succ_self s.index) with ⟨m', ob, hr, -,
      ⟨rfl, hbytes, hlim, -⟩ | ⟨b, rfl, -, hmoves, htext, hend⟩⟩
    · simp only [hr, Option.bind_eq_bind, Option.bind_some, Option.pure_def]
      exact ⟨_, _, rfl, .inl ⟨rfl, rfl, hbytes, hlim⟩⟩
    · simp only [hr, Option.bind_eq_bind, Option.bind_some, Option.pure_def]
      refine ⟨_, _, rfl, .inr ⟨b, { s with size := s.index + 1, data := some ⟨b, 0⟩ }, rfl, ?_,
        hmoves, ⟨⟨c, htext⟩, hend (by simp [hp]) he⟩, .inl ⟨ho, rfl⟩⟩⟩
      exact owned_of_data (s := { s with size := s.index + 1, data := some ⟨b, 0⟩ }) ho rfl
  · rw [if_neg ho]
    rcases hc.buffer hp with ⟨bytes, hb, hsize, hlt, -, -⟩
    have hnul : (bytes.drop p.offset)[s.index]? = some 0 := by
      rw [List.getElem?_drop]
      exact (load_one_eq_some (p := ⟨p.block, p.offset + s.index⟩) hb).mp (he p hp)
    rcases strlen_spec (List.mem_of_getElem? hnul) with ⟨hlen, htake⟩
    simp only [hp, hb, hlen, Option.bind_eq_bind, Option.bind_some]
    rcases hm : m.malloc (((bytes.drop p.offset).takeWhile (· ≠ 0)).length + 1) with ⟨m', _ | b⟩
    · rcases Memory.malloc_none hm with ⟨hbytes, hlim, -⟩
      exact ⟨_, _, rfl, .inl ⟨rfl, rfl, hbytes, hlim⟩⟩
    · rcases copied_spec (s := s) (c := (bytes.drop p.offset).takeWhile (· ≠ 0)) { s with
          data := some ⟨b, 0⟩, ownData := true,
          size := ((bytes.drop p.offset).takeWhile (· ≠ 0)).length + 1,
          index := ((bytes.drop p.offset).takeWhile (· ≠ 0)).length } hm
        (owned_of_borrowed (by simpa using ho)) (Nat.lt_succ_self _) rfl rfl rfl rfl rfl with
        ⟨m₂, hm₂, hmoves, -, hholds⟩
      refine ⟨⟨m₂, s, .ok 0⟩, some b, ?_, .inr ⟨b, _, rfl, rfl, hmoves, ⟨⟨_, hholds.1⟩, hholds.2⟩,
        .inr ⟨by simpa using ho, rfl⟩⟩⟩
      simp only [htake, hm₂, Option.bind_some, Option.pure_def]

end StringObject

end LibPrelude
