import LibPrelude.String.Invariant

/-! # Growing a buffer

A string that owns its buffer grows by moving it, and a string that borrows one
by copying it to a buffer of its own. A request that is refused changes nothing.
-/

namespace LibPrelude

variable {m m' : ByteMemory} {s : StringObject} {c y bytes : List UInt8} {b n q len : ℕ}
  {p : Ptr}

namespace StringObject

theorem load_eq (hb : m.bytesAt p.block = some bytes) (h : p.offset + n ≤ bytes.length) :
    m.load p n = some ((bytes.drop p.offset).take n) := by
  rw [Memory.load_of_bytesAt hb, Bytes.load_eq_some h]

theorem Text.length (h : s.Text m c) : c.length = s.index := by
  unfold Text at h
  split at h
  · rcases h with ⟨rfl, hi, -⟩
    exact hi.symm
  · rcases h with ⟨bytes, -, hlen, hlt, rfl, -⟩
    simp
    omega

theorem Text.buffer (h : s.Text m c) (hp : s.data = some p) :
    ∃ bytes, m.bytesAt p.block = some bytes ∧ p.offset + s.size ≤ bytes.length ∧
      s.index < s.size ∧ (bytes.drop p.offset).take s.index = c ∧ (s.ownData → p.offset = 0) := by
  unfold Text at h
  rw [hp] at h
  exact h

theorem text_of_buffer (hp : s.data = some p) (hb : m.bytesAt p.block = some bytes)
    (hsize : p.offset + s.size ≤ bytes.length) (hlt : s.index < s.size)
    (hoff : s.ownData → p.offset = 0) : s.Text m ((bytes.drop p.offset).take s.index) := by
  unfold Text
  rw [hp]
  exact ⟨bytes, hb, hsize, hlt, rfl, hoff⟩

theorem Text.nil (h : s.Text m c) (hp : s.data = none) : c = [] ∧ s.index = 0 ∧ s.size = 0 := by
  unfold Text at h
  rw [hp] at h
  exact h

theorem Text.congr (h : s.Text m c)
    (hb : ∀ b, s.block = some b → m'.bytesAt b = m.bytesAt b) : s.Text m' c := by
  cases hp : s.data with
  | none =>
    unfold Text
    rw [hp]
    exact h.nil hp
  | some p =>
    rcases h.buffer hp with ⟨bytes, hbytes, h⟩
    unfold Text
    rw [hp]
    exact ⟨bytes, (hb _ (by rw [block, hp]; rfl)).trans hbytes, h⟩

theorem Ended.congr (h : s.Ended m)
    (hb : ∀ b, s.block = some b → m'.bytesAt b = m.bytesAt b) : s.Ended m' := by
  intro p hp
  rw [← h p hp, Memory.load, Memory.load, hb p.block (by rw [block, hp]; rfl)]

theorem Text.ended_iff (h : s.Text m c) (hp : s.data = some p)
    (hb : m.bytesAt p.block = some bytes) :
    s.Ended m ↔ (bytes.drop p.offset).take (s.index + 1) = c ++ [0] := by
  rcases h.buffer hp with ⟨bytes', hb', hsize, hlt, hc, -⟩
  obtain rfl : bytes = bytes' := Option.some.inj (hb.symm.trans hb')
  have hone : m.load ⟨p.block, p.offset + s.index⟩ 1 =
      some ((bytes.drop (p.offset + s.index)).take 1) :=
    load_eq (p := ⟨p.block, p.offset + s.index⟩) hb (by simp only; omega)
  rw [List.take_add, hc, List.drop_drop, List.append_right_inj]
  constructor
  · intro he
    have hz := he p hp
    rw [hone] at hz
    exact Option.some.inj hz
  · intro hz q hq
    obtain rfl : p = q := Option.some.inj (hp.symm.trans hq)
    rw [hone, hz]

theorem owned_of_data (ho : s.ownData) (hp : s.data = some p) : s.owned = some p.block := by
  simp [owned, block, ho, hp]

theorem owned_of_borrowed (ho : s.ownData = false) : s.owned = none := by simp [owned, ho]

theorem owned_of_null (hp : s.data = none) : s.owned = none := by simp [owned, block, hp]

/-- Bytes stored from the end of the text on, in a buffer the string owns. -/
theorem Text.store (h : s.Text m c) (ho : s.ownData) (hp : s.data = some p)
    (hlen : s.index + y.length ≤ s.size) :
    ∃ m' bytes', m.store ⟨p.block, p.offset + s.index⟩ y = some m' ∧ s.Moves m m' s ∧
      m'.grants = m.grants ∧ m'.bytesAt p.block = some bytes' ∧ s.size ≤ bytes'.length ∧
      bytes'.take (s.index + y.length) = c ++ y := by
  rcases h.buffer hp with ⟨bytes, hb, hsize, hlt, hc, hoff⟩
  rw [hoff ho, Nat.zero_add] at hsize
  rw [hoff ho, List.drop_zero] at hc
  have hi : (bytes.take s.index).length = s.index := by simp; omega
  rcases Memory.store_some (p := ⟨p.block, p.offset + s.index⟩) (x := y) hb
    (by simp [hoff ho]; omega) with ⟨m', hm', hlim, hgr, hbytes⟩
  simp only [hoff ho, Nat.zero_add] at hm' hbytes ⊢
  have hmoves : s.Moves m m' s := by
    refine .written (owned_of_data ho hp) hbytes hlim ?_ (owned_of_data ho hp) rfl
    intro hsmall
    have := hsmall _ _ hb
    simp
    omega
  refine ⟨m', _, hm', hmoves, hgr, by rw [hbytes, Function.update_self], by simp; omega, ?_⟩
  rw [List.take_left' (by rw [List.length_append, hi]), hc]

theorem copied_spec {m₁ : ByteMemory} (s' : StringObject) (hm : m.malloc n = (m₁, some b))
    (ho : s.owned = none) (hlen : c.length < n) (hd : s'.data = some ⟨b, 0⟩) (hown : s'.ownData)
    (hsize : s'.size = n) (hindex : s'.index = c.length) (hr : s'.refcount = s.refcount) :
    ∃ m₂, m₁.store ⟨b, 0⟩ (c ++ [0]) = some m₂ ∧ s.Moves m m₂ s' ∧
      m₂.grants = m.grants.tail ∧ s'.Holds m₂ c := by
  rcases Memory.malloc_some hm with ⟨hb, hbytes, hn, hlim, hgr, -⟩
  have hb' : m₁.bytesAt b = some (.replicate n m.junk) := by
    rw [hbytes, Function.update_self]
  rcases Memory.store_some (p := ⟨b, 0⟩) (x := c ++ [0]) hb' (by simp; omega) with
    ⟨m₂, hm₂, hlim', hgr', hbytes'⟩
  have hall : m₂.bytesAt = Function.update m.bytesAt b
      (some ((c ++ [0]) ++ (List.replicate n m.junk).drop (c.length + 1))) := by
    rw [hbytes', hbytes, Function.update_idem]
    simp
  have hmine : m₂.bytesAt b =
      some ((c ++ [0]) ++ (List.replicate n m.junk).drop (c.length + 1)) := by
    rw [hall, Function.update_self]
  have htext : s'.Text m₂ c := by
    unfold Text
    rw [hd]
    refine ⟨_, hmine, by simp; omega, by omega, ?_, by simp⟩
    rw [List.drop_zero, List.append_assoc, List.take_left' hindex.symm]
  have hend : s'.Ended m₂ := by
    refine (htext.ended_iff hd hmine).mpr ?_
    rw [List.drop_zero]
    exact List.take_left' (by simp [hindex])
  refine ⟨m₂, hm₂, ?_, hgr'.trans hgr, htext, hend⟩
  exact .fresh ho hb hall (hlim'.trans hlim) (by simp; omega)
    ((owned_of_data hown hd).trans rfl) hr

/-- The copy of a borrowed buffer holds the same text. -/
theorem makeStringOwn_spec (h : s.Text m c) (he : s.Ended m) (ho : s.owned = none)
    (hlen : s.index < n) :
    ∃ r, s.makeStringOwn m n = some r ∧ s.Moves m r.memory r.object ∧
      r.memory.grants = m.grants.tail ∧
      ((r.ret = .error .enomem ∧ r.object = s ∧ r.memory.bytesAt = m.bytesAt ∧
          (m.request n).2 = false) ∨
        (r.ret = .ok 0 ∧ (m.request n).2 = true ∧ r.object.Text r.memory c ∧
          r.object.ownData ∧ r.object.data.isSome ∧ r.object.size = n ∧
          r.object.index = s.index ∧ (s.data.isSome → r.object.Ended r.memory))) := by
  unfold makeStringOwn
  cases hm : m.malloc n with
  | mk m' ob =>
    cases ob with
    | none =>
      rcases Memory.malloc_none hm with ⟨hbytes, hlim, hgr, hreq⟩
      exact ⟨_, rfl, .of_bytesAt hbytes hlim rfl rfl, hgr, .inl ⟨rfl, rfl, hbytes, hreq⟩⟩
    | some b =>
      rcases Memory.malloc_some hm with ⟨hb, hbytes, hn, hlim, hgr, hreq⟩
      have hb' : m'.bytesAt b = some (.replicate n m.junk) := by
        rw [hbytes, Function.update_self]
      cases hp : s.data with
      | none =>
        rcases h.nil hp with ⟨rfl, hi, hs⟩
        refine ⟨_, rfl, ?_, hgr, .inr ⟨rfl, hreq, ?_, rfl, rfl, rfl, rfl, by simp⟩⟩
        · exact .fresh ho hb hbytes hlim (by simpa using hn) rfl rfl
        · exact ⟨_, hb', by simp, hlen, by simp [hi], by simp⟩
      | some p =>
        rcases h.buffer hp with ⟨bytes, hpb, hsize, hlt, hc, -⟩
        have hne : p.block ≠ b := by
          rintro rfl
          simp [hb] at hpb
        have hend := (h.ended_iff hp hpb).mp he
        have hload : m'.load p (s.index + 1) = some (c ++ [0]) := by
          rw [load_eq (by rw [hbytes, Function.update_of_ne hne, hpb]) (by omega), hend]
        rcases copied_spec { s with size := n, data := some ⟨b, 0⟩, ownData := true } hm ho
          (h.length.trans_lt hlen) rfl rfl rfl h.length.symm rfl with
          ⟨m'', hm'', hmoves, hgr', htext, hended⟩
        simp only [hload, hm'', Option.bind_eq_bind, Option.bind_some, Option.pure_def]
        exact ⟨_, rfl, hmoves, hgr', .inr ⟨rfl, hreq, htext, rfl, rfl, rfl, rfl, fun _ => hended⟩⟩

theorem reallocData_spec (h : s.Text m c) (ho : s.ownData) (hlen : s.index < n) :
    ∃ m' ob, s.reallocData m n = some (m', ob) ∧ m'.grants = m.grants.tail ∧
      ((ob = none ∧ m'.bytesAt = m.bytesAt ∧ m'.limit = m.limit ∧ (m.request n).2 = false) ∨
        ∃ b, ob = some b ∧ (m.request n).2 = true ∧
          s.Moves m m' { s with size := n, data := some ⟨b, 0⟩ } ∧
          ({ s with size := n, data := some ⟨b, 0⟩ } : StringObject).Text m' c ∧
          (s.data.isSome → s.Ended m →
            ({ s with size := n, data := some ⟨b, 0⟩ } : StringObject).Ended m')) := by
  unfold reallocData
  cases hp : s.data with
  | none =>
    rcases h.nil hp with ⟨rfl, hi, hs⟩
    rcases hm : m.malloc n with ⟨m', _ | b⟩
    · rcases Memory.malloc_none hm with ⟨hbytes, hlim, hgr, hreq⟩
      exact ⟨m', none, rfl, hgr, .inl ⟨rfl, hbytes, hlim, hreq⟩⟩
    · rcases Memory.malloc_some hm with ⟨hb, hbytes, hn, hlim, hgr, hreq⟩
      refine ⟨m', some b, rfl, hgr, .inr ⟨b, rfl, hreq, ?_, ?_, by simp⟩⟩
      · refine .fresh (owned_of_null hp) hb hbytes hlim (by simpa using hn) ?_ rfl
        exact owned_of_data (s := { s with size := n, data := some ⟨b, 0⟩ }) ho rfl
      · exact ⟨_, by rw [hbytes, Function.update_self], by simp, hlen, by simp [hi], by simp⟩
  | some p =>
    rcases h.buffer hp with ⟨bytes, hpb, hsize, hlt, hc, hoff⟩
    simp only [hoff ho, Nat.zero_add, List.drop_zero] at hsize hc
    simp only [hoff ho, if_true]
    rcases Memory.realloc_of_bytesAt hpb n with ⟨⟨m', _ | b⟩, hr⟩
    · rcases Memory.realloc_none hr with ⟨hbytes, hlim, hgr, hreq⟩
      exact ⟨m', none, hr, hgr, .inl ⟨rfl, hbytes, hlim, hreq⟩⟩
    · rcases Memory.realloc_some hpb hr with ⟨hb, hne, hn, hlim, hgr, hreq, hbytes⟩
      have hown : m'.bytesAt b =
          some (bytes.take n ++ .replicate (n - bytes.length) m.junk) := by
        rw [hbytes, Function.update_self]
      have htext : ({ s with size := n, data := some ⟨b, 0⟩ } : StringObject).Text m' c := by
        refine ⟨_, hown, by simp; omega, hlen, ?_, by simp⟩
        change ((bytes.take n ++ _).drop 0).take s.index = c
        rw [List.drop_zero, List.take_append_of_le_length (by simp; omega), List.take_take,
          Nat.min_eq_left (by omega), hc]
      refine ⟨m', some b, hr, hgr, .inr ⟨b, rfl, hreq, ?_, htext, ?_⟩⟩
      · refine .moved (owned_of_data ho hp) hpb hb hne hbytes hlim (by simp; omega) ?_ rfl
        exact owned_of_data (s := { s with size := n, data := some ⟨b, 0⟩ }) ho rfl
      · intro _ he
        have hend := (h.ended_iff hp hpb).mp he
        rw [hoff ho, List.drop_zero] at hend
        refine (htext.ended_iff rfl hown).mpr ?_
        change ((bytes.take n ++ _).drop 0).take (s.index + 1) = c ++ [0]
        rw [List.drop_zero, List.take_append_of_le_length (by simp; omega), List.take_take,
          Nat.min_eq_left (by omega), hend]

/-- What a string that grew looks like. -/
structure Grown (m : ByteMemory) (s : StringObject) (c : List UInt8) (size : ℕ)
    (m' : ByteMemory) (s' : StringObject) : Prop where
  text : s'.Text m' c
  owned : s'.ownData
  data : s'.data.isSome
  size_eq : s'.size = size
  index_eq : s'.index = s.index
  ended : s.data.isSome → s.Ended m → s'.Ended m'

theorem allocateMoreChunkIfNeeded_spec (h : s.Text m c) (he : s.ownData = false → s.Ended m)
    (hg : s.growth q = some len) (hpos : 0 < len) (hwrap : s.size + len < sizeRange) :
    ∃ r, s.allocateMoreChunkIfNeeded m q = some r ∧ s.Moves m r.memory r.object ∧
      r.memory.grants = m.grants.tail ∧
      ((r.ret = .error .enomem ∧ r.object = s ∧ r.memory.bytesAt = m.bytesAt ∧
          (m.request (s.size + len)).2 = false) ∨
        (r.ret = .ok 0 ∧ (m.request (s.size + len)).2 = true ∧
          s.Grown m c (s.size + len) r.memory r.object)) := by
  have hlt : s.index < s.size + len := by
    cases hp : s.data with
    | none =>
      have := (h.nil hp).2.1
      omega
    | some p =>
      rcases h.buffer hp with ⟨-, -, -, hlt, -⟩
      omega
  unfold allocateMoreChunkIfNeeded
  simp only [hg, Option.bind_eq_bind, Option.bind_some,
    if_neg (by omega : ¬sizeRange ≤ s.size + len),
    Option.pure_def]
  by_cases ho : s.ownData
  · rw [if_pos ho]
    rcases reallocData_spec h ho hlt with ⟨m', ob, hr, hgr, ⟨rfl, hbytes, hlim, hreq⟩ |
      ⟨b, rfl, hreq, hmoves, htext, hend⟩⟩
    · rw [hr]
      exact ⟨_, rfl, .of_bytesAt hbytes hlim rfl rfl, hgr, .inl ⟨rfl, rfl, hbytes, hreq⟩⟩
    · rw [hr]
      exact ⟨_, rfl, hmoves, hgr, .inr ⟨rfl, hreq, htext, ho, rfl, rfl, rfl, hend⟩⟩
  · have hfalse : s.ownData = false := by simpa using ho
    rw [if_neg ho]
    rcases makeStringOwn_spec h (he hfalse) (owned_of_borrowed hfalse) hlt with
      ⟨r, hr, hmoves, hgr, hret | ⟨hret, hreq, htext, hown, hdata, hsize, hindex, hend⟩⟩
    · exact ⟨r, hr, hmoves, hgr, .inl hret⟩
    · exact ⟨r, hr, hmoves, hgr,
        .inr ⟨hret, hreq, htext, hown, hdata, hsize, hindex, fun hs _ => hend hs⟩⟩

end StringObject

end LibPrelude
