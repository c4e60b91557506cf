import LibPrelude.String.Calls

/-! # Runs of string calls

The representation invariant holds in every world that is reached by calls which
their callers may make and which meet none of the defects of the source.
-/

namespace LibPrelude

variable {w w' : StringWorld} {call : StringCall} {ret : Except ErrorCode ℕ} {i : ℕ}

namespace StringWorld

theorem callDepth_eq : callDepth = (callDepth - 2) + 2 := by
  norm_num [callDepth, addressSpace]

theorem ends_ncat {str : List UInt8} {len : ℕ} (hw : w.Good)
    (hu : (StringCall.ncat i str len).Used w)
    (ha : (StringCall.ncat i str len).Alone w) (hs : (StringCall.ncat i str len).Safe w) :
    w.Ends (.ncat i str len) (w.on i fun m s => s.ncat callDepth m str len) := by
  rcases hu with ⟨hi, hlen, hstr⟩
  rcases Option.isSome_iff_exists.mp hi with ⟨s, hi⟩
  rcases hw.wellFormed i s hi with ⟨⟨c, hc⟩, he⟩
  by_cases hroom : s.ownData = false ∧ len + 1 < s.size - s.index
  · rcases StringObject.ncat_underflow (callDepth - 1) str ⟨hc, he⟩ hw.small
      hw.limit hroom.1 hroom.2 with ⟨-, hg⟩ | ⟨r, e, hr, hmoves, -, hobj, hbytes⟩
    · exact absurd hg (hs s hi hroom.1 hroom.2)
    · refine hw.on hi ha hr hmoves ?_ rfl
      rw [hobj]
      exact ⟨⟨c, hc.congr fun b _ => by rw [hbytes]⟩, he.congr fun b _ => by rw [hbytes]⟩
  · rw [callDepth_eq]
    rcases StringObject.ncat_spec (k := callDepth - 2) ⟨hc, he⟩ hw.small hw.limit hlen hstr
      (fun ho => by by_contra hlt; exact hroom ⟨ho, by omega⟩) with
      ⟨r, hr, hmoves, ⟨-, hobj, hbytes, -⟩ | ⟨-, htext, hend⟩⟩
    · refine hw.on hi ha hr hmoves ?_ rfl
      rw [hobj]
      exact ⟨⟨c, hc.congr fun b _ => by rw [hbytes]⟩, he.congr fun b _ => by rw [hbytes]⟩
    · exact hw.on hi ha hr hmoves ⟨⟨_, htext⟩, hend⟩ rfl

theorem ends_vprintf {text : List UInt8} (hw : w.Good) (hu : (StringCall.vprintf i text).Used w)
    (ha : (StringCall.vprintf i text).Alone w) (hs : (StringCall.vprintf i text).Safe w) :
    w.Ends (.vprintf i text) (w.on i fun m s => s.vprintf callDepth m text) := by
  rcases Option.isSome_iff_exists.mp hu with ⟨s, hi⟩
  rcases hw.wellFormed i s hi with ⟨⟨c, hc⟩, he⟩
  rw [callDepth_eq]
  rcases StringObject.vprintf_spec (k := callDepth - 2) ⟨hc, he⟩ hw.small hw.limit hs.1 with
    ⟨r, hr, hmoves, ⟨-, ⟨htext, hend⟩, -⟩ | ⟨-, ⟨htext, hend⟩, -⟩ |
      ⟨-, hcut, hgranted, hrefused, htext, hend⟩⟩
  · exact hw.on hi ha hr hmoves ⟨⟨_, htext⟩, hend⟩ rfl
  · exact hw.on hi ha hr hmoves ⟨⟨_, htext⟩, hend⟩ rfl
  · refine hw.on hi ha hr hmoves ⟨⟨_, htext⟩, hend.mpr ?_⟩ rfl
    by_contra hnot
    rw [not_or] at hnot
    exact hs.2 s hi ⟨hcut, by omega, hnot.2, hgranted, hrefused⟩

theorem Good.ends (hw : w.Good) (hu : call.Used w) (ha : call.Alone w) (hs : call.Safe w) :
    w.Ends call (w.call call) := by
  cases call with
  | buffer bytes => exact ends_buffer hw hu
  | new =>
    rcases preludeStringNew_spec hw fun w _ => some (w, .ok 0) with
      ⟨w₁, hw₁, hbytes, -, hrun | ⟨hrun, -⟩⟩
    · exact ⟨w₁, _, hrun, hw₁, .of_bytesAt hbytes⟩
    · exact ⟨w₁, _, hrun, hw₁, .of_bytesAt hbytes⟩
  | newDupFast str len => exact ends_newDupFast hw hu
  | newNodupFast b len => exact ends_newNodupFast hw hu.1 hu.2
  | newRefFast p len => exact ends_newRefFast hw hu
  | ref i =>
    rcases Option.isSome_iff_exists.mp hu with ⟨s, hi⟩
    exact ends_ref hw hi
  | clone src =>
    rcases Option.isSome_iff_exists.mp hu with ⟨s, hi⟩
    exact ends_clone hw hi
  | setDupFast i str len =>
    rcases Option.isSome_iff_exists.mp hu.1 with ⟨s, hi⟩
    rcases StringObject.setDupFast_spec (hw.wellFormed i s hi) hu.2 with ⟨r, hr, hmoves, hwf⟩
    change w.Ends (.setDupFast i str len) (w.on i fun m s => s.setDupFast m str len)
    exact hw.on hi ha hr hmoves hwf rfl
  | setNodupFast i b len =>
    rcases Option.isSome_iff_exists.mp hu.1 with ⟨s, hi⟩
    exact ends_setNodupFast hw hi ha hu.2.1 hu.2.2 rfl
  | setRefFast i p len =>
    rcases Option.isSome_iff_exists.mp hu.1 with ⟨s, hi⟩
    rcases StringObject.setRefFast_spec (hw.wellFormed i s hi) hu.2.1
      (fun ho => hu.2.2 ⟨s, hi, ho⟩) with ⟨r, hr, hmoves, hwf⟩
    change w.Ends (.setRefFast i p len) (w.on i fun m s => s.setRefFast m p len)
    exact hw.on hi ha hr hmoves hwf rfl
  | copyRef src dst =>
    rcases Option.isSome_iff_exists.mp hu.2 with ⟨s, hi⟩
    exact ends_copyRef hw hi hu.1 ha rfl
  | copyDup src dst =>
    rcases Option.isSome_iff_exists.mp hu.2 with ⟨s, hi⟩
    exact ends_copyDup hw hi hu.1 ha rfl hs
  | ncat i str len => exact ends_ncat hw hu ha hs
  | vprintf i text => exact ends_vprintf hw hu ha hs
  | truncate i len =>
    rcases Option.isSome_iff_exists.mp hu with ⟨s, hi⟩
    exact ends_truncate hw hi (hs s hi) rfl fun h => .inr (by rw [h])
  | clear i =>
    rcases Option.isSome_iff_exists.mp hu with ⟨s, hi⟩
    exact ends_truncate hw hi (fun _ h => absurd h (lt_irrefl 0)) rfl fun _ => .inl rfl
  | getStringReleased i =>
    rcases Option.isSome_iff_exists.mp hu with ⟨s, hi⟩
    exact ends_getStringReleased hw hi ha rfl
  | destroy i =>
    rcases Option.isSome_iff_exists.mp hu with ⟨s, hi⟩
    exact ends_destroy hw hi (ha s hi) rfl

def start (grants : List Bool) (junk : UInt8) : StringWorld :=
  ⟨⟨[], grants, addressSpace, junk⟩, [], []⟩

inductive Reached : StringWorld → Prop
  | start (grants : List Bool) (junk : UInt8) : Reached (start grants junk)
  | call {w w' : StringWorld} {call : StringCall} {ret : Except ErrorCode ℕ} : Reached w →
      call.Used w → call.Alone w → call.Safe w → w.call call = some (w', ret) → Reached w'

theorem good_start (grants : List Bool) (junk : UInt8) : (start grants junk).Good := by
  have hobj : ∀ i, (start grants junk).object i = none := fun _ => rfl
  have hnone : ∀ b, (start grants junk).memory.bytesAt b = none := fun _ => rfl
  constructor
  · intro i s hs
    simp [hobj] at hs
  · intro b hb
    cases hb
  · exact List.nodup_nil
  · rintro i b ⟨s, hs, -⟩
    simp [hobj] at hs
  · rintro i j b ⟨s, hs, -⟩
    simp [hobj] at hs
  · intro b bytes hb
    simp [hnone] at hb
  · intro b bytes hb
    simp [hnone] at hb
  · exact le_rfl

theorem Reached.good (h : Reached w) : w.Good := by
  induction h with
  | start grants junk => exact good_start grants junk
  | call _ hu ha hs hrun hw =>
    rcases hw.ends hu ha hs with ⟨w₁, ret, hrun', hgood, -⟩
    rw [hrun, Option.some.injEq, Prod.mk.injEq] at hrun'
    exact hrun'.1 ▸ hgood

/-- In every reached world the strings are well formed, a buffer has one owner, and a call that
meets no defect ends and touches no block but the one that its string owns. -/
theorem string_invariant (h : Reached w) :
    w.Good ∧ ∀ call : StringCall, call.Used w → call.Alone w → call.Safe w →
      ∃ w' ret, w.call call = some (w', ret) ∧ w'.Good ∧ w.Frame call w' :=
  ⟨h.good, fun _ hu ha hs => h.good.ends hu ha hs⟩

theorem unshared_single {m : ByteMemory} {caller : List ℕ} :
    (⟨m, [some s], caller⟩ : StringWorld).Unshared 0 := by
  intro b _ j hj t ht
  rw [object, List.getElem?_eq_none (by simp; omega)] at ht
  cases ht

def borrowedText : StringWorld :=
  ⟨⟨[some [97, 98, 0]], [], addressSpace, 0⟩, [some ⟨true, false, 1, some ⟨0, 0⟩, 3, 2⟩], [0]⟩

theorem reached_borrowedText : Reached borrowedText := by
  have hu : (StringCall.buffer [97, 98, 0]).Used (start [] 0) :=
    (by decide : (3 : ℕ) ≤ 2 ^ 48)
  have h₁ : Reached ((start [] 0).buffer [97, 98, 0]) :=
    .call (.start [] 0) hu trivial trivial rfl
  have hu' : (StringCall.newRefFast ⟨0, 0⟩ 2).Used ((start [] 0).buffer [97, 98, 0]) :=
    ⟨[97, 98, 0], rfl, by decide⟩
  exact .call h₁ hu' trivial trivial rfl

theorem string_invariant_borrowed : borrowedText.Good ∧
    ∀ call : StringCall, call.Used borrowedText → call.Alone borrowedText →
      call.Safe borrowedText → ∃ w' ret, borrowedText.call call = some (w', ret) ∧ w'.Good ∧
        borrowedText.Frame call w' :=
  string_invariant reached_borrowedText

/-- The copy of the text does not fit into the empty block that is made for it. -/
theorem string_invariant_truncate : Reached borrowedText ∧
    (StringCall.truncate 0 1).Used borrowedText ∧ (StringCall.truncate 0 1).Alone borrowedText ∧
    borrowedText.call (.truncate 0 1) = none :=
  ⟨reached_borrowedText, rfl, trivial, rfl⟩

end StringWorld

end LibPrelude
