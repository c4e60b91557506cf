import LibPrelude.Common.Lists
import LibPrelude.Idmef.PathSet

/-! # Positions in listed children

A listed child is looked up and made by a position that counts from the front, or from the
back when it is negative, where -1 is the last element. What is looked up is what is made,
and a position that is one past an end makes a new element there.
-/

namespace LibPrelude

def nth {α : Type*} (l : List α) (which : ℤ) : Option α :=
  if 0 ≤ which then l[which.toNat]? else l.reverse[(-which - 1).toNat]?

namespace Links

variable {α : Type*} [DecidableEq α] {s s' : Links α} {head x y : α} {l : List α} {n pos : ℤ}
  {fuel : ℕ}

def listGetNth (s : Links α) (fuel : ℕ) (head : α) (which : ℤ) : Option (Option α) :=
  let r :=
    if 0 ≤ which then
      s.preludeListForEach head (fun tmp cnt => if cnt = which then .inr tmp else .inl (cnt + 1))
        fuel (0 : ℤ)
    else
      s.preludeListForEachReversed head
        (fun tmp cnt => if cnt - 1 = which then .inr tmp else .inl (cnt - 1)) fuel (0 : ℤ)
  r.map fun r => r.elim (fun _ => none) some

/-- The loops that look for a position leave the head when they do not find it. -/
def listInsert (s : Links α) (fuel : ℕ) (head item : α) (pos : ℤ) : Option (Links α) :=
  if pos = idmefListAppend then some (s.preludeListAddTail head item)
  else if pos = idmefListPrepend then some (s.preludeListAdd head item)
  else if 0 ≤ pos then
    (s.preludeListForEach head (fun tmp i => if i = pos then .inr tmp else .inl (i + 1)) fuel
      (0 : ℤ)).map fun r => s.preludeListAddTail (r.elim (fun _ => head) id) item
  else
    (s.preludeListForEachReversed head
      (fun tmp i => if i = -pos - 1 then .inr tmp else .inl (i + 1)) fuel (0 : ℤ)).map
      fun r => s.preludeListAdd (r.elim (fun _ => head) id) item

/-- The new object of a listed field, unless it cannot be made. -/
def structNewField (new : Except ErrorCode α) (s : Links α) (fuel : ℕ) (head : α) (pos : ℤ) :
    Option (Except ErrorCode α × Links α) :=
  match new with
  | .error e => some (.error e, s)
  | .ok item => (s.listInsert fuel head item pos).map fun s => (.ok item, s)

/-- The case of a listed field. -/
def structNewChild (new : Except ErrorCode α) (s : Links α) (fuel : ℕ) (head : α) (n : ℤ) :
    Option (Except ErrorCode α × Links α) :=
  if n = idmefListAppend ∨ n = idmefListPrepend then structNewField new s fuel head n
  else if 0 ≤ n then
    match s.preludeListForEach head (fun tmp i => if i = n then .inr tmp else .inl (i + 1)) fuel
      (0 : ℤ) with
    | none => none
    | some (.inr tmp) => some (.ok tmp, s)
    | some (.inl i) =>
      if i ≠ n then some (.error .idmefTreeIndexUndefined, s)
      else structNewField new s fuel head n
  else
    let pos := -n - 1
    match s.preludeListForEachReversed head
      (fun tmp i => if i = pos then .inr tmp else .inl (i + 1)) fuel (0 : ℤ) with
    | none => none
    | some (.inr tmp) => some (.ok tmp, s)
    | some (.inl i) =>
      if i ≠ pos then some (.error .idmefTreeIndexUndefined, s)
      else structNewField new s fuel head n

omit [DecidableEq α] in
theorem visit_up (hpos : 0 ≤ pos) (l : List α) :
    visit (fun tmp (i : ℤ) => if i = pos then .inr tmp else .inl (i + 1)) l 0 =
      (l[pos.toNat]?).elim (.inl (l.length : ℤ)) .inr :=
  visit_at (c := fun m => (m : ℤ)) (fun m hm _ => if_neg (by omega)) (fun _ => if_pos (by omega)) l

omit [DecidableEq α] in
theorem visit_down (hpos : pos < 0) (l : List α) :
    visit (fun tmp (cnt : ℤ) => if cnt - 1 = pos then .inr tmp else .inl (cnt - 1)) l 0 =
      (l[(-pos - 1).toNat]?).elim (.inl (-l.length : ℤ)) .inr := by
  refine visit_at (c := fun m => -(m : ℤ)) (fun m hm _ => ?_) (fun _ => if_pos (by omega)) l
  rw [if_neg (by omega), Nat.cast_succ, neg_add']

theorem listGetNth_ring (h : s.Ring head l) (hfuel : l.length < fuel) (which : ℤ) :
    s.listGetNth fuel head which = some (nth l which) := by
  unfold listGetNth nth
  split_ifs with hwhich
  · rw [preludeListForEach, h.loop_next hfuel, visit_up hwhich]
    cases l[which.toNat]? <;> rfl
  · rw [preludeListForEachReversed, h.loop_prev hfuel, visit_down (by omega)]
    cases l.reverse[(-which - 1).toNat]? <;> rfl

/-- The number of elements in front of what is inserted. -/
def insertPosition (length : ℕ) (pos : ℤ) : ℕ :=
  if pos = idmefListAppend then length
  else if pos = idmefListPrepend then 0
  else if 0 ≤ pos then min pos.toNat length
  else length - (-pos - 1).toNat

theorem addTail_at (h : s.Ring head l) (hx : x ∉ head :: l) (i : ℕ) :
    (s.preludeListAddTail (l[i]?.getD head) x).Ring head
      (l.take (min i l.length) ++ x :: l.drop (min i l.length)) := by
  by_cases hi : i < l.length
  · rw [List.getElem?_eq_getElem hi, Option.getD_some, min_eq_left hi.le,
      List.drop_eq_getElem_cons hi]
    have hsplit : l = l.take i ++ l[i] :: l.drop (i + 1) := by
      rw [← List.drop_eq_getElem_cons hi, List.take_append_drop]
    exact addTail_item (hsplit ▸ h) (hsplit ▸ hx)
  · rw [List.getElem?_eq_none (by omega), Option.getD_none, min_eq_right (by omega),
      List.take_length, List.drop_length]
    exact addTail_head h hx

theorem add_at (h : s.Ring head l) (hx : x ∉ head :: l) (i : ℕ) :
    (s.preludeListAdd (l.reverse[i]?.getD head) x).Ring head
      (l.take (l.length - i) ++ x :: l.drop (l.length - i)) := by
  by_cases hi : i < l.length
  · have hj : l.length - 1 - i < l.length := by omega
    have hsucc : l.length - i = l.length - 1 - i + 1 := by omega
    rw [List.getElem?_reverse hi, List.getElem?_eq_getElem hj, Option.getD_some, hsucc,
      List.take_succ_eq_append_getElem hj, List.append_assoc]
    have hsplit : l = l.take (l.length - 1 - i) ++ l[l.length - 1 - i] ::
        l.drop (l.length - 1 - i + 1) := by
      rw [← List.drop_eq_getElem_cons hj, List.take_append_drop]
    exact add_item (hsplit ▸ h) (hsplit ▸ hx)
  · rw [List.getElem?_eq_none (by simpa using hi), Option.getD_none,
      Nat.sub_eq_zero_of_le (by omega)]
    exact add_head h hx

theorem listInsert_ring (h : s.Ring head l) (hx : x ∉ head :: l) (hfuel : l.length < fuel)
    (pos : ℤ) :
    ∃ s', s.listInsert fuel head x pos = some s' ∧
      s'.Ring head (l.take (insertPosition l.length pos) ++ x ::
        l.drop (insertPosition l.length pos)) := by
  unfold listInsert insertPosition
  split_ifs with happend hprepend hpos
  · refine ⟨_, rfl, ?_⟩
    rw [List.take_length, List.drop_length]
    exact addTail_head h hx
  · exact ⟨_, rfl, add_head h hx⟩
  · rw [preludeListForEach, h.loop_next hfuel, visit_up hpos]
    refine ⟨_, rfl, ?_⟩
    have hput := addTail_at h hx pos.toNat
    cases hget : l[pos.toNat]? <;> rwa [hget] at hput
  · rw [preludeListForEachReversed, h.loop_prev hfuel, visit_up (by omega)]
    refine ⟨_, rfl, ?_⟩
    have hput := add_at h hx (-pos - 1).toNat
    cases hget : l.reverse[(-pos - 1).toNat]? <;> rwa [hget] at hput

theorem structNewChild_ring (h : s.Ring head l) (hfuel : l.length < fuel)
    (new : Except ErrorCode α) (n : ℤ) :
    structNewChild new s fuel head n =
      if n = idmefListAppend ∨ n = idmefListPrepend then structNewField new s fuel head n
      else
        match nth l n with
        | some y => some (.ok y, s)
        | none =>
          if OnePast l.length n then structNewField new s fuel head n
          else some (.error .idmefTreeIndexUndefined, s) := by
  by_cases hmark : n = idmefListAppend ∨ n = idmefListPrepend
  · rw [structNewChild, if_pos hmark, if_pos hmark]
  · rw [structNewChild, if_neg hmark, if_neg hmark, nth]
    by_cases hn : 0 ≤ n
    · rw [if_pos hn, if_pos hn, preludeListForEach, h.loop_next hfuel, visit_up hn]
      cases hget : l[n.toNat]? with
      | some y => rfl
      | none =>
        have hlen := List.getElem?_eq_none_iff.mp hget
        have hpast : OnePast l.length n ↔ ¬ (l.length : ℤ) ≠ n := by
          unfold OnePast
          omega
        simp only [hpast, ite_not]
        rfl
    · rw [if_neg hn, if_neg hn]
      dsimp only [preludeListForEachReversed]
      rw [h.loop_prev hfuel, visit_up (by omega), List.length_reverse]
      cases hget : l.reverse[(-n - 1).toNat]? with
      | some y => rfl
      | none =>
        have hlen := List.getElem?_eq_none_iff.mp hget
        rw [List.length_reverse] at hlen
        have hpast : OnePast l.length n ↔ ¬ (l.length : ℤ) ≠ -n - 1 := by
          unfold OnePast
          omega
        simp only [hpast, ite_not]
        rfl

theorem insertPosition_back {length : ℕ} (hn : n = length) (hmark : n ≠ idmefListPrepend) :
    insertPosition length n = length := by
  unfold insertPosition
  split_ifs <;> omega

theorem insertPosition_front {length : ℕ} (hn : n = -length - 1) :
    insertPosition length n = 0 := by
  unfold insertPosition idmefListAppend
  split_ifs <;> omega

omit [DecidableEq α] in
theorem nth_back (hn : n = l.length ∨ n = -1) : nth (l ++ [x]) n = some x := by
  rcases hn with rfl | rfl
  · rw [nth, if_pos (by omega)]
    simp
  · rw [nth, if_neg (by omega)]
    simp

omit [DecidableEq α] in
theorem nth_front (hn : n = -l.length - 1 ∨ n = 0) : nth (x :: l) n = some x := by
  rcases hn with rfl | rfl
  · rw [nth, if_neg (by omega)]
    simp
  · rw [nth, if_pos le_rfl]
    rfl

omit [DecidableEq α] in
theorem nth_onePast (hn : OnePast l.length n) : nth l n = none := by
  unfold nth
  rcases hn with rfl | rfl
  · rw [if_pos (by omega)]
    exact List.getElem?_eq_none (by omega)
  · rw [if_neg (by omega)]
    exact List.getElem?_eq_none (by rw [List.length_reverse]; omega)

theorem structNewField_ring (h : s.Ring head l) (hx : x ∉ head :: l) (hfuel : l.length < fuel) :
    ∃ s', structNewField (.ok x) s fuel head n = some (.ok x, s') ∧
      (n = idmefListAppend ∨ n ≠ idmefListPrepend ∧ n = l.length → s'.Ring head (l ++ [x])) ∧
      (n = idmefListPrepend ∨ n = -l.length - 1 → s'.Ring head (x :: l)) := by
  obtain ⟨s', hinsert, hring⟩ := listInsert_ring h hx hfuel n
  refine ⟨s', by rw [structNewField, hinsert, Option.map_some], fun hn => ?_, fun hn => ?_⟩
  · have hback : insertPosition l.length n = l.length := by
      rcases hn with rfl | ⟨hmark, hn⟩
      · exact if_pos rfl
      · exact insertPosition_back hn hmark
    rwa [hback, List.take_length, List.drop_length] at hring
  · have hfront : insertPosition l.length n = 0 := by
      rcases hn with rfl | hn
      · rfl
      · exact insertPosition_front hn
    rwa [hfront] at hring

/-- What is there is returned, one past an end and at the marks for the ends a new object is put,
where it is found again, and nothing else changes the list. -/
theorem structNewChild_agrees (h : s.Ring head l) (hx : x ∉ head :: l)
    (hfuel : l.length + 1 < fuel) (n : ℤ) :
    ∃ r s', structNewChild (.ok x) s fuel head n = some (r, s') ∧
      (n ≠ idmefListAppend → n ≠ idmefListPrepend →
        (∀ y, s.listGetNth fuel head n = some (some y) → r = .ok y ∧ s' = s) ∧
        (n = l.length → r = .ok x ∧ s'.Ring head (l ++ [x]) ∧
          s'.listGetNth fuel head n = some (some x)) ∧
        (n = -(l.length + 1) → r = .ok x ∧ s'.Ring head (x :: l) ∧
          s'.listGetNth fuel head n = some (some x)) ∧
        (s.listGetNth fuel head n = some none → n ≠ l.length → n ≠ -(l.length + 1) →
          (∃ e, r = .error e) ∧ s' = s)) ∧
      (n = idmefListAppend → r = .ok x ∧ s'.Ring head (l ++ [x]) ∧
        s'.listGetNth fuel head (-1) = some (some x)) ∧
      (n = idmefListPrepend → r = .ok x ∧ s'.Ring head (x :: l) ∧
        s'.listGetNth fuel head 0 = some (some x)) := by
  have hfuel' : l.length < fuel := by omega
  obtain ⟨t, hnew, hback, hfront⟩ := structNewField_ring (n := n) h hx hfuel'
  have hlast {m : ℤ} (hm : m = l.length ∨ m = -1) (ht : t.Ring head (l ++ [x])) :
      t.listGetNth fuel head m = some (some x) := by
    rw [listGetNth_ring ht (by simpa using hfuel), nth_back hm]
  have hfirst {m : ℤ} (hm : m = -l.length - 1 ∨ m = 0) (ht : t.Ring head (x :: l)) :
      t.listGetNth fuel head m = some (some x) := by
    rw [listGetNth_ring ht (by simpa using hfuel), nth_front hm]
  rw [structNewChild_ring h hfuel', listGetNth_ring h hfuel', hnew]
  by_cases hmark : n = idmefListAppend ∨ n = idmefListPrepend
  · rw [if_pos hmark]
    refine ⟨_, _, rfl, fun happend hprepend => ?_, fun hn => ?_, fun hn => ?_⟩
    · exact absurd hmark (not_or.mpr ⟨happend, hprepend⟩)
    · exact ⟨rfl, hback (.inl hn), hlast (.inr rfl) (hback (.inl hn))⟩
    · exact ⟨rfl, hfront (.inl hn), hfirst (.inr rfl) (hfront (.inl hn))⟩
  · obtain ⟨happend, hprepend⟩ := not_or.mp hmark
    rw [if_neg hmark]
    by_cases hpast : OnePast l.length n
    · rw [nth_onePast hpast]
      simp only [if_pos hpast]
      refine ⟨_, _, rfl, fun _ _ => ⟨nofun, fun hn => ?_, fun hn => ?_, fun _ hl hr => ?_⟩,
        fun hn => absurd hn happend, fun hn => absurd hn hprepend⟩
      · exact ⟨rfl, hback (.inr ⟨hprepend, hn⟩), hlast (.inl hn) (hback (.inr ⟨hprepend, hn⟩))⟩
      · have hn' : n = -l.length - 1 := by omega
        exact ⟨rfl, hfront (.inr hn'), hfirst (.inl hn') (hfront (.inr hn'))⟩
      · unfold OnePast at hpast
        omega
    · have hl : n ≠ l.length := fun hn => hpast (.inl hn)
      have hr : n ≠ -(l.length + 1) := fun hn => hpast (.inr (by omega))
      simp only [if_neg hpast]
      cases hnth : nth l n with
      | some y =>
        refine ⟨_, _, rfl, fun _ _ => ⟨fun z hz => ?_, fun hn => absurd hn hl,
          fun hn => absurd hn hr, nofun⟩, fun hn => absurd hn happend, fun hn => absurd hn hprepend⟩
        simp only [Option.some.injEq] at hz
        exact ⟨congrArg _ hz, rfl⟩
      | none =>
        exact ⟨_, _, rfl, fun _ _ => ⟨nofun, fun hn => absurd hn hl, fun hn => absurd hn hr,
          fun _ _ _ => ⟨⟨_, rfl⟩, rfl⟩⟩, fun hn => absurd hn happend, fun hn => absurd hn hprepend⟩

theorem structNewChild_front :
    ∃ r s', structNewChild (.ok 2) (((Links.mk id id).single 0).preludeListAddTail 0 1) 3 0 (-2) =
        some (r, s') ∧
      r = .ok 2 ∧ s'.Ring 0 [2, 1] ∧ s'.listGetNth 3 0 (-2) = some (some 2) := by
  have hring := addTail_head (x := 1) (Ring.single (Links.mk id id) 0) (by decide)
  have hfresh : 2 ∉ [0, 1] := by decide
  have hfuel : [1].length + 1 < 3 := by decide
  obtain ⟨r, s', hnew, hn, -⟩ := structNewChild_agrees hring hfresh hfuel (-2)
  exact ⟨r, s', hnew, (hn (by decide) (by decide)).2.2.1 rfl⟩

omit [DecidableEq α] in
theorem nth_listPosition (l : List α) (n : ℤ) :
    nth l n = (listPosition l.length n).bind (l[·]?) := by
  unfold nth listPosition
  split_ifs with hn hl hl
  · rfl
  · exact List.getElem?_eq_none (by omega)
  · rw [List.getElem?_reverse (by omega), Option.bind_some]
    congr 1
    omega
  · exact List.getElem?_eq_none (by rw [List.length_reverse]; omega)

theorem map_set_nodup {γ : Type*} (f : α → γ) (hl : l.Nodup) {i : ℕ} (hi : i < l.length) (o : γ) :
    (l.map f).set i o = l.map (Function.update f l[i] o) := by
  refine List.ext_getElem (by simp) fun j hj _ => ?_
  rw [List.getElem_set, List.getElem_map, List.getElem_map, Function.update_apply]
  have hj' : j < l.length := by simpa using hj
  simp only [hl.getElem_inj_iff, eq_comm]

theorem map_update_of_notMem {γ : Type*} (f : α → γ) (hx : x ∉ l) (o : γ) :
    l.map (Function.update f x o) = l.map f :=
  List.map_congr_left fun _ hy => Function.update_of_ne (ne_of_mem_of_not_mem hy hx) o f

/-- The nodes of a listed child hold the objects of the list that a set of a path works on. -/
theorem structNewChild_newListed (obj : α → Obj) (now : IdmefTime) (c : Child)
    (h : s.Ring head l) (hx : x ∉ head :: l) (hfuel : l.length < fuel)
    (hobj : obj x = newObject now c) (n : ℤ) :
    match newListed now c n (l.map obj) with
    | .error e => structNewChild (.ok x) s fuel head n = some (.error e, s)
    | .ok slot => ∃ y s' l', structNewChild (.ok x) s fuel head n = some (.ok y, s') ∧
        s'.Ring head l' ∧
        slot = .object (obj y) fun o => .list (l'.map (Function.update obj y o)) := by
  have hxl : x ∉ l := List.not_mem_of_not_mem_cons hx
  obtain ⟨t, hnew, hback, hfront⟩ := structNewField_ring (n := n) h hx hfuel
  have hlast : Slot.object (newObject now c) (fun o => .list (l.map obj ++ [o])) =
      .object (obj x) fun o => .list ((l ++ [x]).map (Function.update obj x o)) := by
    simp only [hobj, List.map_append, map_update_of_notMem obj hxl, List.map_cons,
      Function.update_self, List.map_nil]
  have hfirst : Slot.object (newObject now c) (fun o => .list (o :: l.map obj)) =
      .object (obj x) fun o => .list ((x :: l).map (Function.update obj x o)) := by
    simp only [hobj, map_update_of_notMem obj hxl, List.map_cons, Function.update_self]
  rw [structNewChild_ring h hfuel, nth_listPosition, hnew, newListed, List.length_map]
  by_cases happend : n = idmefListAppend
  · rw [if_pos happend, if_pos (.inl happend)]
    exact ⟨x, t, l ++ [x], rfl, hback (.inl happend), hlast⟩
  by_cases hprepend : n = idmefListPrepend
  · rw [if_neg happend, if_pos hprepend, if_pos (.inr hprepend)]
    exact ⟨x, t, x :: l, rfl, hfront (.inl hprepend), hfirst⟩
  rw [if_neg happend, if_neg hprepend, if_neg (not_or.mpr ⟨happend, hprepend⟩)]
  cases hpos : listPosition l.length n with
  | some i =>
    have hi : i < l.length := by
      unfold listPosition at hpos
      split_ifs at hpos <;> simp only [Option.some.injEq] at hpos <;> omega
    simp only [Option.bind_some, List.getElem?_map, List.getElem?_eq_getElem hi, Option.map_some]
    refine ⟨l[i], s, l, rfl, h, ?_⟩
    simp only [map_set_nodup obj (List.nodup_cons.mp h.nodup).2 hi]
  | none =>
    simp only [Option.bind_none]
    by_cases hl : n = l.length
    · rw [if_pos hl, if_pos (.inl hl)]
      exact ⟨x, t, l ++ [x], rfl, hback (.inr ⟨hprepend, hl⟩), hlast⟩
    by_cases hr : n = -l.length - 1
    · rw [if_neg hl, if_pos hr, if_pos (.inr hr)]
      exact ⟨x, t, x :: l, rfl, hfront (.inr hr), hfirst⟩
    · have hpast : ¬ OnePast l.length n := not_or.mpr ⟨hl, hr⟩
      simp only [if_neg hl, if_neg hr, if_neg hpast]

end Links

end LibPrelude
