import LibPrelude.Idmef.Object

/-! # Destroying a child

The generated function is one switch with a case for each child. The case of a
list walks the list in one of two directions; when the walk ends one element
short of the index it neither returns nor breaks, and control reaches the case of
the next child with the same index.
-/

namespace LibPrelude

inductive Outcome where
  | returns (ret : Ret) (f : Field)
  | fallsThrough

def destroyNth : ℕ → List Obj → Option (List Obj)
  | _, [] => none
  | 0, o :: os => some ((destroyListed o).toList ++ os)
  | n + 1, o :: os => (destroyNth n os).map (o :: ·)

/-- The case of a list; with a negative index, -1 is the last element. -/
def destroyListCase (n : ℤ) (l : List Obj) : Outcome :=
  if 0 ≤ n then
    match destroyNth n.toNat l with
    | some l' => .returns (.ok ()) (.list l')
    | none =>
      if (l.length : ℤ) ≠ n then .returns (.error .idmefTreeIndexUndefined) (.list l)
      else .fallsThrough
  else
    let pos := -n - 1
    match destroyNth pos.toNat l.reverse with
    | some l' => .returns (.ok ()) (.list l'.reverse)
    | none =>
      if (l.length : ℤ) ≠ pos then .returns (.error .idmefTreeIndexUndefined) (.list l)
      else .fallsThrough

/-- The case of one child; a float, which is the last field of its class, has none. -/
def destroyCase (c : Child) (n : ℤ) : Field → Outcome
  | .scalar isSet val =>
    match c.type with
    | .optionalInt _ | .optionalEnum _ => .returns (.ok ()) (.scalar false val)
    | .float => .fallsThrough
    | _ => .returns (.ok ()) (.scalar isSet 0)
  | .ptr _ => .returns (.ok ()) (.ptr none)
  | .list l => destroyListCase n l
  | .union var o =>
    if c.member.map Member.value ≠ some var then .returns (.ok ()) (.union var o)
    else .returns (.ok ()) (.union 0 none)

/-- The switch from one case on. -/
def destroyFrom (n : ℤ) (fs : List Field) : List Child → Ret × List Field
  | [] => (.error .idmefClassUnknownChild, fs)
  | c :: cs =>
    match fs[c.field]?.map (destroyCase c n) with
    | some (.returns ret f) => (ret, fs.set c.field f)
    | _ => destroyFrom n fs cs

def idmefClassDestroyChild (cls : IdmefClassId) (child : ℕ) (n : ℤ) (fs : List Field) :
    Ret × List Field :=
  destroyFrom n fs (cls.children.drop child)

/-- The position in a list that an index stands for. -/
def listPosition (length : ℕ) (n : ℤ) : Option ℕ :=
  if 0 ≤ n then if n < length then some n.toNat else none
  else if -n ≤ length then some (length + n).toNat else none

/-- The indices next to the first and the last element. -/
def OnePast (length : ℕ) (n : ℤ) : Prop := n = length ∨ n = -length - 1

instance (length : ℕ) (n : ℤ) : Decidable (OnePast length n) :=
  inferInstanceAs (Decidable (_ ∨ _))

theorem destroyNth_eq (n : ℕ) (l : List Obj) :
    destroyNth n l =
      if n < l.length then some (l.take n ++ (l[n]?.bind destroyListed).toList ++ l.drop (n + 1))
      else none := by
  induction l generalizing n with
  | nil => cases n <;> rfl
  | cons o os ih =>
    cases n with
    | zero => simp [destroyNth]
    | succ n =>
      rw [destroyNth, ih]
      by_cases h : n < os.length <;> simp [h]

theorem destroyNth_reverse {n : ℕ} {l : List Obj} (h : n < l.length) :
    (destroyNth n l.reverse).map List.reverse =
      some (l.take (l.length - 1 - n) ++ (l[l.length - 1 - n]?.bind destroyListed).toList ++
        l.drop (l.length - n)) := by
  rw [destroyNth_eq, if_pos (by simpa using h), Option.map_some, List.reverse_append,
    List.reverse_append, List.take_reverse, List.drop_reverse, List.reverse_reverse,
    List.reverse_reverse, List.getElem?_reverse h, List.append_assoc]
  have hd : (l[l.length - 1 - n]?.bind destroyListed).toList.reverse =
      (l[l.length - 1 - n]?.bind destroyListed).toList := by
    cases l[l.length - 1 - n]?.bind destroyListed <;> rfl
  rw [hd, Nat.sub_sub, Nat.add_comm 1 n]

theorem destroyListCase_eq (n : ℤ) (l : List Obj) :
    destroyListCase n l =
      match listPosition l.length n with
      | some i => .returns (.ok ())
          (.list (l.take i ++ (l[i]?.bind destroyListed).toList ++ l.drop (i + 1)))
      | none => if OnePast l.length n then .fallsThrough
          else .returns (.error .idmefTreeIndexUndefined) (.list l) := by
  unfold destroyListCase listPosition
  by_cases hn : 0 ≤ n
  · rw [if_pos hn, if_pos hn, destroyNth_eq]
    by_cases hl : n < l.length
    · rw [if_pos (by omega), if_pos hl]
    · rw [if_neg (by omega), if_neg hl]
      by_cases he : n = l.length
      · have hp : OnePast l.length n := Or.inl he
        simp only [if_pos hp]
        rw [if_neg (by omega)]
      · have hp : ¬ OnePast l.length n := by
          rintro (h | h) <;> omega
        simp only [if_neg hp]
        rw [if_pos (by omega)]
  · rw [if_neg hn, if_neg hn]
    by_cases hl : -n ≤ l.length
    · have hr := destroyNth_reverse (n := (-n - 1).toNat) (l := l) (by omega)
      have hi : l.length - 1 - (-n - 1).toNat = (l.length + n).toNat := by omega
      have hj : l.length - (-n - 1).toNat = (l.length + n).toNat + 1 := by omega
      rw [hi, hj] at hr
      obtain ⟨l', hl', hrev⟩ := Option.map_eq_some_iff.mp hr
      simp only [hl', if_pos hl, hrev]
    · have hnone : destroyNth (-n - 1).toNat l.reverse = none := by
        rw [destroyNth_eq, if_neg (by rw [List.length_reverse]; omega)]
      simp only [hnone, if_neg hl]
      by_cases he : (l.length : ℤ) = -n - 1
      · have hp : OnePast l.length n := Or.inr (by omega)
        rw [if_neg (by omega), if_pos hp]
      · have hp : ¬ OnePast l.length n := by
          rintro (h | h) <;> omega
        rw [if_pos he, if_neg hp]

/-- Whether, from one case on, the switch ends in an error without a change. -/
def FallsOut (n : ℤ) (fs : List Field) : List Child → Prop
  | [] => True
  | c :: cs =>
    match fs[c.field]? with
    | some (.list l) =>
      listPosition l.length n = none ∧ (OnePast l.length n → FallsOut n fs cs)
    | some (.scalar _ _) =>
      match c.type with
      | .float => FallsOut n fs cs
      | _ => False
    | some _ => False
    | none => FallsOut n fs cs

/-- A step that fails leaves everything as it was. -/
def FailsUnchanged (fs : List Field) (r : Ret × List Field) : Prop :=
  ∃ e, r = (.error e, fs)

theorem destroyFrom_fails (n : ℤ) (fs : List Field) (cs : List Child) :
    FailsUnchanged fs (destroyFrom n fs cs) ↔ FallsOut n fs cs := by
  induction cs with
  | nil => exact iff_of_true ⟨_, rfl⟩ trivial
  | cons c cs ih =>
    rw [destroyFrom, FallsOut]
    rcases hf : fs[c.field]? with _ | f
    · exact ih
    · cases f with
      | scalar isSet val =>
        cases ht : c.type <;>
          simp [destroyCase, ht, FailsUnchanged, ← ih]
      | ptr o => simp [destroyCase, FailsUnchanged]
      | list l =>
        have hset : fs.set c.field (.list l) = fs := by
          obtain ⟨h, hget⟩ := List.getElem?_eq_some_iff.mp hf
          rw [← hget, List.set_getElem_self]
        simp only [Option.map_some, destroyCase, destroyListCase_eq]
        rcases hp : listPosition l.length n with _ | i
        · by_cases ho : OnePast l.length n
          · simp [ho, ih]
          · simp [ho, hset, FailsUnchanged]
        · simp [FailsUnchanged]
      | union var o =>
        by_cases hv : c.member.map Member.value = some var <;>
          simp [destroyCase, hv, FailsUnchanged]

/-- What deleting the element with an index of a list is to do. -/
def Deletes (field : ℕ) (n : ℤ) (fs : List Field) (l : List Obj) (r : Ret × List Field) : Prop :=
  match listPosition l.length n with
  | some i => r = (.ok (), fs.set field (.list (l.eraseIdx i)))
  | none => FailsUnchanged fs r

/-- When it does so: an element that there is must not be referenced from elsewhere, and an index
next to the ends of the list must lead through the cases of the children that follow to an error. -/
def Deletable (n : ℤ) (fs : List Field) (l : List Obj) (next : List Child) : Prop :=
  match listPosition l.length n with
  | some i => ∀ o, l[i]? = some o → o.refcount ≤ 1
  | none => OnePast l.length n → FallsOut n fs next

theorem listPosition_lt {length i : ℕ} {n : ℤ} (h : listPosition length n = some i) :
    i < length := by
  unfold listPosition at h
  split_ifs at h <;> simp only [Option.some.injEq] at h <;> omega

theorem take_append_drop_eq_eraseIdx {l : List Obj} {i : ℕ} (hi : i < l.length) :
    l.take i ++ (l[i]?.bind destroyListed).toList ++ l.drop (i + 1) = l.eraseIdx i ↔
      ∀ o, l[i]? = some o → o.refcount ≤ 1 := by
  rw [List.getElem?_eq_getElem hi, List.eraseIdx_eq_take_drop_succ]
  simp only [Option.bind_some, Option.some.injEq, forall_eq']
  unfold destroyListed
  split_ifs with h
  · simp [h]
  · refine iff_of_false (fun he => ?_) h
    have hlen := congrArg List.length he
    simp only [List.length_append, Option.toList_some, List.length_singleton] at hlen
    omega

theorem set_list_inj {fs : List Field} {i : ℕ} {l l' : List Obj} (h : i < fs.length) :
    fs.set i (.list l) = fs.set i (.list l') ↔ l = l' := by
  refine ⟨fun he => ?_, fun he => by rw [he]⟩
  have hget := congrArg (·[i]?) he
  simpa [h] using hget

/-- Deleting an element of a list, for each class and each of its lists. -/
theorem destroy_child_deletes_iff (cls : IdmefClassId) (k : ℕ) (c : Child) (next : List Child)
    (fs : List Field) (l : List Obj) (n : ℤ) (hk : cls.children.drop k = c :: next)
    (hl : fs[c.field]? = some (.list l)) :
    Deletes c.field n fs l (idmefClassDestroyChild cls k n fs) ↔ Deletable n fs l next := by
  obtain ⟨hlt, hget⟩ := List.getElem?_eq_some_iff.mp hl
  unfold Deletes Deletable idmefClassDestroyChild
  rw [hk, destroyFrom, hl]
  simp only [Option.map_some, destroyCase, destroyListCase_eq]
  rcases hp : listPosition l.length n with _ | i
  · by_cases ho : OnePast l.length n
    · simp only [if_pos ho]
      rw [destroyFrom_fails]
      exact ⟨fun h _ => h, fun h => h ho⟩
    · have hset : fs.set c.field (.list l) = fs := by rw [← hget, List.set_getElem_self]
      simp only [if_neg ho, hset]
      exact iff_of_true ⟨_, rfl⟩ fun h => absurd h ho
  · simp only [Prod.mk.injEq, true_and]
    rw [set_list_inj hlt, take_append_drop_eq_eraseIdx (listPosition_lt hp)]

def emptySource : Obj := idmefNew ⟨0, 0, 0⟩ .source

def alertFields (sources targets : List Obj) : List Field :=
  ((newFields ⟨0, 0, 0⟩ .alert).set 6 (.list sources)).set 7 (.list targets)

theorem destroy_child_deletes_source :
    Deletes 6 (-1) (alertFields [emptySource, emptySource] [])
      [emptySource, emptySource]
      (idmefClassDestroyChild .alert 6 (-1) (alertFields [emptySource, emptySource] [])) := by
  refine (destroy_child_deletes_iff .alert 6 _ _ _ _ (-1) rfl rfl).mpr ?_
  rintro o ⟨⟩
  exact le_rfl

/-- Deleting the first source of an alert without sources deletes its first target. -/
example :
    idmefClassDestroyChild .alert 6 0 (alertFields [] [idmefNew ⟨0, 0, 0⟩ .target]) =
      (.ok (), alertFields [] []) := rfl

theorem destroy_child_deletes_sibling :
    ¬ Deletes 6 0 (alertFields [] [idmefNew ⟨0, 0, 0⟩ .target]) []
      (idmefClassDestroyChild .alert 6 0 (alertFields [] [idmefNew ⟨0, 0, 0⟩ .target])) := by
  rintro ⟨e, h⟩
  cases congrArg Prod.fst h

end LibPrelude
