import LibPrelude.Criteria.Negation
import LibPrelude.Criteria.Reading

/-! # Criteria without a value

A path alone asks whether something that it designates is present. The elements of the
first list on the way are counted unless they are absent; one that is a list itself
counts as present, whatever is in it.
-/

namespace LibPrelude

/-- A value that the steps designate is present. -/
def Present : List IdmefPathElement → Obj → Prop
  | [], _ => True
  | _ :: _, .prim _ _ => True
  | e :: es, .struct cls _ fs =>
    match idmefClassGetChild cls fs e.position with
    | .ok (.value _) => True
    | .ok (.object o) => Present es o
    | .ok (.list l) =>
      if e.isMultiple then ∃ o ∈ keyedElements e l, Present es o
      else ∃ o, listGetNth l e.index = some o ∧ Present es o
    | _ => False

/-- The steps lead to a list of which all elements are designated, and there are some. -/
def LeadsToList : List IdmefPathElement → Obj → Prop
  | [], _ => False
  | _ :: _, .prim _ _ => False
  | e :: es, .struct cls _ fs =>
    match idmefClassGetChild cls fs e.position with
    | .ok (.object o) => LeadsToList es o
    | .ok (.list l) =>
      if e.isMultiple then keyedElements e l ≠ []
      else ∃ o, listGetNth l e.index = some o ∧ LeadsToList es o
    | _ => False

/-- An element of the first such list leads to another one. -/
def NestedList : List IdmefPathElement → Obj → Prop
  | [], _ => False
  | _ :: _, .prim _ _ => False
  | e :: es, .struct cls _ fs =>
    match idmefClassGetChild cls fs e.position with
    | .ok (.object o) => NestedList es o
    | .ok (.list l) =>
      if e.isMultiple then ∃ o ∈ keyedElements e l, LeadsToList es o
      else ∃ o, listGetNth l e.index = some o ∧ NestedList es o
    | _ => False

theorem mapM_exists {α β : Type} {f : α → Except ErrorCode β} {p : α → Prop} {q : β → Prop}
    {l : List α} {bs : List β} (h : ∀ a ∈ l, ∀ b, f a = .ok b → (p a ↔ q b))
    (hbs : l.mapM f = .ok bs) : (∃ a ∈ l, p a) ↔ ∃ b ∈ bs, q b := by
  induction l generalizing bs with
  | nil =>
    obtain rfl : [] = bs := Except.ok.inj hbs
    simp
  | cons a l ih =>
    rw [List.mapM_cons] at hbs
    cases hb : f a with
    | error e =>
      rw [hb] at hbs
      cases hbs
    | ok b =>
      rw [hb] at hbs
      cases hrest : l.mapM f with
      | error e =>
        rw [hrest] at hbs
        cases hbs
      | ok bs' =>
        rw [hrest] at hbs
        obtain rfl : b :: bs' = bs := Except.ok.inj hbs
        have hhead := h a List.mem_cons_self b hb
        have htail := ih (fun a ha => h a (List.mem_cons_of_mem _ ha)) hrest
        simp only [List.mem_cons, exists_eq_or_imp, hhead, htail]

theorem mapM_eq_nil {α β : Type} {f : α → Except ErrorCode β} {l : List α}
    (h : l.mapM f = .ok []) : l = [] := by
  have := mapM_exists (p := fun _ => True) (q := fun _ => True) (fun _ _ _ _ => Iff.rfl) h
  cases l with
  | nil => rfl
  | cons a l => simp at this

def hasLeaf (v : Option IdmefValue) : Prop := ∃ x, some x ∈ leavesOpt v

/-- An element of a list is a list itself. -/
def hasNested : Option IdmefValue → Prop
  | some (.list l) => ∃ v ∈ l, isList v
  | _ => False

theorem hasLeaf_list {l : List (Option IdmefValue)} :
    hasLeaf (some (.list l)) ↔ ∃ v ∈ l, hasLeaf v := by
  simp only [hasLeaf, leavesOpt, IdmefValue.leaves, mem_leavesList]
  constructor
  · rintro ⟨x, v, hv, hx⟩
    exact ⟨v, hv, x, hx⟩
  · rintro ⟨v, hv, x, hx⟩
    exact ⟨x, v, hv, hx⟩

theorem hasLeaf_scalar {v : ValueType} : hasLeaf (some (.scalar v)) := ⟨v, by
  simp [leavesOpt, IdmefValue.leaves]⟩

theorem not_hasLeaf_none : ¬ hasLeaf none := by
  simp [hasLeaf, leavesOpt]

theorem idmefPathGetInternal_present {es : List IdmefPathElement} {o : Obj}
    {v : Option IdmefValue} (h : idmefPathGetInternal es o = .ok v) :
    (Present es o ↔ hasLeaf v) ∧ (LeadsToList es o ↔ isList v) ∧
      (NestedList es o ↔ hasNested v) := by
  induction es generalizing o v with
  | nil =>
    cases o with
    | prim rc p =>
      obtain rfl := Except.ok.inj h
      simp [Present, LeadsToList, NestedList, hasLeaf_scalar, isList, hasNested]
    | struct cls rc fs =>
      obtain rfl := Except.ok.inj h
      simp [Present, LeadsToList, NestedList, hasLeaf_scalar, isList, hasNested]
  | cons e es ih =>
    cases o with
    | prim rc p =>
      obtain rfl := Except.ok.inj h
      simp [Present, LeadsToList, NestedList, hasLeaf_scalar, isList, hasNested]
    | struct cls rc fs =>
      rw [idmefPathGetInternal] at h
      rw [Present, LeadsToList, NestedList]
      split at h
      · cases h
      · next hchild =>
        obtain rfl := Except.ok.inj h
        simp [hchild, not_hasLeaf_none, isList, hasNested]
      · next hchild =>
        obtain rfl := Except.ok.inj h
        simp [hchild, hasLeaf_scalar, isList, hasNested]
      · next o' hchild =>
        simp only [hchild]
        exact ih h
      · next l hchild =>
        simp only [hchild]
        by_cases hm : e.isMultiple
        · simp only [hm, if_true] at h ⊢
          have helem : ∀ o ∈ keyedElements e l, ∀ v, idmefPathGetInternal es o = .ok v →
              (Present es o ↔ hasLeaf v) ∧ (LeadsToList es o ↔ isList v) := fun o _ v hv =>
            ⟨(ih hv).1, (ih hv).2.1⟩
          split at h
          · cases h
          · next hnil =>
            obtain rfl := Except.ok.inj h
            simp [mapM_eq_nil hnil, not_hasLeaf_none, isList, hasNested]
          · next w ws hvs =>
            obtain rfl := Except.ok.inj h
            refine ⟨?_, ?_, ?_⟩
            · rw [hasLeaf_list]
              exact mapM_exists (fun o ho v hv => (helem o ho v hv).1) hvs
            · refine iff_of_true (fun hnil => ?_) rfl
              rw [hnil] at hvs
              cases hvs
            · exact mapM_exists (fun o ho v hv => (helem o ho v hv).2) hvs
        · simp only [hm] at h ⊢
          cases hnth : listGetNth l e.index with
          | none =>
            rw [hnth] at h
            obtain rfl := Except.ok.inj h
            simp [not_hasLeaf_none, isList, hasNested]
          | some o =>
            rw [hnth] at h
            simpa using ih h

def isCounted : Option IdmefValue → Bool
  | none => false
  | some (.scalar _) => true
  | some (.list l) => l.any Option.isSome

theorem foldl_nullMatch (l : List (Option IdmefValue)) (mcb : MatchCb) :
    (l.foldl (fun mcb v => mcb.count (nullMatch criterionNotNull v)) mcb).matched =
      mcb.matched + l.countP Option.isSome := by
  induction l generalizing mcb with
  | nil => rfl
  | cons v l ih =>
    rw [List.foldl_cons, ih, List.countP_cons]
    cases v with
    | none => rfl
    | some v =>
      change mcb.matched + 1 + _ = mcb.matched + (_ + 1)
      omega

theorem existence_match (pl : Platform) (v : Option IdmefValue) :
    ∃ n, idmefCriterionValueMatch pl none v criterionNotNull = .ok n ∧
      (0 < n ↔ isCounted v) := by
  have hnot : ¬ (isList v = true ∧ criterionNotNull ≠ criterionNotNull) := fun h => h.2 rfl
  unfold idmefCriterionValueMatch
  match v with
  | none => exact ⟨0, rfl, by simp [isCounted]⟩
  | some (.scalar w) => exact ⟨1, rfl, by simp [isCounted]⟩
  | some (.list l) =>
    simp only [myValueMatch, if_neg hnot]
    refine ⟨_, rfl, ?_⟩
    rw [foldl_nullMatch, Nat.zero_add, List.countP_pos_iff, isCounted, List.any_eq_true]

theorem criterionMatch_exists {pl : Platform} {path : IdmefPath} {object : Obj}
    {v : Option IdmefValue} (h : idmefPathGet path object = .ok v) :
    criterionMatch pl object ⟨path, none, criterionNotNull⟩ = .ok (isCounted v) := by
  obtain ⟨n, hn, hpos⟩ := existence_match pl v
  have hop : ¬ ¬ criterionNotNull.isCriterion := by decide
  rw [criterionMatch, if_neg hop]
  simp only [h, hn, Except.ok.injEq]
  rw [Bool.eq_iff_iff, decide_eq_true_iff, hpos]

theorem isCounted_iff {v : Option IdmefValue} : (isCounted v = true ↔ hasLeaf v) ↔
    (hasNested v → hasLeaf v) := by
  rcases v with _ | w | l
  · simp [isCounted, hasNested, not_hasLeaf_none]
  · simp [isCounted, hasNested, hasLeaf_scalar]
  · rw [isCounted, List.any_eq_true, hasNested]
    constructor
    · rintro h ⟨w, hw, hlist⟩
      refine h.mp ⟨w, hw, ?_⟩
      unfold isList at hlist
      split at hlist
      · rfl
      · cases hlist
    · intro h
      constructor
      · rintro ⟨w, hw, hsome⟩
        rcases w with _ | x | l'
        · cases hsome
        · exact hasLeaf_list.mpr ⟨_, hw, hasLeaf_scalar⟩
        · exact h ⟨_, hw, rfl⟩
      · intro hleaf
        obtain ⟨w, hw, hleaf⟩ := hasLeaf_list.mp hleaf
        refine ⟨w, hw, ?_⟩
        cases w with
        | none => exact absurd hleaf not_hasLeaf_none
        | some w => rfl

/-- The criteria of a path alone match the object if something designated is present, and their
negation matches if nothing is. -/
def ExistenceJudged (pl : Platform) (path : IdmefPath) (object : Obj) : Prop :=
  ∃ criteria negated b, createNodes (existsCriteria path) [] = .ok criteria ∧
    createNodes (.not (existsCriteria path)) [] = .ok negated ∧
    MatchResult pl criteria object (.ok b) ∧ MatchResult pl negated object (.ok !b) ∧
    (b = true ↔ Present path.elements object)

theorem existenceJudged_counted (pl : Platform) {path : IdmefPath} {object : Obj}
    {v : Option IdmefValue} (hv : idmefPathGet path object = .ok v) :
    ExistenceJudged pl path object ↔ (isCounted v = true ↔ Present path.elements object) := by
  obtain ⟨p, store, nodes, hnodes, hrep⟩ := createNodes_represents (creatable_exists path)
  obtain ⟨p', store', nodes', hnodes', hrep'⟩ :=
    @createNodes_represents _ _ (.not (existsCriteria path)) (creatable_exists path)
  have hmatch := @criterionMatch_exists pl path object v hv
  have hresult {r : Except ErrorCode Bool} :
      MatchResult pl (p, store) object r ↔ r = .ok (isCounted v) := by
    rw [matchResult_iff hrep, existsCriteria, Formula.eval, hmatch]
  have hresult' {r : Except ErrorCode Bool} :
      MatchResult pl (p', store') object r ↔ r = .ok !(isCounted v) := by
    rw [matchResult_iff hrep', existsCriteria, Formula.eval, Formula.eval, hmatch]
    rfl
  constructor
  · rintro ⟨criteria, negated, b, hc, hn, hb, -, hiff⟩
    obtain rfl := Except.ok.inj (hnodes.symm.trans hc)
    obtain rfl := Except.ok.inj (hresult.mp hb)
    exact hiff
  · exact fun h => ⟨_, _, isCounted v, hnodes, hnodes', hresult.mpr rfl, hresult'.mpr rfl, h⟩

theorem get_present {path : IdmefPath} {object : Obj} {v : Option IdmefValue}
    (hv : idmefPathGet path object = .ok v) :
    (Present path.elements object ↔ hasLeaf v) ∧ (LeadsToList path.elements object ↔ isList v) ∧
      (NestedList path.elements object ↔ hasNested v) := by
  unfold idmefPathGet at hv
  split_ifs at hv
  exact idmefPathGetInternal_present hv

/-- Existence is judged right exactly if no element of the first list leads to another list in
which nothing is present. -/
theorem existence_criteria_iff (pl : Platform) (path : IdmefPath) (object : Obj)
    (ho : HasType (.struct path.topClass) object) : ExistenceJudged pl path object ↔
      (NestedList path.elements object → Present path.elements object) := by
  obtain ⟨v, hv, -⟩ := idmefPathGet_designates ho
  obtain ⟨hpresent, -, hnested⟩ := get_present hv
  rw [existenceJudged_counted pl hv, hpresent, hnested, isCounted_iff]

def netmaskPath : IdmefPath where
  topClass := .message
  elements := [⟨indexForbidden, none, 1⟩, ⟨indexUndefined, none, 6⟩, ⟨indexForbidden, none, 3⟩,
    ⟨indexUndefined, none, 4⟩, ⟨indexForbidden, none, 5⟩]
  valid := ⟨.inr rfl, .inl rfl, .inr rfl, .inl rfl, .inr rfl, rfl⟩

def withField (o : Obj) (k : ℕ) (f : Field) : Obj :=
  match o with
  | .struct cls rc fs => .struct cls rc (fs.set k f)
  | o => o

def alertOfAddress (address : Obj) : Obj :=
  let node := withField (idmefNew ⟨0, 0, 0⟩ .node) 4 (.list [address])
  let source := withField (idmefNew ⟨0, 0, 0⟩ .source) 3 (.ptr (some node))
  .struct .message 1 [.ptr (some (.prim 1 (.string preludeStringNew))),
    .union 1 (some (withField (idmefNew ⟨0, 0, 0⟩ .alert) 6 (.list [source])))]

def addressAlert : Obj :=
  alertOfAddress (idmefNew ⟨0, 0, 0⟩ .address)

def netmaskAlert : Obj :=
  alertOfAddress (withField (idmefNew ⟨0, 0, 0⟩ .address) 5
    (.ptr (some (.prim 1 (.string ⟨some (ascii "/24")⟩)))))

theorem addressAlert_hasType : HasType (.struct .message) addressAlert := by
  refine ⟨by decide, rfl, ⟨by decide, rfl⟩, ⟨by decide, by decide, rfl, ?_⟩, trivial⟩
  repeat' constructor

theorem netmaskAlert_hasType : HasType (.struct .message) netmaskAlert := by
  refine ⟨by decide, rfl, ⟨by decide, rfl⟩, ⟨by decide, by decide, rfl, ?_⟩, trivial⟩
  repeat' constructor

/-- The two nested lists of the path lead to a netmask. -/
theorem existence_criteria_netmask_set :
    NestedList netmaskPath.elements netmaskAlert ∧
      ExistenceJudged plainPlatform netmaskPath netmaskAlert := by
  have hv : idmefPathGet netmaskPath netmaskAlert =
      .ok (some (.list [some (.list [some (.scalar (.string ⟨some (ascii "/24")⟩))])])) := rfl
  obtain ⟨hpresent, -, hnested⟩ := get_present hv
  refine ⟨hnested.mpr ⟨_, List.mem_singleton.mpr rfl, rfl⟩,
    (existence_criteria_iff plainPlatform netmaskPath netmaskAlert
      netmaskAlert_hasType).mpr fun _ => hpresent.mpr ?_⟩
  simp [hasLeaf, leavesOpt, IdmefValue.leaves, leavesList]

/-- A source whose node has an address counts as if it had a netmask. -/
theorem existence_criteria_netmask : ¬ ∀ (pl : Platform) (path : IdmefPath) (object : Obj),
    HasType (.struct path.topClass) object → ExistenceJudged pl path object := by
  intro h
  have hv : idmefPathGet netmaskPath addressAlert = .ok (some (.list [some (.list [none])])) := rfl
  have hjudged := h plainPlatform netmaskPath addressAlert addressAlert_hasType
  rw [existenceJudged_counted plainPlatform hv, (get_present hv).1] at hjudged
  have hleaf : hasLeaf (some (.list [some (.list [none])])) := hjudged.mp rfl
  simp [hasLeaf, leavesOpt, IdmefValue.leaves, leavesList] at hleaf

end LibPrelude
