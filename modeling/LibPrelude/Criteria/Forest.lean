import Mathlib.Logic.Function.Basic
import LibPrelude.Criteria.Store

/-! # Forests built by the operations on criteria

The parser and the users of the library build trees by creating criteria, joining
trees and appending one tree to another in place. An operation takes over the trees
it is given. After any run of operations every tree that is still owned represents
the formula that the operations spell, and matching a message evaluates it.
-/

namespace LibPrelude

open Function

variable {P V : Type}

def Connective.append : Connective → CriteriaStore P V → ℕ → ℕ →
    Except ErrorCode (CriteriaStore P V)
  | and => idmefCriteriaAndCriteria
  | or => idmefCriteriaOrCriteria

/-- The nodes, and the formulas of the trees that no other tree has taken over. -/
structure Forest (P V : Type) where
  store : CriteriaStore P V
  owned : ℕ → Option (Formula (Criterion P V))

def emptyForest : Forest P V := ⟨[], fun _ => none⟩

inductive Grows (f : Forest P V) : Forest P V → Prop
  | criterion {path : P} {value : Option V} {op : Operator} {p : ℕ} {store : CriteriaStore P V} :
      op.isCriterion → idmefCriterionNew f.store path value op = .ok (p, store) →
      Grows f ⟨store, update f.owned p (some (.atom ⟨path, value, op⟩))⟩
  | not {left : Option ℕ} {r p : ℕ} {t : Formula (Criterion P V)} {store : CriteriaStore P V} :
      f.owned r = some t → idmefCriteriaJoin f.store left criteriaNot (some r) = .ok (p, store) →
      Grows f ⟨store, update (update f.owned r none) p (some (.not t))⟩
  | join (c : Connective) {l r p : ℕ} {t u : Formula (Criterion P V)} {store : CriteriaStore P V} :
      f.owned l = some t → f.owned r = some u →
      idmefCriteriaJoin f.store (some l) c.operator (some r) = .ok (p, store) →
      Grows f ⟨store, update (update (update f.owned l none) r none) p (some (c.join t u))⟩
  | append (c : Connective) {p q : ℕ} {t u : Formula (Criterion P V)} {store : CriteriaStore P V} :
      f.owned p = some t → f.owned q = some u → q ≠ p → c.append f.store p q = .ok store →
      Grows f ⟨store, update (update f.owned q none) p (some (c.join t u))⟩

/-- The forests that runs of operations build. -/
inductive Built : Forest P V → Prop
  | empty : Built emptyForest
  | grow {f g : Forest P V} : Built f → Grows f g → Built g

/-- Every owned tree represents its formula, and no owned root is inside another tree. -/
def Sound (f : Forest P V) : Prop :=
  ∀ p t, f.owned p = some t → ∃ nodes, Represents f.store nodes p t ∧
    ∀ q ∈ nodes, q ≠ p → f.owned q = none

variable {f g : Forest P V}

theorem sound_empty : Sound (emptyForest : Forest P V) := by
  rintro p t ⟨⟩

theorem Sound.owned_lt (h : Sound f) {p : ℕ} {t : Formula (Criterion P V)}
    (hp : f.owned p = some t) : p < f.store.length := by
  obtain ⟨nodes, hr, -⟩ := h p t hp
  exact hr.lt_length p hr.root_mem

theorem Sound.plant (h : Sound f) {node : IdmefCriteria P V} {s : Formula (Criterion P V)}
    {nodes : List ℕ} {owned : ℕ → Option (Formula (Criterion P V))}
    (hroot : Represents ((f.store ++ [zeroCriteria]).set f.store.length node) nodes
      f.store.length s)
    (hless : ∀ q t, owned q = some t → f.owned q = some t)
    (hnodes : ∀ q ∈ nodes, q ≠ f.store.length → owned q = none) :
    Sound ⟨(f.store ++ [zeroCriteria]).set f.store.length node,
      update owned f.store.length (some s)⟩ := by
  intro p t hp
  change update owned f.store.length (some s) p = some t at hp
  by_cases hpl : p = f.store.length
  · subst hpl
    rw [update_self] at hp
    cases hp
    refine ⟨nodes, hroot, fun q hq hne => ?_⟩
    exact (update_of_ne hne _ _).trans (hnodes q hq hne)
  · rw [update_of_ne hpl] at hp
    obtain ⟨ns, hr, hns⟩ := h p t (hless p t hp)
    refine ⟨ns, hr.extend node, fun q hq hne => ?_⟩
    have hlt := hr.lt_length q hq
    change update owned f.store.length (some s) q = none
    rw [update_of_ne hlt.ne]
    cases ho : owned q with
    | none => rfl
    | some t' =>
      have := hns q hq hne
      rw [hless q t' ho] at this
      cases this

theorem join_ok {store : CriteriaStore P V} {left right : Option ℕ} {op : Operator} {p : ℕ}
    {store' : CriteriaStore P V} (h : idmefCriteriaJoin store left op right = .ok (p, store')) :
    p = store.length ∧ store' = (store ++ [zeroCriteria]).set store.length
      ⟨criteriaPointer left, criteriaPointer right, op⟩ := by
  unfold idmefCriteriaJoin at h
  split_ifs at h
  obtain ⟨rfl, rfl⟩ := Prod.mk.inj (Except.ok.inj h)
  exact ⟨rfl, rfl⟩

theorem criterionNew_ok {store : CriteriaStore P V} {path : P} {value : Option V} {op : Operator}
    {p : ℕ} {store' : CriteriaStore P V}
    (h : idmefCriterionNew store path value op = .ok (p, store')) :
    p = store.length ∧ store' = (store ++ [zeroCriteria]).set store.length
      ⟨.path path, valuePointer value, op⟩ := by
  unfold idmefCriterionNew at h
  split_ifs at h
  obtain ⟨rfl, rfl⟩ := Prod.mk.inj (Except.ok.inj h)
  exact ⟨rfl, rfl⟩

theorem owned_of_update {owned : ℕ → Option (Formula (Criterion P V))} {r q : ℕ}
    {t : Formula (Criterion P V)} (h : update owned r none q = some t) :
    q ≠ r ∧ owned q = some t := by
  by_cases hq : q = r
  · subst hq
    rw [update_self] at h
    cases h
  · exact ⟨hq, (update_of_ne hq _ _).symm.trans h⟩

/-- A tree whose owned nodes are its root at most owns nothing once the root is taken over. -/
theorem update_none {owned : ℕ → Option (Formula (Criterion P V))} {nodes : List ℕ} {r q : ℕ}
    (h : ∀ q ∈ nodes, q ≠ r → owned q = none) (hq : q ∈ nodes) : update owned r none q = none := by
  by_cases hqr : q = r
  · rw [hqr, update_self]
  · rw [update_of_ne hqr, h q hq hqr]

theorem append_eq (c : Connective) (store : CriteriaStore P V) (p q : ℕ) :
    c.append store p q = idmefCriteriaAppendCriteria store p q c.operator := by
  cases c <;> rfl

theorem Sound.append (h : Sound f) (c : Connective) {p q : ℕ} {t u : Formula (Criterion P V)}
    (hp : f.owned p = some t) (hq : f.owned q = some u) (hqp : q ≠ p) :
    ∃ store, c.append f.store p q = .ok store ∧
      Sound ⟨store, update (update f.owned q none) p (some (c.join t u))⟩ := by
  obtain ⟨nodes, hrp, hnp⟩ := h p t hp
  obtain ⟨nodes', hrq, hnq⟩ := h q u hq
  have hpq : p ∉ nodes' := fun hmem => by
    have := hnq p hmem hqp.symm
    rw [hp] at this
    cases this
  have hlt : p < f.store.length := hrp.lt_length p hrp.root_mem
  obtain ⟨store, happend, hold, all, hall, hsub⟩ := append_represents c hrp hrq hpq
  refine ⟨store, (append_eq c _ _ _).trans happend, fun r s hr => ?_⟩
  change update (update f.owned q none) p (some (c.join t u)) r = some s at hr
  by_cases hrp' : r = p
  · subst hrp'
    rw [update_self] at hr
    cases hr
    refine ⟨all, hall, fun n hn hne => ?_⟩
    change update (update f.owned q none) r (some (c.join t u)) n = none
    rw [update_of_ne hne]
    rcases hsub n hn with rfl | hn | hn
    · by_contra hsome
      obtain ⟨s, hs⟩ := Option.ne_none_iff_exists'.mp hsome
      exact lt_irrefl _ (h.owned_lt (owned_of_update hs).2)
    · by_cases hnq' : n = q
      · rw [hnq', update_self]
      · rw [update_of_ne hnq', hnp n hn hne]
    · exact update_none hnq hn
  · rw [update_of_ne hrp'] at hr
    obtain ⟨hrq', hown⟩ := owned_of_update hr
    obtain ⟨ns, hrr, hnr⟩ := h r s hown
    have hpns : p ∉ ns := fun hmem => by
      have := hnr p hmem (Ne.symm hrp')
      rw [hp] at this
      cases this
    refine ⟨ns, hrr.frame fun n hn => ?_, fun n hn hne => ?_⟩
    · exact hold n (hrr.lt_length n hn) fun heq => hpns (heq ▸ hn)
    · have hnp' : n ≠ p := fun heq => hpns (heq ▸ hn)
      change update (update f.owned q none) p (some (c.join t u)) n = none
      rw [update_of_ne hnp']
      by_cases hnq' : n = q
      · rw [hnq', update_self]
      · rw [update_of_ne hnq', hnr n hn hne]

theorem Sound.grow (h : Sound f) (hg : Grows f g) : Sound g := by
  cases hg with
  | @criterion path value op p store hop hnew =>
    obtain ⟨rfl, rfl⟩ := criterionNew_ok hnew
    refine h.plant (.criterion new_node_self hop) (fun _ _ hq => hq) fun q hq hne => ?_
    exact absurd (List.mem_singleton.mp hq) hne
  | @not left r p t store hr hjoin =>
    obtain ⟨rfl, rfl⟩ := join_ok hjoin
    obtain ⟨nodes, hrep, hown⟩ := h r t hr
    have hnew : f.store.length ∉ nodes := fun hmem => lt_irrefl _ (hrep.lt_length _ hmem)
    refine h.plant (.not new_node_self hnew (hrep.extend _))
      (fun q s hq => (owned_of_update hq).2) ?_
    intro q hq hne
    exact update_none hown ((List.mem_cons.mp hq).resolve_left hne)
  | @join c l r p t u store hl hr hjoin =>
    obtain ⟨rfl, rfl⟩ := join_ok hjoin
    obtain ⟨nodes, hrep, hown⟩ := h l t hl
    obtain ⟨nodes', hrep', hown'⟩ := h r u hr
    have hnew : f.store.length ∉ nodes := fun hmem => lt_irrefl _ (hrep.lt_length _ hmem)
    have hnew' : f.store.length ∉ nodes' := fun hmem => lt_irrefl _ (hrep'.lt_length _ hmem)
    refine h.plant (.binary c new_node_self hnew hnew' (hrep.extend _) (hrep'.extend _))
      (fun q s hq => (owned_of_update (owned_of_update hq).2).2) fun q hq hne => ?_
    rcases List.mem_append.mp ((List.mem_cons.mp hq).resolve_left hne) with hq | hq
    · by_cases hqr : q = r
      · rw [hqr, update_self]
      · rw [update_of_ne hqr, update_none hown hq]
    · by_cases hqr : q = r
      · rw [hqr, update_self]
      · rw [update_of_ne hqr]
        by_cases hql : q = l
        · rw [hql, update_self]
        · rw [update_of_ne hql, hown' q hq hqr]
  | append c hp hq hqp happend =>
    obtain ⟨store', happend', hsound⟩ := h.append c hp hq hqp
    obtain rfl := Except.ok.inj (happend'.symm.trans happend)
    exact hsound

theorem Built.sound (h : Built f) : Sound f := by
  induction h with
  | empty => exact sound_empty
  | grow _ hg ih => exact ih.grow hg

/-- Matching a tree of a built forest gives the result of its formula when no failure is hidden, and
only then if all failures are hidden ones; else a failure is negated. Appending another tree to it
in place gives their conjunction or disjunction. -/
theorem criteria_match_iff (results : Criterion P V → Except ErrorCode Bool) (hf : Built f) {p : ℕ}
    {t : Formula (Criterion P V)} (hp : f.owned p = some t) :
    (∃ r n, (∀ fuel ≥ n, idmefCriteriaMatch results f.store fuel (.criteria p) = some r) ∧
      (Formula.Unhidden results t → Formula.IsResult results t r) ∧
      ((∀ a ∈ t.bare, ¬ Formula.Fails (results a)) →
        (Formula.IsResult results t r ↔ Formula.Unhidden results t)) ∧
      (¬ Formula.Unhidden results t → ∃ s, Formula.Negates Formula.lenient results t s ∧
        Formula.Fails (s.eval Formula.lenient results))) ∧
    ∀ (c : Connective) q u, f.owned q = some u → q ≠ p → ∃ store nodes,
      c.append f.store p q = .ok store ∧ Represents store nodes p (c.join t u) := by
  constructor
  · obtain ⟨nodes, hrep, -⟩ := hf.sound p t hp
    obtain ⟨n, hn⟩ := match_represents results hrep
    exact ⟨_, n, hn, Formula.isResult_lenient, Formula.isResult_lenient_iff,
      Formula.exists_negates_of_not_unhidden⟩
  · intro c q u hq hqp
    obtain ⟨store, happend, hsound⟩ := hf.sound.append c hp hq hqp
    obtain ⟨nodes, hrep, -⟩ := hsound p (c.join t u) (update_self _ _ _)
    exact ⟨store, nodes, happend, hrep⟩

/-- A time that a message need not have, compared with a month. -/
def analyzerTime : Criterion String String :=
  ⟨"alert.analyzer_time", some "month:january", criterionEqual⟩

/-- The forest of the negation of one criterion. -/
def negatedTime : Forest String String where
  store :=
    [⟨.path analyzerTime.path, valuePointer analyzerTime.value, analyzerTime.operator⟩,
      ⟨.null, .criteria 0, criteriaNot⟩]
  owned :=
    update (update (update (fun _ => none) 0 (some (.atom analyzerTime))) 0 none) 1
      (some (.not (.atom analyzerTime)))

theorem built_negatedTime : Built negatedTime := by
  have hone : Built (⟨[⟨.path analyzerTime.path, valuePointer analyzerTime.value,
      analyzerTime.operator⟩], update (fun _ => none) 0 (some (.atom analyzerTime))⟩ :
      Forest String String) :=
    .grow .empty (.criterion rfl rfl)
  exact .grow hone (@Grows.not _ _ _ none 0 1 (.atom analyzerTime) _ rfl rfl)

theorem criteria_match_negatedTime :
    ∃ r n, (∀ fuel ≥ n, idmefCriteriaMatch (fun _ => .ok true) negatedTime.store fuel
        (.criteria 1) = some r) ∧
      Formula.IsResult (fun _ => .ok true) (.not (.atom analyzerTime)) r := by
  have hno : Formula.Unhidden (fun _ => (.ok true : Except ErrorCode Bool))
      (.not (.atom analyzerTime)) := fun _ _ => Formula.not_fails_ok
  obtain ⟨⟨r, n, hn, hresult, -⟩, -⟩ := criteria_match_iff (fun _ => .ok true) built_negatedTime
    (p := 1) rfl
  exact ⟨r, n, hn, hresult hno⟩

/-- The negation of a criterion whose matching fails does not match, without an error. -/
theorem negation_hides_error :
    Built negatedTime ∧ negatedTime.owned 1 = some (.not (.atom analyzerTime)) ∧
    idmefCriteriaMatch (fun _ => .error .generic) negatedTime.store 2 (.criteria 1) =
      some (.ok false) ∧
    ¬ Formula.IsResult (fun _ => .error ErrorCode.generic) (.not (.atom analyzerTime))
      (.ok false) := by
  refine ⟨built_negatedTime, rfl, rfl, fun h => ?_⟩
  have hreach : Formula.Reaches (ε := ErrorCode) Formula.strict (fun _ => .error .generic)
      (.not (.atom analyzerTime)) analyzerTime true := .not (.atom analyzerTime)
  exact ((h.value false).mp rfl).1 analyzerTime true hreach Formula.fails_error

end LibPrelude
