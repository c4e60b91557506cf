import LibPrelude.Criteria.Parser

/-! # Criteria read from a text

What the parser completes has operators of criteria only, so that the nodes allocated
for it represent it, and matching a message evaluates it.
-/

namespace LibPrelude

open Function

variable {P V : Type}

/-- What a criterion allocated by the parser is like. -/
def Criterion.Creatable (c : Criterion P V) : Prop :=
  c.operator.isCriterion ∧ (c.value.isNone → c.operator.null)

def Creatable : Formula (Criterion P V) → Prop
  | .atom c => c.Creatable
  | .not t => Creatable t
  | .and t u => Creatable t ∧ Creatable u
  | .or t u => Creatable t ∧ Creatable u

theorem append_ok {f : Forest P V} (hf : Built f) (c : Connective) {p q : ℕ}
    {t u : Formula (Criterion P V)} (hp : f.owned p = some t) (hq : f.owned q = some u)
    (hqp : q ≠ p) : ∃ store, c.append f.store p q = .ok store ∧
      Built ⟨store, update (update f.owned q none) p (some (c.join t u))⟩ := by
  obtain ⟨store, happend, -⟩ := hf.sound.append c hp hq hqp
  exact ⟨store, happend, .grow hf (.append c hp hq hqp happend)⟩

/-- The nodes allocated for a formula are one more tree of the forest. -/
theorem createNodes_built {t : Formula (Criterion P V)} (ht : Creatable t) {f : Forest P V}
    (hf : Built f) : ∃ p store owned, createNodes t f.store = .ok (p, store) ∧
      Built ⟨store, owned⟩ ∧ owned p = some t ∧ f.owned p = none ∧
      ∀ q s, f.owned q = some s → owned q = some s := by
  have hfresh {g : Forest P V} (hg : Built g) {q : ℕ} {s : Formula (Criterion P V)}
      (hq : g.owned q = some s) : q ≠ g.store.length := (hg.sound.owned_lt hq).ne
  have hbinary (c : Connective) {t u : Formula (Criterion P V)} {f : Forest P V}
      (hf : Built f) {p q : ℕ} {g h : Forest P V} (hg : Built g) (hh : Built h)
      (hgp : g.owned p = some t) (hfp : f.owned p = none)
      (hfg : ∀ r s, f.owned r = some s → g.owned r = some s)
      (hhq : h.owned q = some u) (hgq : g.owned q = none)
      (hgh : ∀ r s, g.owned r = some s → h.owned r = some s) :
      ∃ store owned, c.append h.store p q = .ok store ∧ Built ⟨store, owned⟩ ∧
        owned p = some (c.join t u) ∧ ∀ r s, f.owned r = some s → owned r = some s := by
    have hqp : q ≠ p := fun heq => by
      rw [heq, hgp] at hgq
      cases hgq
    obtain ⟨store, happend, hbuilt⟩ := append_ok hh c (hgh p t hgp) hhq hqp
    refine ⟨store, _, happend, hbuilt, update_self _ _ _, fun r s hr => ?_⟩
    have hrp : r ≠ p := fun heq => by
      rw [heq, hfp] at hr
      cases hr
    have hrq : r ≠ q := fun heq => by
      have := hfg r s hr
      rw [heq, hgq] at this
      cases this
    rw [update_of_ne hrp, update_of_ne hrq]
    exact hgh r s (hfg r s hr)
  induction t generalizing f with
  | atom c =>
    obtain ⟨hop, hnull⟩ := ht
    have hnew : createNodes (.atom c) f.store = .ok (f.store.length,
        (f.store ++ [zeroCriteria]).set f.store.length
          ⟨.path c.path, valuePointer c.value, c.operator⟩) := by
      rw [createNodes, idmefCriterionNew, if_neg fun h => h.2 (hnull h.1)]
      rfl
    refine ⟨_, _, _, hnew, .grow hf (.criterion hop hnew), update_self _ _ _, ?_, fun q s hq => ?_⟩
    · by_contra hne
      obtain ⟨s, hs⟩ := Option.ne_none_iff_exists'.mp hne
      exact hfresh hf hs rfl
    · rw [update_of_ne (hfresh hf hq)]
      exact hq
  | not t ih =>
    obtain ⟨r, store, owned, hnodes, hbuilt, hr, hfr, hkeep⟩ := ih ht hf
    have hjoin : idmefCriteriaJoin store none criteriaNot (some r) = .ok (store.length,
        (store ++ [zeroCriteria]).set store.length ⟨.null, .criteria r, criteriaNot⟩) := rfl
    refine ⟨_, _, _, ?_, .grow hbuilt (.not hr hjoin), update_self _ _ _, ?_, fun q s hq => ?_⟩
    · rw [createNodes, hnodes]
      exact hjoin
    · by_contra hne
      obtain ⟨s, hs⟩ := Option.ne_none_iff_exists'.mp hne
      exact hfresh hbuilt (hkeep _ s hs) rfl
    · have hqr : q ≠ r := fun heq => by
        rw [heq, hfr] at hq
        cases hq
      rw [update_of_ne (hfresh hbuilt (hkeep q s hq)), update_of_ne hqr]
      exact hkeep q s hq
  | and t u iht ihu =>
    obtain ⟨p, store₁, owned₁, hnodes₁, hbuilt₁, hp, hfp, hkeep₁⟩ := iht ht.1 hf
    obtain ⟨q, store₂, owned₂, hnodes₂, hbuilt₂, hq, hgq, hkeep₂⟩ := ihu ht.2 hbuilt₁
    obtain ⟨store, owned, happend, hbuilt, howned, hkeep⟩ :=
      hbinary .and hf hbuilt₁ hbuilt₂ hp hfp hkeep₁ hq hgq hkeep₂
    refine ⟨p, store, owned, ?_, hbuilt, howned, hfp, hkeep⟩
    simp only [createNodes, hnodes₁, hnodes₂]
    exact congrArg (Except.map fun store => (p, store)) happend
  | or t u iht ihu =>
    obtain ⟨p, store₁, owned₁, hnodes₁, hbuilt₁, hp, hfp, hkeep₁⟩ := iht ht.1 hf
    obtain ⟨q, store₂, owned₂, hnodes₂, hbuilt₂, hq, hgq, hkeep₂⟩ := ihu ht.2 hbuilt₁
    obtain ⟨store, owned, happend, hbuilt, howned, hkeep⟩ :=
      hbinary .or hf hbuilt₁ hbuilt₂ hp hfp hkeep₁ hq hgq hkeep₂
    refine ⟨p, store, owned, ?_, hbuilt, howned, hfp, hkeep⟩
    simp only [createNodes, hnodes₁, hnodes₂]
    exact congrArg (Except.map fun store => (p, store)) happend

theorem createNodes_represents {t : Formula (Criterion P V)} (ht : Creatable t) :
    ∃ p store nodes, createNodes t [] = .ok (p, store) ∧ Represents store nodes p t := by
  obtain ⟨p, store, owned, hnodes, hbuilt, hp, -, -⟩ := createNodes_built ht Built.empty
  obtain ⟨nodes, hrep, -⟩ := hbuilt.sound p t hp
  exact ⟨p, store, nodes, hnodes, hrep⟩

section

variable {pl : CriteriaPlatform} {st st' : ParserState} {tok : Token} {t : ParsedCriteria}

theorem operator_isCriterion (r : TokRelation) : r.operator.isCriterion := by
  cases r <;> rfl

theorem creatable_exists (path : IdmefPath) : Creatable (existsCriteria path) := ⟨rfl, fun _ => rfl⟩

theorem valueCriteria_ok {path : IdmefPath} {op : Operator} {c : ParsedCriterion}
    (h : valueCriteria pl path op tok = .ok c) :
    c.path = path ∧ c.operator = op ∧ c.value.isSome := by
  unfold valueCriteria at h
  split at h
  · cases h
  · split at h <;> cases h
    exact ⟨rfl, rfl, rfl⟩

theorem creatable_value {path : IdmefPath} {op : Operator} {c : ParsedCriterion}
    (hop : op.isCriterion) (h : valueCriteria pl path op tok = .ok c) :
    Creatable (.atom c) := by
  obtain ⟨-, rfl, hsome⟩ := valueCriteria_ok h
  refine ⟨hop, fun hnone => ?_⟩
  rw [Option.isNone_iff_eq_none] at hnone
  rw [hnone] at hsome
  cases hsome

theorem creatable_joinLeft {op : Formula.Op} {o : Option ParsedCriteria}
    (ho : ∀ u ∈ o, Creatable u) (ht : Creatable t) : Creatable (op.joinLeft o t) := by
  cases o with
  | none => exact ht
  | some u => cases op <;> exact ⟨ho u rfl, ht⟩

theorem creatable_join {op : Formula.Op} {u : ParsedCriteria} (hu : Creatable u)
    (ht : Creatable t) : Creatable (op.join u t) := by
  cases op <;> exact ⟨hu, ht⟩

structure Pending.Creatable (p : Pending) : Prop where
  criteria : ∀ u ∈ p.criteria, LibPrelude.Creatable u
  criteriaAnd : ∀ u ∈ p.criteriaAnd, LibPrelude.Creatable u

theorem Pending.creatable_new : Pending.new.Creatable := ⟨nofun, nofun⟩

theorem Pending.Creatable.reduceAnd {p : Pending} (hp : p.Creatable) (ht : LibPrelude.Creatable t) :
    LibPrelude.Creatable (p.reduceAnd t) := by
  refine creatable_joinLeft hp.criteriaAnd ?_
  unfold Pending.criteriaNot
  induction p.nots with
  | zero => exact ht
  | succ n ih =>
    rw [iterate_succ_apply']
    exact ih

theorem Pending.Creatable.reduce {p : Pending} (hp : p.Creatable) (ht : LibPrelude.Creatable t) :
    LibPrelude.Creatable (p.reduce t) :=
  creatable_joinLeft hp.criteria (hp.reduceAnd ht)

def PendingValues.Creatable (pending : PendingValues) : Prop :=
  ∀ u ∈ pending, LibPrelude.Creatable u.1

theorem PendingValues.Creatable.reduce {pending : PendingValues} (hp : pending.Creatable)
    (ht : LibPrelude.Creatable t) : LibPrelude.Creatable (pending.reduce t) := by
  unfold PendingValues.reduce
  induction pending generalizing t with
  | nil => exact ht
  | cons u pending ih =>
    rw [List.foldl_cons]
    refine ih (fun v hv => hp v (List.mem_cons_of_mem _ hv)) ?_
    exact creatable_join (hp u List.mem_cons_self) ht

def Expects.Creatable : Expects → Prop
  | .criteriaNot => True
  | .relation _ => True
  | .value _ op => op.isCriterion
  | .multipleValue _ op pending outer =>
    op.isCriterion ∧ pending.Creatable ∧ ∀ p ∈ outer, p.Creatable
  | .operator _ op pending outer t =>
    op.isCriterion ∧ pending.Creatable ∧ (∀ p ∈ outer, p.Creatable) ∧ LibPrelude.Creatable t
  | .criteriaOperator t => LibPrelude.Creatable t

structure ParserState.Creatable (st : ParserState) : Prop where
  pending : st.pending.Creatable
  outer : ∀ p ∈ st.outer, p.Creatable
  expects : st.expects.Creatable

theorem ParserState.Creatable.stepOperator (hst : st.Creatable) (ht : LibPrelude.Creatable t)
    (h : st.stepOperator t tok = .ok st') : st'.Creatable := by
  unfold ParserState.stepOperator at h
  split at h
  · cases h
    exact ⟨⟨by simpa using hst.pending.reduce ht, nofun⟩, hst.outer, trivial⟩
  · cases h
    exact ⟨⟨hst.pending.criteria, by simpa using hst.pending.reduceAnd ht⟩, hst.outer, trivial⟩
  · split at h
    · cases h
    · rename_i p outer houter
      cases h
      have hmem : ∀ q ∈ p :: outer, q.Creatable := houter ▸ hst.outer
      exact ⟨hmem p List.mem_cons_self, fun q hq => hmem q (List.mem_cons_of_mem _ hq),
        hst.pending.reduce ht⟩
  · cases h

theorem pendingValues_cons {pending : PendingValues} (hp : pending.Creatable)
    (ht : LibPrelude.Creatable t) (op : Formula.Op) :
    PendingValues.Creatable ((t, op) :: pending) := by
  intro u hu
  rcases List.mem_cons.mp hu with rfl | hu
  · exact ht
  · exact hp u hu

theorem ParserState.Creatable.step (hst : st.Creatable) (h : st.step pl tok = .ok st') :
    st'.Creatable := by
  have hexpects := hst.expects
  unfold ParserState.step at h
  split at h
  · split at h
    · cases h
      exact ⟨⟨hst.pending.criteria, hst.pending.criteriaAnd⟩, hst.outer, hexpects⟩
    · cases h
      refine ⟨Pending.creatable_new, fun p hp => ?_, trivial⟩
      rcases List.mem_cons.mp hp with rfl | hp
      · exact hst.pending
      · exact hst.outer p hp
    · obtain ⟨path, -, rfl⟩ := map_ok h
      exact ⟨hst.pending, hst.outer, trivial⟩
    · cases h
  · split at h
    · cases h
      exact ⟨hst.pending, hst.outer, operator_isCriterion _⟩
    · cases h
    · exact hst.stepOperator (creatable_exists _) h
  · rename_i path op hop
    rw [hop] at hexpects
    split at h
    · cases h
      exact ⟨hst.pending, hst.outer, hexpects, nofun, nofun⟩
    · obtain ⟨c, hc, rfl⟩ := map_ok h
      exact ⟨hst.pending, hst.outer, creatable_value hexpects hc⟩
  · rename_i path op pending outer hop
    rw [hop] at hexpects
    obtain ⟨hcrit, hpending, houter⟩ := hexpects
    split at h
    · cases h
      refine ⟨hst.pending, hst.outer, hcrit, nofun, fun p hp => ?_⟩
      rcases List.mem_cons.mp hp with rfl | hp
      · exact hpending
      · exact houter p hp
    · obtain ⟨c, hc, rfl⟩ := map_ok h
      exact ⟨hst.pending, hst.outer, hcrit, hpending, houter, creatable_value hcrit hc⟩
  · rename_i path op pending outer t hop
    rw [hop] at hexpects
    obtain ⟨hcrit, hpending, houter, ht⟩ := hexpects
    split at h
    · cases h
      exact ⟨hst.pending, hst.outer, hcrit, pendingValues_cons hpending ht _, houter⟩
    · cases h
      exact ⟨hst.pending, hst.outer, hcrit, pendingValues_cons hpending ht _, houter⟩
    · split at h
      · cases h
        exact ⟨hst.pending, hst.outer, hpending.reduce ht⟩
      · cases h
        exact ⟨hst.pending, hst.outer, hcrit, houter _ List.mem_cons_self,
          fun p hp => houter p (List.mem_cons_of_mem _ hp), hpending.reduce ht⟩
    · cases h
  · rename_i t hop
    rw [hop] at hexpects
    exact hst.stepOperator hexpects h

theorem ParserState.Creatable.finish (hst : st.Creatable) (h : st.finish = .ok t) :
    LibPrelude.Creatable t := by
  have hexpects := hst.expects
  unfold ParserState.finish at h
  split at h
  · cases h
    exact hst.pending.reduce (creatable_exists _)
  · rename_i u _ hop
    rw [hop] at hexpects
    cases h
    exact hst.pending.reduce hexpects
  · cases h

theorem ParserState.Creatable.parse {toks : List Token} (hst : st.Creatable)
    (h : st.parse pl toks = .ok t) : LibPrelude.Creatable t := by
  induction toks generalizing st with
  | nil => exact hst.finish h
  | cons tok toks ih =>
    rw [ParserState.parse] at h
    split_ifs at h
    · cases h
    · rcases hstep : st.step pl tok with e | st' <;> rw [hstep] at h
      · cases h
      · exact ih (hst.step hstep) h

theorem ParserState.creatable_initial : ParserState.initial.Creatable :=
  ⟨Pending.creatable_new, nofun, trivial⟩

theorem idmefCriteriaNewFromString_ok {str : List UInt8}
    (h : ParserState.initial.parse pl (criteriaTokens str) = .ok t) :
    ∃ p store nodes, idmefCriteriaNewFromString pl str = .ok (p, store) ∧
      Represents store nodes p t := by
  obtain ⟨p, store, nodes, hnodes, hrep⟩ :=
    createNodes_represents (ParserState.creatable_initial.parse h)
  refine ⟨p, store, nodes, ?_, hrep⟩
  rw [idmefCriteriaNewFromString, h]
  exact hnodes

theorem idmefCriteriaNewFromString_error {str : List UInt8} {e : ErrorCode}
    (h : ParserState.initial.parse pl (criteriaTokens str) = .error e) :
    idmefCriteriaNewFromString pl str = .error e := by
  rw [idmefCriteriaNewFromString, h]

/-- Matching an object with criteria ends with a result. -/
def MatchResult (pl : Platform) (criteria : ℕ × CriteriaStore IdmefPath CriterionValue)
    (object : Obj) (r : Except ErrorCode Bool) : Prop :=
  ∃ n, ∀ fuel ≥ n, idmefCriteriaMatch (criterionMatch pl object) criteria.2 fuel
    (.criteria criteria.1) = some r

theorem matchResult_iff {pl : Platform} {store : CriteriaStore IdmefPath CriterionValue}
    {nodes : List ℕ} {p : ℕ} (h : Represents store nodes p t) {object : Obj}
    {r : Except ErrorCode Bool} : MatchResult pl (p, store) object r ↔
      r = t.eval Formula.lenient (criterionMatch pl object) := by
  obtain ⟨n, hn⟩ := match_represents (criterionMatch pl object) h
  constructor
  · rintro ⟨m, hm⟩
    have heq := (hm (max n m) (le_max_right _ _)).symm.trans (hn (max n m) (le_max_left _ _))
    exact Option.some.inj heq
  · rintro rfl
    exact ⟨n, hn⟩

/-- Two texts are both refused, or read as criteria that match every message with the same
result. -/
@[irreducible] def SameCriteria (pl : CriteriaPlatform) (str str' : List UInt8) : Prop :=
  match idmefCriteriaNewFromString pl str, idmefCriteriaNewFromString pl str' with
  | .ok c, .ok c' => ∀ object, HasType (.struct .message) object → ∀ r,
      MatchResult pl.toPlatform c object r ↔ MatchResult pl.toPlatform c' object r
  | .error _, .error _ => True
  | _, _ => False

theorem sameCriteria_iff {str str' : List UInt8} : SameCriteria pl str str' ↔
    ((∃ t, ParserState.initial.parse pl (criteriaTokens str) = .ok t) ↔
      ∃ t, ParserState.initial.parse pl (criteriaTokens str') = .ok t) ∧
    ∀ t t', ParserState.initial.parse pl (criteriaTokens str) = .ok t →
      ParserState.initial.parse pl (criteriaTokens str') = .ok t' →
      ∀ object, HasType (.struct .message) object →
        t.eval Formula.lenient (criterionMatch pl.toPlatform object) =
          t'.eval Formula.lenient (criterionMatch pl.toPlatform object) := by
  unfold SameCriteria
  rcases h : ParserState.initial.parse pl (criteriaTokens str) with e | t <;>
    rcases h' : ParserState.initial.parse pl (criteriaTokens str') with e' | t'
  · simp [idmefCriteriaNewFromString_error h, idmefCriteriaNewFromString_error h']
  · obtain ⟨p', store', nodes', hnew', -⟩ := idmefCriteriaNewFromString_ok h'
    simp [idmefCriteriaNewFromString_error h, hnew']
  · obtain ⟨p, store, nodes, hnew, -⟩ := idmefCriteriaNewFromString_ok h
    simp [idmefCriteriaNewFromString_error h', hnew]
  · obtain ⟨p, store, nodes, hnew, hrep⟩ := idmefCriteriaNewFromString_ok h
    obtain ⟨p', store', nodes', hnew', hrep'⟩ := idmefCriteriaNewFromString_ok h'
    simp only [hnew, hnew', matchResult_iff hrep, matchResult_iff hrep', Except.ok.injEq]
    constructor
    · intro hsame
      refine ⟨⟨fun _ => ⟨t', rfl⟩, fun _ => ⟨t, rfl⟩⟩, ?_⟩
      rintro _ _ rfl rfl object hobject
      exact (hsame object hobject _).mp rfl
    · rintro ⟨-, hsame⟩ object hobject r
      rw [hsame t t' rfl rfl object hobject]

end

end LibPrelude
