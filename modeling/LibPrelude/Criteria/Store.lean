import LibPrelude.General.Formula
import LibPrelude.Idmef.Operator
import LibPrelude.Message.Basic

/-! # Trees of criteria

One type of node holds criteria, whose pointers are a path and a value, and the
boolean operators on two trees. Trees are built by joining them under a new node
and, in place, by moving the content of a node to a new one. In every forest built
so, each tree denotes a formula whose atoms are criteria, and matching a message
evaluates the formula except that the negation of an error is zero.
-/

namespace LibPrelude

inductive CriteriaPointer (P V : Type) where
  | null
  | criteria (address : ℕ)
  | path (p : P)
  | value (v : V)

structure IdmefCriteria (P V : Type) where
  left : CriteriaPointer P V := .null
  right : CriteriaPointer P V := .null
  operator : Operator := {}

/-- The nodes allocated so far; the address of a node is its position. -/
abbrev CriteriaStore (P V : Type) := List (IdmefCriteria P V)

/-- A path, the value compared with what the path designates, and the operator. -/
structure Criterion (P V : Type) where
  path : P
  value : Option V
  operator : Operator

variable {P V : Type}

/-- An operator of a criterion, neither of the boolean operators nor a negation alone. -/
def Operator.isCriterion (op : Operator) : Bool := !(op.or || op.and || op = criteriaNot)

def idmefCriteriaIsCriterion (criteria : IdmefCriteria P V) : Bool := criteria.operator.isCriterion

/-- A node with all bits zero. -/
def zeroCriteria : IdmefCriteria P V where

def idmefCriteriaNew (store : CriteriaStore P V) : ℕ × CriteriaStore P V :=
  (store.length, store ++ [zeroCriteria])

def valuePointer : Option V → CriteriaPointer P V
  | none => .null
  | some v => .value v

def criteriaPointer : Option ℕ → CriteriaPointer P V
  | none => .null
  | some a => .criteria a

def idmefCriterionNew (store : CriteriaStore P V) (path : P) (value : Option V) (op : Operator) :
    Except ErrorCode (ℕ × CriteriaStore P V) :=
  if value.isNone ∧ ¬ op.null then .error .assertion
  else
    let (criterion, store) := idmefCriteriaNew store
    .ok (criterion, store.set criterion ⟨.path path, valuePointer value, op⟩)

/-- Move the content of a node to a new node and make the node the parent of the new node and of
another tree. -/
def idmefCriteriaAppendCriteria (store : CriteriaStore P V) (criteria criteria2 : ℕ)
    (op : Operator) : Except ErrorCode (CriteriaStore P V) :=
  match store[criteria]? with
  | none => .error .assertion
  | some node =>
    let (new, store) := idmefCriteriaNew store
    .ok ((store.set new node).set criteria ⟨.criteria new, .criteria criteria2, op⟩)

def idmefCriteriaOrCriteria (store : CriteriaStore P V) (criteria criteria2 : ℕ) :
    Except ErrorCode (CriteriaStore P V) :=
  idmefCriteriaAppendCriteria store criteria criteria2 criteriaOr

def idmefCriteriaAndCriteria (store : CriteriaStore P V) (criteria criteria2 : ℕ) :
    Except ErrorCode (CriteriaStore P V) :=
  idmefCriteriaAppendCriteria store criteria criteria2 criteriaAnd

def idmefCriteriaJoin (store : CriteriaStore P V) (left : Option ℕ) (op : Operator)
    (right : Option ℕ) : Except ErrorCode (ℕ × CriteriaStore P V) :=
  if right.isNone then .error .assertion
  else if left.isNone ∧ op ≠ criteriaNot then .error .assertion
  else
    let (criteria, store) := idmefCriteriaNew store
    .ok (criteria, store.set criteria ⟨criteriaPointer left, criteriaPointer right, op⟩)

section

variable (criterionMatch : Criterion P V → Except ErrorCode Bool)

def criterionNodeMatch (node : IdmefCriteria P V) : Option (Except ErrorCode Bool) :=
  match node.left, node.right with
  | .path p, .null => some (criterionMatch ⟨p, none, node.operator⟩)
  | .path p, .value v => some (criterionMatch ⟨p, some v, node.operator⟩)
  | _, _ => none

/-- Match the message with a tree, given how it matches a criterion; there is no result without fuel
or for a pointer that refers to no node. An error is a negative number, so the operator `!` makes it
zero. -/
def idmefCriteriaMatch (store : CriteriaStore P V) :
    ℕ → CriteriaPointer P V → Option (Except ErrorCode Bool)
  | 0, _ => none
  | _ + 1, .null => some (.error .assertion)
  | fuel + 1, .criteria a =>
    match store[a]? with
    | none => none
    | some criteria =>
      if idmefCriteriaIsCriterion criteria then criterionNodeMatch criterionMatch criteria
      else
        let right := idmefCriteriaMatch store fuel criteria.right
        let ret :=
          if criteria.operator = criteriaNot then right
          else
            match idmefCriteriaMatch store fuel criteria.left with
            | some (.ok false) => if criteria.operator.or then right else some (.ok false)
            | some (.ok true) => if criteria.operator.and then right else some (.ok true)
            | r => r
        if criteria.operator.not then ret.map Formula.lenient else ret
  | _ + 1, _ => none

end

inductive Connective where
  | and
  | or

def Connective.operator : Connective → Operator
  | and => criteriaAnd
  | or => criteriaOr

def Connective.join {α : Type} : Connective → Formula α → Formula α → Formula α
  | and => .and
  | or => .or

/-- The tree below an address is that of the formula; the nodes are those of the tree. -/
inductive Represents (store : CriteriaStore P V) :
    List ℕ → ℕ → Formula (Criterion P V) → Prop
  | criterion {a : ℕ} {path : P} {value : Option V} {op : Operator} :
      store[a]? = some ⟨.path path, valuePointer value, op⟩ → op.isCriterion →
      Represents store [a] a (.atom ⟨path, value, op⟩)
  | not {a r : ℕ} {left : CriteriaPointer P V} {nodes : List ℕ} {t : Formula (Criterion P V)} :
      store[a]? = some ⟨left, .criteria r, criteriaNot⟩ → a ∉ nodes →
      Represents store nodes r t → Represents store (a :: nodes) a (.not t)
  | binary (c : Connective) {a l r : ℕ} {nodes nodes' : List ℕ} {t u : Formula (Criterion P V)} :
      store[a]? = some ⟨.criteria l, .criteria r, c.operator⟩ → a ∉ nodes → a ∉ nodes' →
      Represents store nodes l t → Represents store nodes' r u →
      Represents store (a :: (nodes ++ nodes')) a (c.join t u)

section

variable {store store' : CriteriaStore P V} {nodes nodes' : List ℕ} {a p q : ℕ}
  {t u : Formula (Criterion P V)}

theorem Represents.root_mem (h : Represents store nodes a t) : a ∈ nodes := by
  cases h <;> exact List.mem_cons_self

theorem Represents.lt_length (h : Represents store nodes a t) : ∀ n ∈ nodes, n < store.length := by
  have hlt {n : ℕ} {node : IdmefCriteria P V} (h : store[n]? = some node) : n < store.length :=
    (List.getElem?_eq_some_iff.mp h).1
  induction h with
  | criterion h _ =>
    intro n hn
    rw [List.mem_singleton.mp hn]
    exact hlt h
  | not h _ _ ih =>
    intro n hn
    rcases List.mem_cons.mp hn with rfl | hn
    · exact hlt h
    · exact ih n hn
  | binary _ h _ _ _ _ ihl ihr =>
    intro n hn
    rcases List.mem_cons.mp hn with rfl | hn
    · exact hlt h
    · rcases List.mem_append.mp hn with hn | hn
      · exact ihl n hn
      · exact ihr n hn

theorem Represents.frame (h : Represents store nodes a t)
    (hs : ∀ n ∈ nodes, store'[n]? = store[n]?) : Represents store' nodes a t := by
  induction h with
  | criterion h hop => exact .criterion ((hs _ List.mem_cons_self).trans h) hop
  | not h hn _ ih =>
    refine .not ((hs _ List.mem_cons_self).trans h) hn (ih fun n hmem => ?_)
    exact hs n (List.mem_cons_of_mem _ hmem)
  | binary c h hl hr _ _ ihl ihr =>
    refine .binary c ((hs _ List.mem_cons_self).trans h) hl hr
      (ihl fun n hmem => ?_) (ihr fun n hmem => ?_)
    · exact hs n (List.mem_cons_of_mem _ (List.mem_append_left _ hmem))
    · exact hs n (List.mem_cons_of_mem _ (List.mem_append_right _ hmem))

/-- The content of the root moved to a new address represents the same formula. -/
theorem Represents.move {new : ℕ} {node : IdmefCriteria P V} (h : Represents store nodes p t)
    (hp : store[p]? = some node) (hnew : store'[new]? = some node) (hfresh : new ∉ nodes)
    (hs : ∀ n ∈ nodes, n ≠ p → store'[n]? = store[n]?) :
    ∃ nodes', Represents store' nodes' new t ∧ ∀ n ∈ nodes', n = new ∨ n ∈ nodes ∧ n ≠ p := by
  have hsub {ns : List ℕ} {b : ℕ} {s : Formula (Criterion P V)} (hb : Represents store ns b s)
      (hpn : p ∉ ns) (hin : ∀ n ∈ ns, n ∈ nodes) :
      Represents store' ns b s ∧ ∀ n ∈ ns, n ∈ nodes ∧ n ≠ p := by
    have hne : ∀ n ∈ ns, n ≠ p := fun n hn heq => hpn (heq ▸ hn)
    exact ⟨hb.frame fun n hn => hs n (hin n hn) (hne n hn), fun n hn => ⟨hin n hn, hne n hn⟩⟩
  cases h with
  | criterion h hop =>
    obtain rfl := Option.some.inj (h.symm.trans hp)
    exact ⟨[new], .criterion hnew hop, fun n hn => .inl (List.mem_singleton.mp hn)⟩
  | @not _ r left ns s h hn hr =>
    obtain rfl := Option.some.inj (h.symm.trans hp)
    obtain ⟨hr', hin⟩ := hsub hr hn fun n hmem => List.mem_cons_of_mem _ hmem
    refine ⟨new :: ns, .not hnew (fun hmem => hfresh (hin new hmem).1) hr', fun n hmem => ?_⟩
    rcases List.mem_cons.mp hmem with rfl | hmem
    · exact .inl rfl
    · exact .inr (hin n hmem)
  | @binary c _ l r ns ns' s s' h hl hr htl htr =>
    obtain rfl := Option.some.inj (h.symm.trans hp)
    obtain ⟨htl', hinl⟩ := hsub htl hl fun n hmem =>
      List.mem_cons_of_mem _ (List.mem_append_left _ hmem)
    obtain ⟨htr', hinr⟩ := hsub htr hr fun n hmem =>
      List.mem_cons_of_mem _ (List.mem_append_right _ hmem)
    refine ⟨new :: (ns ++ ns'), .binary c hnew (fun hmem => hfresh (hinl new hmem).1)
      (fun hmem => hfresh (hinr new hmem).1) htl' htr', fun n hmem => ?_⟩
    rcases List.mem_cons.mp hmem with rfl | hmem
    · exact .inl rfl
    · exact .inr ((List.mem_append.mp hmem).elim (hinl n) (hinr n))

/-- Appending a tree in place gives the conjunction or disjunction at the same address, made of the
nodes of both trees and a new one. -/
theorem append_represents (c : Connective) (hp : Represents store nodes p t)
    (hq : Represents store nodes' q u) (hpq : p ∉ nodes') :
    ∃ store', idmefCriteriaAppendCriteria store p q c.operator = .ok store' ∧
      (∀ n < store.length, n ≠ p → store'[n]? = store[n]?) ∧
      ∃ all, Represents store' all p (c.join t u) ∧
        ∀ n ∈ all, n = store.length ∨ n ∈ nodes ∨ n ∈ nodes' := by
  have hlt : p < store.length := hp.lt_length p hp.root_mem
  have hne : store.length ≠ p := hlt.ne'
  have hnode : store[p]? = some store[p] := List.getElem?_eq_getElem hlt
  have hfresh {ns : List ℕ} {b : ℕ} {s : Formula (Criterion P V)}
      (h : Represents store ns b s) : store.length ∉ ns :=
    fun hmem => lt_irrefl _ (h.lt_length _ hmem)
  let store₁ : CriteriaStore P V := (store ++ [zeroCriteria]).set store.length store[p]
  let store₂ : CriteriaStore P V := store₁.set p ⟨.criteria store.length, .criteria q, c.operator⟩
  have happend : idmefCriteriaAppendCriteria store p q c.operator = .ok store₂ := by
    unfold idmefCriteriaAppendCriteria
    rw [hnode]
    rfl
  have hold : ∀ n < store.length, n ≠ p → store₂[n]? = store[n]? := by
    intro n hn hnp
    simp only [store₂, store₁, List.getElem?_set_ne hnp.symm, List.getElem?_set_ne hn.ne',
      List.getElem?_append_left hn]
  have hnew : store₂[store.length]? = some store[p] := by
    simp only [store₂, store₁, List.getElem?_set_ne hne.symm]
    exact List.getElem?_set_self (by simp)
  have hroot : store₂[p]? = some ⟨.criteria store.length, .criteria q, c.operator⟩ := by
    refine List.getElem?_set_self ?_
    simp only [store₁, List.length_set, List.length_append, List.length_singleton]
    omega
  obtain ⟨moved, hmoved, hsub⟩ := hp.move hnode hnew (hfresh hp)
    fun n hn hnp => hold n (hp.lt_length n hn) hnp
  have hq' : Represents store₂ nodes' q u := hq.frame fun n hn =>
    hold n (hq.lt_length n hn) fun heq => hpq (heq ▸ hn)
  have hpm : p ∉ moved := fun hmem => (hsub p hmem).elim (fun h => hne h.symm) fun h => h.2 rfl
  refine ⟨store₂, happend, hold, _, .binary c hroot hpm hpq hmoved hq', fun n hn => ?_⟩
  rcases List.mem_cons.mp hn with rfl | hn
  · exact .inr (.inl hp.root_mem)
  · rcases List.mem_append.mp hn with hn | hn
    · exact (hsub n hn).imp_right fun h => .inl h.1
    · exact .inr (.inr hn)

theorem new_node {node : IdmefCriteria P V} {n : ℕ} (hn : n < store.length) :
    ((store ++ [zeroCriteria]).set store.length node)[n]? = store[n]? := by
  rw [List.getElem?_set_ne hn.ne', List.getElem?_append_left hn]

theorem new_node_self {node : IdmefCriteria P V} :
    ((store ++ [zeroCriteria]).set store.length node)[store.length]? = some node :=
  List.getElem?_set_self (by simp)

theorem Represents.extend (h : Represents store nodes a t) (node : IdmefCriteria P V) :
    Represents ((store ++ [zeroCriteria]).set store.length node) nodes a t :=
  h.frame fun n hn => new_node (h.lt_length n hn)

theorem match_criterion (results : Criterion P V → Except ErrorCode Bool) {path : P}
    {value : Option V} {op : Operator} {fuel : ℕ}
    (h : store[a]? = some ⟨.path path, valuePointer value, op⟩) (hop : op.isCriterion) :
    idmefCriteriaMatch results store (fuel + 1) (.criteria a) =
      some (results ⟨path, value, op⟩) := by
  have hc : idmefCriteriaIsCriterion (⟨.path path, valuePointer value, op⟩ : IdmefCriteria P V) :=
    hop
  rw [idmefCriteriaMatch, h]
  simp only [hc, if_true]
  cases value <;> rfl

theorem match_not (results : Criterion P V → Except ErrorCode Bool) {r : ℕ}
    {left : CriteriaPointer P V} {fuel : ℕ}
    (h : store[a]? = some ⟨left, .criteria r, criteriaNot⟩) :
    idmefCriteriaMatch results store (fuel + 1) (.criteria a) =
      (idmefCriteriaMatch results store fuel (.criteria r)).map Formula.lenient := by
  rw [idmefCriteriaMatch, h]
  rfl

theorem match_binary (results : Criterion P V → Except ErrorCode Bool) (c : Connective) {l r : ℕ}
    {fuel : ℕ} (h : store[a]? = some ⟨.criteria l, .criteria r, c.operator⟩)
    (hl : idmefCriteriaMatch results store fuel (.criteria l) =
      some (t.eval Formula.lenient results))
    (hr : idmefCriteriaMatch results store fuel (.criteria r) =
      some (u.eval Formula.lenient results)) :
    idmefCriteriaMatch results store (fuel + 1) (.criteria a) =
      some ((c.join t u).eval Formula.lenient results) := by
  rw [idmefCriteriaMatch, h]
  cases c
  · change (match idmefCriteriaMatch results store fuel (.criteria l) with
      | some (Except.ok false) => some (Except.ok false)
      | some (Except.ok true) => idmefCriteriaMatch results store fuel (.criteria r)
      | r => r) = _
    rw [hl, hr, Connective.join, Formula.eval]
    rcases t.eval Formula.lenient results with e | _ | _ <;> rfl
  · change (match idmefCriteriaMatch results store fuel (.criteria l) with
      | some (Except.ok false) => idmefCriteriaMatch results store fuel (.criteria r)
      | some (Except.ok true) => some (Except.ok true)
      | r => r) = _
    rw [hl, hr, Connective.join, Formula.eval]
    rcases t.eval Formula.lenient results with e | _ | _ <;> rfl

/-- With fuel enough for the tree, matching evaluates the formula. -/
theorem match_represents (results : Criterion P V → Except ErrorCode Bool)
    (h : Represents store nodes a t) : ∃ n, ∀ fuel ≥ n,
      idmefCriteriaMatch results store fuel (.criteria a) =
        some (t.eval Formula.lenient results) := by
  induction h with
  | criterion h hop =>
    refine ⟨1, fun fuel hfuel => ?_⟩
    obtain ⟨k, rfl⟩ := Nat.exists_eq_add_of_le' hfuel
    exact match_criterion results h hop
  | not h _ _ ih =>
    obtain ⟨n, ih⟩ := ih
    refine ⟨n + 1, fun fuel hfuel => ?_⟩
    obtain ⟨k, rfl⟩ := Nat.exists_eq_add_of_le' (Nat.le_of_add_left_le hfuel)
    rw [match_not results h, ih k (by omega)]
    rfl
  | binary c h _ _ _ _ ihl ihr =>
    obtain ⟨n, ihl⟩ := ihl
    obtain ⟨m, ihr⟩ := ihr
    refine ⟨max n m + 1, fun fuel hfuel => ?_⟩
    obtain ⟨k, rfl⟩ := Nat.exists_eq_add_of_le' (Nat.le_of_add_left_le hfuel)
    have hk : max n m ≤ k := by omega
    exact match_binary results c h (ihl k (le_trans (le_max_left _ _) hk))
      (ihr k (le_trans (le_max_right _ _) hk))

end

end LibPrelude
