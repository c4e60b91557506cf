import LibPrelude.General.Tally
import LibPrelude.Criteria.ValueList

/-! # Matching values

Two values match as many times as there are pairs of scalars of theirs that match. The iteration
goes over the left value; when it comes to a scalar and the right value is a list, it begins
again with the operands exchanged, and so the operator is applied the other way round.
-/

namespace LibPrelude

open Tally

/-- Why a match ends early; a fault is a read through a null pointer. -/
inductive MatchFailure where
  | error (code : ErrorCode)
  | fault

def scalarType : Option IdmefValue → Option ValueType
  | some (.scalar v) => some v
  | _ => none

/-- The comparison of two scalars, either of which may be absent. -/
def matchTypes (m : Machine) (op : Operator) (type1 type2 : Option ValueType) :
    Except MatchFailure Bool :=
  match type2 with
  | none => .error .fault
  | some t2 =>
    match idmefValueTypeCompare m type1 (some t2) op with
    | .error e => .error (.error e)
    | .ok ret => .ok (ret = 0)

/-- Whether the operands are to be exchanged. -/
def exchanges : Option IdmefValue → Option IdmefValue → ℕ
  | some (.list _), _ => 0
  | _, some (.list _) => 1
  | _, _ => 0

theorem exchanges_le (val1 val2 : Option IdmefValue) : exchanges val1 val2 ≤ 1 := by
  fun_cases exchanges <;> simp

mutual

def idmefValueMatchInternal (m : Machine) (op : Operator) :
    Option IdmefValue → Option IdmefValue → ℕ → Except MatchFailure ℕ
  | some (.list l), val2, matched => idmefValueIterate m op l val2 matched
  | none, some (.list l), matched =>
    (idmefValueMatch m op (some (.list l)) none).map (matched + ·)
  | some (.scalar v), some (.list l), matched =>
    (idmefValueMatch m op (some (.list l)) (some (.scalar v))).map (matched + ·)
  | val1, val2, matched =>
    match matchTypes m op (scalarType val1) (scalarType val2) with
    | .error e => .error e
    | .ok equal => .ok (if equal then matched + 1 else matched)
termination_by val1 val2 => 4 * (sizeOf val1 + sizeOf val2) + 2 * exchanges val1 val2
decreasing_by all_goals simp only [exchanges, Option.some.sizeOf_spec, Option.none.sizeOf_spec,
  IdmefValue.list.sizeOf_spec, IdmefValue.scalar.sizeOf_spec]; omega

def idmefValueIterate (m : Machine) (op : Operator) :
    List (Option IdmefValue) → Option IdmefValue → ℕ → Except MatchFailure ℕ
  | [], _, matched => .ok matched
  | v :: vs, val2, matched =>
    match idmefValueMatchInternal m op v val2 matched with
    | .error e => .error e
    | .ok matched => idmefValueIterate m op vs val2 matched
termination_by l val2 => 4 * (sizeOf l + sizeOf val2)
decreasing_by
  · have := exchanges_le v val2
    simp only [List.cons.sizeOf_spec]
    omega
  · simp only [List.cons.sizeOf_spec]
    omega

def idmefValueMatch (m : Machine) (op : Operator) (val1 val2 : Option IdmefValue) :
    Except MatchFailure ℕ :=
  match val1, val2 with
  | none, none => .error (.error .assertion)
  | some (.list l), val2 => idmefValueIterate m op l val2 0
  | val1, val2 => idmefValueMatchInternal m op val1 val2 0
termination_by 4 * (sizeOf val1 + sizeOf val2) + 2 * exchanges val1 val2 + 1

end

section

variable {m : Machine} {op : Operator} {as bs : List (Option ValueType)}
  {v val1 val2 : Option IdmefValue} {l : List (Option IdmefValue)} {matched : ℕ}
  {f : Option ValueType → Option ValueType → Except MatchFailure Bool}

theorem tally_append_product : tally (fun p => f p.1 p.2) ((as ++ as') ×ˢ bs) matched =
    tally (fun p => f p.1 p.2) (as ×ˢ bs) matched >>= tally (fun p => f p.1 p.2) (as' ×ˢ bs) := by
  rw [← tally_append]
  exact congrArg (tally _ · matched) List.flatMap_append

theorem tally_singleton_product (a : Option ValueType) :
    tally (fun p => f p.1 p.2) ([a] ×ˢ bs) matched = tally (f a) bs matched := by
  rw [show [a] ×ˢ bs = bs.map (a, ·) by simp, tally_map]
  rfl

mutual

/-- What is done with a value that is no list is done with each scalar of a value in turn. -/
theorem matchInternal_leaves (h : ∀ v matched, isList v = false →
    idmefValueMatchInternal m op v val2 matched = tally (f (scalarType v)) bs matched)
    (v : Option IdmefValue) (matched : ℕ) : idmefValueMatchInternal m op v val2 matched =
      tally (fun p => f p.1 p.2) (leavesOpt v ×ˢ bs) matched :=
  match v with
  | none => by rw [h none matched rfl, leavesOpt, tally_singleton_product]; rfl
  | some (.scalar w) => by
    rw [h _ matched rfl, leavesOpt, IdmefValue.leaves, tally_singleton_product, scalarType]
  | some (.list l) => by
    rw [idmefValueMatchInternal, leavesOpt, IdmefValue.leaves]
    exact iterate_leaves h l matched

theorem iterate_leaves (h : ∀ v matched, isList v = false →
    idmefValueMatchInternal m op v val2 matched = tally (f (scalarType v)) bs matched)
    (l : List (Option IdmefValue)) (matched : ℕ) : idmefValueIterate m op l val2 matched =
      tally (fun p => f p.1 p.2) (leavesList l ×ˢ bs) matched :=
  match l with
  | [] => by rw [idmefValueIterate, leavesList]; rfl
  | v :: vs => by
    rw [idmefValueIterate, leavesList, tally_append_product, matchInternal_leaves h v]
    cases tally (fun p => f p.1 p.2) (leavesOpt v ×ˢ bs) matched with
    | error e => rfl
    | ok n => exact iterate_leaves h vs n

end

end

def Holds (m : Machine) (op : Operator) (a b : Option ValueType) : Bool :=
  idmefValueTypeCompare m a b op matches .ok 0

def Comparable (m : Machine) (op : Operator) (a b : Option ValueType) : Prop :=
  ∃ ret, idmefValueTypeCompare m a b op = .ok ret

structure Alike (m : Machine) (op : Operator) (a b : Option ValueType) : Prop where
  isSome : a.isSome
  comparable : Comparable m op b a ↔ Comparable m op a b
  holds : Holds m op b a = Holds m op a b

section

variable {m : Machine} {op : Operator} {a b : Option ValueType}
  {ps : List (Option ValueType × Option ValueType)}

end

end LibPrelude
