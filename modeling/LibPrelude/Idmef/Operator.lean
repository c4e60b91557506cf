import Mathlib.Data.Bool.Basic

/-! # Operators of criteria

One field of flags holds the operator of a criterion and the boolean operator of
a node that joins two criteria. The flag for a negation is shared by both.
-/

namespace LibPrelude

/-- The flags of an operator, from the least significant bit to the most significant one. -/
structure Operator where
  equal : Bool := false
  lesser : Bool := false
  greater : Bool := false
  substr : Bool := false
  regex : Bool := false
  null : Bool := false
  and : Bool := false
  or : Bool := false
  nocase : Bool := false
  not : Bool := false
  deriving DecidableEq, Repr

namespace Operator

def inter (a b : Operator) : Operator where
  equal := a.equal && b.equal
  lesser := a.lesser && b.lesser
  greater := a.greater && b.greater
  substr := a.substr && b.substr
  regex := a.regex && b.regex
  null := a.null && b.null
  and := a.and && b.and
  or := a.or && b.or
  nocase := a.nocase && b.nocase
  not := a.not && b.not

def union (a b : Operator) : Operator where
  equal := a.equal || b.equal
  lesser := a.lesser || b.lesser
  greater := a.greater || b.greater
  substr := a.substr || b.substr
  regex := a.regex || b.regex
  null := a.null || b.null
  and := a.and || b.and
  or := a.or || b.or
  nocase := a.nocase || b.nocase
  not := a.not || b.not

def positive (op : Operator) : Operator := { op with not := false }

def negated (op : Operator) : Operator := { op with not := true }

end Operator

def criteriaNot : Operator := { not := true }
def criteriaAnd : Operator := { and := true }
def criteriaOr : Operator := { or := true }

def criterionEqual : Operator := { equal := true }
def criterionEqualNocase : Operator := { equal := true, nocase := true }
def criterionNotEqual : Operator := { equal := true, not := true }
def criterionNotEqualNocase : Operator := { equal := true, nocase := true, not := true }
def criterionLesser : Operator := { lesser := true }
def criterionGreater : Operator := { greater := true }
def criterionLesserOrEqual : Operator := { lesser := true, equal := true }
def criterionGreaterOrEqual : Operator := { greater := true, equal := true }
def criterionRegex : Operator := { regex := true }
def criterionRegexNocase : Operator := { regex := true, nocase := true }
def criterionNotRegex : Operator := { regex := true, not := true }
def criterionNotRegexNocase : Operator := { regex := true, nocase := true, not := true }
def criterionSubstr : Operator := { substr := true }
def criterionSubstrNocase : Operator := { substr := true, nocase := true }
def criterionNotSubstr : Operator := { substr := true, not := true }
def criterionNotSubstrNocase : Operator := { substr := true, nocase := true, not := true }
def criterionNull : Operator := { null := true }
def criterionNotNull : Operator := { null := true, not := true }

end LibPrelude
