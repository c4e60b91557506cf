import LibPrelude.Idmef.ValueType
import Mathlib.Data.List.DropRight

/-! # Lines of a configuration

A line is a comment, a section in brackets, or an entry, which may have a value after an equals
sign. A value names variables after a dollar sign; an entry that starts with one sets a variable.
A line with an equals sign and no entry before it is read through a null pointer.
-/

namespace LibPrelude

/-- Why a line cannot be read; a fault is a read through a null pointer. -/
inductive LineFailure where
  | error
  | fault
  deriving DecidableEq

abbrev Line := List UInt8

abbrev Variables := List (Line × Option Line)

def variableGet (vars : Variables) (name : Line) : Option Line :=
  (vars.find? fun v => strcasecmp v.1 name).bind (·.2)

def variableSet (vars : Variables) (name : Line) (value : Option Line) : Variables :=
  if vars.any fun v => strcasecmp v.1 name then
    vars.modify (vars.findIdx fun v => strcasecmp v.1 name) fun v => (v.1, value)
  else vars ++ [(name, value)]

def isBlank (b : UInt8) : Bool := b = 32 ∨ b = 9 ∨ b = 13

def isLineCommented (line : Line) : Bool := (line.dropWhile isBlank).head? = some 35

def isSection (line : Line) : Bool :=
  let line := line.dropWhile fun b => isBlank b ∨ b = 10
  line.head? = some 91 ∧ 93 ∈ line

/-- The text between blanks and then between quotes; nothing when none is left. -/
def stripValue (inp : Line) : Option Line :=
  let inp := inp.dropWhile isBlank
  let quote : Bool := inp.head? = some 34
  let trimmed := (if quote then inp.tail else inp).rdropWhile isBlank
  let out :=
    if quote ∧ trimmed ≠ [] then
      if trimmed.getLast? = some 34 then trimmed.dropLast else 34 :: trimmed
    else trimmed
  if out = [] then none else some out

/-- The name after a dollar sign, which is as long as a buffer at most. -/
def variableName (ptr : Line) : Line := (ptr.takeWhile fun b => b ≠ 32 ∧ b ≠ 36).take 510

/-- A value with the variables in it replaced by theirs. -/
def valueResolveVariable (vars : Variables) : Line → Line
  | [] => []
  | b :: ptr =>
    match if b = 36 then variableGet vars (variableName ptr) else none with
    | none => b :: valueResolveVariable vars ptr
    | some value => value ++ valueResolveVariable vars (ptr.drop (variableName ptr).length)
termination_by ptr => ptr.length
decreasing_by
  · simp
  · simp only [List.length_drop, List.length_cons]
    omega

def entryOf (line : Line) : Option Line := stripValue (line.takeWhile (· ≠ 61))

/-- The value after an equals sign, before variables are replaced. -/
def valueOf (line : Line) : Option Line := stripValue (line.dropWhile (· ≠ 61)).tail

/-- What a line says: an entry, its value and the variables after that. -/
def parseBuffer (vars : Variables) (str : Line) :
    Except LineFailure (Option Line × Option Line × Variables) :=
  if str = [] then .error .error
  else if 61 ∉ str then .ok (entryOf str, none, vars)
  else
    let value := ((valueOf str).map (valueResolveVariable vars)).filter (· ≠ [])
    match entryOf str with
    | none => .error .fault
    | some name =>
      .ok (some name, value,
        if name.head? = some 36 then variableSet vars name.tail value else vars)

def parseSectionBuffer (vars : Variables) (buf : Line) (defaultValue : Bool) :
    Except LineFailure (Option Line × Option Line × Variables) :=
  let buf := buf.dropWhile fun b => b = 10 ∨ b = 32 ∨ b = 91
  (parseBuffer vars (buf.takeWhile (· ≠ 93))).map fun (entry, value, vars) =>
    (entry, if value = none ∧ defaultValue then some (ascii "default") else value, vars)

/-- The text of a section between the brackets. -/
def sectionText (line : Line) : Line :=
  (line.dropWhile fun b => b = 10 ∨ b = 32 ∨ b = 91).takeWhile (· ≠ 93)

/-- An equals sign with no entry before it. -/
def Faulty (line : Line) : Prop := 61 ∈ line ∧ entryOf line = none

instance : DecidablePred Faulty := fun _ => inferInstanceAs (Decidable (_ ∧ _))

/-- A section that the search for a section compares without a name on both sides. -/
def Incomparable (name line : Line) : Prop :=
  ¬ isLineCommented line ∧ isSection line ∧ sectionText line ≠ [] ∧
    (entryOf (sectionText line) = none ∨ entryOf (sectionText name) = none)

theorem parseBuffer_cases (vars : Variables) (line : Line) :
    (line = [] ∧ parseBuffer vars line = .error .error) ∨
    (Faulty line ∧ parseBuffer vars line = .error .fault) ∨
    (line ≠ [] ∧ ¬ Faulty line ∧
      ∃ value vars', parseBuffer vars line = .ok (entryOf line, value, vars')) := by
  unfold parseBuffer
  by_cases hnil : line = []
  · exact .inl ⟨hnil, if_pos hnil⟩
  · rw [if_neg hnil]
    by_cases hmem : 61 ∈ line
    · rw [if_neg (not_not.mpr hmem)]
      cases h : entryOf line with
      | none => exact .inr (.inl ⟨⟨hmem, h⟩, rfl⟩)
      | some name =>
        have hf : ¬ Faulty line := fun hf => by cases h.symm.trans hf.2
        exact .inr (.inr ⟨hnil, hf, _, _, rfl⟩)
    · exact .inr (.inr ⟨hnil, fun hf => hmem hf.1, none, vars, if_pos hmem⟩)

theorem parseSectionBuffer_cases (vars : Variables) (line : Line) (default : Bool) :
    (sectionText line = [] ∧ parseSectionBuffer vars line default = .error .error) ∨
    (Faulty (sectionText line) ∧ parseSectionBuffer vars line default = .error .fault) ∨
    (sectionText line ≠ [] ∧ ¬ Faulty (sectionText line) ∧ ∃ value vars',
      parseSectionBuffer vars line default = .ok (entryOf (sectionText line), value, vars')) := by
  have heq : parseSectionBuffer vars line default = (parseBuffer vars (sectionText line)).map
      fun r => (r.1, if r.2.1 = none ∧ default then some (ascii "default") else r.2.1, r.2.2) := rfl
  rcases parseBuffer_cases vars (sectionText line) with
    ⟨h, hp⟩ | ⟨h, hp⟩ | ⟨h, h', value, vars', hp⟩
  · exact .inl ⟨h, by rw [heq, hp]; rfl⟩
  · exact .inr (.inl ⟨h, by rw [heq, hp]; rfl⟩)
  · exact .inr (.inr ⟨h, h', _, _, by rw [heq, hp]; rfl⟩)

end LibPrelude
