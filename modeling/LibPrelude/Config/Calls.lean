import LibPrelude.Common.Gets
import LibPrelude.Config.Store
import LibPrelude.Config.Strip
import Mathlib.Logic.Relation

/-! # Reading and setting entries

The lines of a file are gone through one after the other, searched for an entry, and changed. An
entry whose value is a variable that is not set is looked for under the name of the variable, and
so on. Nothing is left to read where a line has no entry, or where an entry has no value; both are
read all the same.
-/

namespace LibPrelude

/-- The lines of a file without null bytes, which is read by pieces. -/
def loadLines (out : Line) (text : List UInt8) : List Line :=
  match _h : fgets 1024 text with
  | none => [out]
  | some (piece, rest) =>
    if piece.getLast? = some 10 then (out ++ piece.dropLast) :: loadLines [] rest
    else loadLines (out ++ piece) rest
termination_by text.length
decreasing_by all_goals exact (fgets_some (by decide) _h).rest_lt

def Config.ofText (text : List UInt8) : Config := ⟨loadLines [] text, false⟩

/-- What the next line that says something says: a section, or an entry, and a value. -/
structure NextLine where
  name : Option Line
  entry : Option Line
  value : Option Line

/-- The next line from the `i`th on, the line behind it, and the variables set by then. -/
def getNextFrom : Variables → ℕ → List Line → Except LineFailure NextLine × ℕ × Variables
  | vars, i, [] => (.error .error, i - 1, vars)
  | vars, i, line :: lines =>
    let ptr := line.dropWhile isBlank
    if ptr = [] ∨ isLineCommented ptr then getNextFrom vars (i + 1) lines
    else if isSection ptr then
      match parseSectionBuffer vars ptr false with
      | .error e => (.error e, i + 1, vars)
      | .ok (name, value, vars) => (.ok ⟨name, none, value⟩, i + 1, vars)
    else
      match parseBuffer vars ptr with
      | .error e => (.error e, i + 1, vars)
      | .ok (none, _, vars) => (.error .fault, i + 1, vars)
      | .ok (some entry, value, vars) =>
        if entry.head? = some 36 then getNextFrom vars (i + 1) lines
        else (.ok ⟨none, some entry, value⟩, i + 1, vars)

def configGetNext (vars : Variables) (cfg : Config) (line : ℕ) :
    Except LineFailure NextLine × ℕ × Variables :=
  if cfg.content.length ≤ line then (.error .error, line, vars)
  else getNextFrom vars line (cfg.content.drop line)

def searchValueFrom (wanted : Bool) (entry : Line) :
    Variables → ℕ → List Line → Except LineFailure (ℕ × Option Line × Variables)
  | _, _, [] => .error .error
  | vars, i, line :: lines =>
    if wanted ∧ isSection line then .error .error
    else
      match parseBuffer vars line with
      | .error .fault => .error .fault
      | .error .error => searchValueFrom wanted entry vars (i + 1) lines
      | .ok (eout, vout, vars) =>
        if eout = some entry then .ok (i, vout, vars)
        else searchValueFrom wanted entry vars (i + 1) lines

/-- An entry that is asked for, and the variables at that time. -/
structure Query where
  vars : Variables
  name : Option Line
  entry : Line
  line : ℕ

/-- The line, the value and the variables that the search for an entry comes to. -/
def Query.search (cfg : Config) (q : Query) : Except LineFailure (ℕ × Option Line × Variables) :=
  searchValueFrom q.name.isSome q.entry q.vars (q.line - 1) (cfg.content.drop (q.line - 1))

/-- The value of an entry and the line behind it; looking up variables that name one another may
need any number of calls. -/
def configGet (cfg : Config) : ℕ → Query → Option (Except LineFailure (Option Line × ℕ))
  | 0, _ => none
  | fuel + 1, q =>
    match q.search cfg with
    | .error .fault => some (.error .fault)
    | .error .error => some (.ok (none, q.line))
    | .ok (_, none, _) => some (.error .fault)
    | .ok (index, some value, vars) =>
      if value.head? = some 36 then
        match variableGet vars value.tail with
        | some var => some (.ok (some var, index + 1))
        | none => (configGet cfg fuel ⟨vars, none, value.tail, 0⟩).map fun
          | .error e => .error e
          | .ok (var, _) => .ok (some (var.getD value), index + 1)
      else some (.ok (some value, index + 1))

def createNewLine (entry : Line) (val : Option Line) : Line :=
  entry ++ val.elim [] (61 :: ·)

/-- A line is inserted; without any line the loop that moves the lines reads outside of them. -/
def opInsertLine (cfg : Config) (line : Line) (lins : ℕ) : Except LineFailure Unit × Config :=
  if cfg.content.length < lins then (.error .error, cfg)
  else if cfg.content = [] then (.error .fault, cfg)
  else (.ok (), { cfg with content := cfg.content.insertIdx lins line })

/-- The end of the section that a line is in. -/
def adjustInsertionPoint (cfg : Config) (l : ℕ) : ℕ :=
  if l < cfg.content.length then nextSection (l + 1) (cfg.content.drop (l + 1)) else l

def newEntryLine (vars : Variables) (cfg : Config) (entry : Line) (val : Option Line)
    (index : ℕ) : Except LineFailure Unit × Config × ℕ :=
  match searchEntry vars cfg none entry index with
  | .error .fault => (.error .fault, cfg, index)
  | .error .error =>
    let (ret, cfg) := opInsertLine cfg (createNewLine entry val) index
    (ret, cfg, index)
  | .ok (_, i) => (.ok (), { cfg with content := cfg.content.set i (createNewLine entry val) }, i)

def newSectionLine (vars : Variables) (cfg : Config) (name : Line) (entry val : Option Line)
    (index : ℕ) : Except LineFailure Unit × Config × ℕ :=
  match searchSection vars cfg name index with
  | .error .fault => (.error .fault, cfg, index)
  | .error .error =>
    let index := if index ≠ 0 then adjustInsertionPoint cfg index else cfg.content.length
    match opInsertLine cfg ((91 :: (name ++ [93])).take 1023) index, entry with
    | (.error e, cfg), _ => (.error e, cfg, index)
    | (.ok (), cfg), none => (.ok (), cfg, index)
    | (.ok (), cfg), some entry =>
      let (ret, cfg) := opInsertLine cfg (createNewLine entry val) (index + 1)
      (ret, cfg, index)
  | .ok index =>
    match entry with
    | none => (.ok (), cfg, index)
    | some entry =>
      match searchEntry vars cfg (some name) entry (index + 1) with
      | .error .fault => (.error .fault, cfg, index)
      | .error .error =>
        let (ret, cfg) := opInsertLine cfg (createNewLine entry val) (index + 1)
        (ret, cfg, index)
      | .ok (_, i) =>
        (.ok (), { cfg with content := cfg.content.set i (createNewLine entry val) }, index)

/-- What is set: an entry, or a section and an entry of it if one is given. -/
inductive Setting where
  | entry (entry : Line) (val : Option Line)
  | «section» (name : Line) (entry val : Option Line)

def configSet (vars : Variables) (cfg : Config) (s : Setting) (index : ℕ) :
    Except LineFailure Unit × Config × ℕ :=
  let (ret, cfg, index) := match s with
    | .entry entry val => newEntryLine vars cfg entry val index
    | .section name entry val => newSectionLine vars cfg name entry val index
  (ret, if ret = .ok () then { cfg with needSync := true } else cfg, index)

end LibPrelude
