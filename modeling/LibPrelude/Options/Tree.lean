import LibPrelude.Idmef.ValueType

/-! # Options

An option has a long and a short name, a type that says where it may be set, and options of its
own. An option without a name only groups others.
-/

namespace LibPrelude

/-- The data of an option; the value is what its get function writes. -/
structure OptionInfo where
  longopt : Option (List UInt8)
  shortopt : UInt8
  type : UInt32
  hasArg : UInt32
  inputType : UInt32
  description : Option (List UInt8)
  value : Option (List UInt8)
  deriving DecidableEq

inductive PreludeOption where
  | mk (info : OptionInfo) (optlist : List PreludeOption)

namespace PreludeOption

def info : PreludeOption → OptionInfo
  | mk info _ => info

def optlist : PreludeOption → List PreludeOption
  | mk _ optlist => optlist

end PreludeOption

def optionTypeCli : UInt32 := 0x01
def optionTypeAny : UInt32 := 0xffffffff

def argumentRequired : UInt32 := 1
def argumentNone : UInt32 := 3

def cmpOption (opt : PreludeOption) (name : List UInt8) (type : UInt32) : Bool :=
  opt.info.type &&& type ≠ 0 ∧
    (opt.info.longopt.any (strcasecmp name) ∨ name = [opt.info.shortopt])

mutual

/-- The first option of a name among those of an option; those of a group are searched as well. -/
def searchOption (name : List UInt8) (type : UInt32) (walkChildren : Bool) :
    PreludeOption → Option PreludeOption
  | .mk _ optlist => searchOptlist name type walkChildren optlist

def searchOptlist (name : List UInt8) (type : UInt32) (walkChildren : Bool) :
    List PreludeOption → Option PreludeOption
  | [] => none
  | item :: items =>
    let inner :=
      if walkChildren ∨ item.info.longopt = none ∧ item.info.shortopt = 0 then
        searchOption name type walkChildren item
      else none
    match inner with
    | some opt => some opt
    | none => if cmpOption item name type then some item
      else searchOptlist name type walkChildren items

end

/-- Whether a word may be the argument of an option, and is not an option itself. -/
def isAnArgument (roots : PreludeOption) (stuff : List UInt8) : Bool :=
  if stuff.head? = some 45 ∧ (stuff.length = 2 ∨ 2 < stuff.length ∧ stuff[1]? = some 45) then
    (searchOption ((stuff.dropWhile (· = 45)).takeWhile (· ≠ 61)) optionTypeAny true roots).isNone
  else true

def checkOption (roots opt : PreludeOption) (arg : Option (List UInt8)) : Bool :=
  if opt.info.hasArg = argumentNone then arg.isNone
  else if opt.info.hasArg = argumentRequired then arg.any (isAnArgument roots)
  else true

end LibPrelude
