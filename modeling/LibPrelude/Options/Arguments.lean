import LibPrelude.Options.Tree

/-! # Arguments of the command line

The arguments are read from left to right. One that is not handled is taken out of the vector, and
those behind it move up; in the end the unhandled ones are put behind the others. After two dashes
all that are left are taken out, by an index that goes on while the vector moves.
-/

namespace LibPrelude

/-- Why the arguments are not read: a callback or a check fails, there are more unhandled arguments
than arguments, or the recursion is out of fuel. -/
inductive OptionFailure where
  | rejected
  | fault
  | fuel

/-- What the reading depends on: the generic options, whether these are the ones that are read,
all options, the callbacks, and what follows the arguments. -/
structure OptionContext (σ : Type) where
  generic : Option PreludeOption
  isGeneric : Bool
  roots : PreludeOption
  call : σ → PreludeOption → Option (List UInt8) → Option σ
  finish : σ → Option σ

/-- The state of the reading. -/
structure Arguments (σ : Type) where
  argv : List (List UInt8)
  index : ℕ
  unhandled : List (List UInt8)
  context : σ

variable {σ : Type}

def shiftDown : List (List UInt8) → List (List UInt8)
  | _ :: b :: rest => b :: shiftDown (b :: rest)
  | rest => rest

def removeArgv (st : Arguments σ) (removed : ℕ) : Except OptionFailure (Arguments σ) :=
  if st.argv.length ≤ st.unhandled.length then .error .fault
  else .ok { st with
    argv := st.argv.take removed ++ shiftDown (st.argv.drop removed)
    unhandled := st.unhandled ++ [st.argv.getD removed []] }

/-- The loop after two dashes. -/
def removeFrom : ℕ → ℕ → Arguments σ → Except OptionFailure (Arguments σ)
  | 0, _, st => .ok st
  | n + 1, ret, st =>
    match removeArgv st ret with
    | .error e => .error e
    | .ok st => removeFrom n (ret + 1) st

def isAlnum (b : UInt8) : Bool := 48 ≤ b ∧ b ≤ 57 ∨ 65 ≤ b ∧ b ≤ 90 ∨ 97 ≤ b ∧ b ≤ 122

/-- What an argument looks like. -/
inductive Word where
  | plain
  | dashes
  | other
  | option (name : List UInt8) (value : Option (List UInt8))

def readWord (word : List UInt8) : Word :=
  if word.head? ≠ some 45 ∨ word.length = 1 then .plain
  else if word = [45, 45] then .dashes
  else
    let option := word.dropWhile (· = 45)
    if ¬ option.head?.any isAlnum then .other
    else .option (option.takeWhile (· ≠ 61))
      (if 61 ∈ option then some (option.dropWhile (· ≠ 61)).tail else none)

/-- The option of a name, and whether it is a generic one. -/
def findOption (ctx : OptionContext σ) (optlist : PreludeOption) (name : List UInt8) :
    Option PreludeOption × Bool :=
  match if ctx.isGeneric then none else ctx.generic.bind
    (searchOption name optionTypeAny false) with
  | some opt => (some opt, true)
  | none => (searchOption name optionTypeCli false optlist, false)

inductive Parsed where
  | stop
  | skip
  | option (opt : Option PreludeOption) (value : Option (List UInt8))

def parseOption (ctx : OptionContext σ) (optlist : PreludeOption) (ignore : Bool)
    (st : Arguments σ) : Except OptionFailure (Parsed × Bool × Arguments σ) :=
  let word := st.argv.getD st.index []
  let next := { st with index := st.index + 1 }
  match readWord word with
  | .plain => (removeArgv st st.index).map (.skip, ignore, ·)
  | .dashes =>
    (removeFrom (next.argv.length - next.index) next.index next).map (.stop, ignore, ·)
  | .other => .ok (.skip, ignore, next)
  | .option name value =>
    match findOption ctx optlist name with
    | (none, generic) => .ok (.option none value, ignore || generic, next)
    | (some opt, generic) =>
      if opt.info.hasArg = argumentRequired ∧ value = none ∧ next.index < next.argv.length then
        .ok (.option (some opt) (some (next.argv.getD next.index [])), ignore || generic,
          { next with index := next.index + 1 })
      else .ok (.option (some opt) value, ignore || generic, next)

def parseArgument (ctx : OptionContext σ) :
    ℕ → PreludeOption → ℕ → Bool → Arguments σ → Except OptionFailure (Arguments σ)
  | 0, _, _, _, _ => .error .fuel
  | fuel + 1, optlist, depth, ignore, st =>
    if st.argv.length - st.unhandled.length ≤ st.index then .ok st
    else
      match parseOption ctx optlist ignore st with
      | .error e => .error e
      | .ok (.stop, _, st) => .ok st
      | .ok (.skip, ignore, st) => parseArgument ctx fuel optlist depth ignore st
      | .ok (.option none _, ignore, st) =>
        let st := { st with index := st.index - 1 }
        if depth ≠ 0 then .ok st
        else
          match removeArgv st st.index with
          | .error e => .error e
          | .ok st => parseArgument ctx fuel optlist depth ignore st
      | .ok (.option (some opt) value, ignore, st) =>
        if ¬ checkOption ctx.roots opt value then .error .rejected
        else
          match if ignore then some st.context else ctx.call st.context opt value with
          | none => .error .rejected
          | some context =>
            let st := { st with context }
            if opt.optlist = [] then parseArgument ctx fuel optlist depth ignore st
            else
              match parseArgument ctx fuel opt (depth + 1) ignore st with
              | .error e => .error e
              | .ok st => parseArgument ctx fuel optlist depth false st

/-- The index of the first unhandled argument and the vector. -/
def preludeOptionRead (ctx : OptionContext σ) (option : PreludeOption) (argv : List (List UInt8))
    (context : σ) : Except OptionFailure (ℕ × List (List UInt8)) :=
  match parseArgument ctx (argv.length + 1) option 0 false ⟨argv, 1, [], context⟩ with
  | .error e => .error e
  | .ok st =>
    match ctx.finish st.context with
    | none => .error .rejected
    | some _ =>
      let first := st.argv.length - st.unhandled.length
      .ok (first, st.argv.take first ++ st.unhandled)

end LibPrelude
