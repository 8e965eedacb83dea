import Rapido.Effect
import Rapido.Text

-- src/third_party/crosvm/argument.rs: the command line as a sequence of calls.
namespace Rapido.Arguments
open Text Eff

inductive Error where
  | badSyntax (text : String)
  | unknownArgument (name : Str)
  | expectedArgument (text : String)
  | invalidValue (value : Str) (expected : String)
  | expectedValue (name : Str)
  | unexpectedValue (name : Str)
  | printHelp
  -- no error of the crate: a slice inside a character, unwrap() or unreachable!()
  | panic
deriving DecidableEq, Repr

-- Display, with {:?} of a value that needs no escapes
def Error.display : Error → String
  | .badSyntax text => "syntax error: " ++ text
  | .unknownArgument name => "unknown argument: " ++ String.ofList name
  | .expectedArgument text => "expected argument: " ++ text
  | .invalidValue value expected => "invalid value \"" ++ String.ofList value ++ "\": " ++ expected
  | .expectedValue name => "expected parameter value: " ++ String.ofList name
  | .unexpectedValue name => "unexpected parameter value: " ++ String.ofList name
  | .printHelp => "help was requested"
  | .panic => ""

inductive ArgumentValueMode where
  | required
  | disallowed
  | optional
deriving DecidableEq, Repr

structure Argument where
  value : Option Str
  valueMode : ArgumentValueMode
  short : Option Char
  long : Str
deriving DecidableEq, Repr

namespace Argument

def positional (value : String) : Argument := ⟨some value.toList,.required,none,[]⟩
def takes (long value : String) : Argument := ⟨some value.toList,.required,none,long.toList⟩
def shortValue (short : Char) (long value : String) : Argument := ⟨some value.toList,.required,some short,long.toList⟩
def flag (long : String) : Argument := ⟨none,.disallowed,none,long.toList⟩
def shortFlag (short : Char) (long : String) : Argument := ⟨none,.disallowed,some short,long.toList⟩
def flagOrValue (long value : String) : Argument := ⟨some value.toList,.optional,none,long.toList⟩

end Argument

inductive State where
  | top
  | positional
  | value (name : Str)
deriving DecidableEq, Repr

abbrev Callback (σ : Type) := Str → Option Str → Eff Error σ Unit

variable {σ : Type}

-- What State::Top takes an argument for.
inductive TopArg where
  | dashes
  | assigned (name value : Str)
  | named (name : Str)
  | short (name : Str) (value : Option Str)
  | plain
  | refused (e : Error)
deriving DecidableEq, Repr

-- `param` is what follows two or more dashes.
def longArg (param : Str) : TopArg :=
  match splitOnce '=' param with
  | some (name,value) =>
    if name = [] then .refused (.badSyntax "expected parameter name before `=`")
    else if value = [] then .refused (.badSyntax "expected parameter value after `=`")
    else .assigned name value
  | none => .named param

-- The second character has to be a single byte for &arg[1..2].
def topArg (arg : Str) : TopArg :=
  if arg = ['-','-'] then .dashes
  else if ['-','-'] <+: arg then longArg (arg.dropWhile (· = '-'))
  else match arg with
    | ['-'] => .refused (.badSyntax "expected argument short name after `-`")
    | '-' :: c :: rest => if c.utf8Size ≠ 1 then .refused .panic else .short [c] (if rest = [] then none else some rest)
    | _ => .plain

-- State::Top, which always consumes the argument.
def topStep (f : Callback σ) (arg : Str) : Eff Error σ State :=
  match topArg arg with
  | .dashes => pure .positional
  | .assigned name value => do
    f name (some value)
    return .top
  | .named name => pure (.value name)
  | .short name value => do
    match ← attempt (f name value) with
    | .ok () => return .top
    | .error (.expectedValue _) => return .value name
    | .error e => .fail e
  | .plain => do
    f [] (some arg)
    return .positional
  | .refused e => .fail e

-- State::Value: whether the argument is consumed.
def valueStep (f : Callback σ) (name arg : Str) : Eff Error σ Bool :=
  if startsWith '-' arg then do
    f name none
    return false
  else do
    match ← attempt (f name (some arg)) with
    | .ok () => return true
    | .error e => do
      match ← attempt (f name none) with
      | .ok () => return false
      | .error _ => .fail e

-- The inner loop goes round at most twice: what State::Value leaves is looked at
-- again in State::Top.
def step (f : Callback σ) (s : State) (arg : Str) : Eff Error σ State :=
  match s with
  | .top => topStep f arg
  | .positional => do
    f [] (some arg)
    return .positional
  | .value name => do
    let consumed ← valueStep f name arg
    if consumed then return .top else topStep f arg

-- The outer loop and what is left at its end.
def parseFrom (f : Callback σ) : State → List Str → Eff Error σ Unit
  | .value name,[] => f name none
  | _,[] => pure ()
  | s,arg :: rest => do
    let next ← step f s arg
    parseFrom f next rest

def parseArguments (f : Callback σ) (args : List Str) : Eff Error σ Unit := parseFrom f .top args

def shortMatches (arg : Argument) (name : Str) : Prop := utf8Len name = 1 ∧ ∃ c, arg.short = some c ∧ name.head? = some c

instance (arg : Argument) (name : Str) : Decidable (shortMatches arg name) :=
  decidable_of_iff (utf8Len name = 1 ∧ (arg.short.isSome = true ∧ name.head? = arg.short)) (by
    unfold shortMatches
    cases arg.short with
    | none => simp
    | some c => simp)

-- The loop over arg_list. A later short name takes over from an earlier match.
def matchLoop (name : Str) (value : Option Str) : Option Str → List Argument → Except Error (Option Str)
  | found,[] => .ok found
  | found,arg :: rest =>
    if shortMatches arg name then
      if value.isSome ≠ arg.value.isSome then .error (.expectedValue arg.short.toList)
      else matchLoop name value (some arg.long) rest
    else if found.isNone ∧ arg.long = name then
      if value.isNone ∧ arg.valueMode = .required then .error (.expectedValue arg.long)
      else if value.isSome ∧ arg.valueMode = .disallowed then .error (.unexpectedValue arg.long)
      else matchLoop name value (some arg.long) rest
    else matchLoop name value found rest

def matchArgument (argList : List Argument) (name : Str) (value : Option Str) : Except Error Str := do
  match ← matchLoop name value none argList with
  | some long => .ok long
  | none => .error (.unknownArgument name)

-- The closure that is handed to parse_arguments.
def callKnown (argList : List Argument) (f : Callback σ) : Callback σ := fun name value => do
  let long ← Eff.ofExcept (matchArgument argList name value)
  f long value

def setArguments (args : List Str) (argList : List Argument) (f : Callback σ) : Eff Error σ Unit :=
  parseArguments (callKnown argList f) args

end Rapido.Arguments
