import Tsconfig.Text.Cut

/-!
The arguments of the command line: a command with its operands, and options, which start with a
hyphen. Options may stand before, between and after operands, until two hyphens end them; a single
hyphen is an operand.
-/
namespace Tsconfig.CommandLine
open Text

inductive Command
  /-- Print what a config comes to. -/
  | options (config : String)
  /-- Print the files of the program of a config. -/
  | files (config : String)
  /-- Print which of the configs, and of those they refer to, each file belongs to. -/
  | groups (configs files : List String)
  /-- Write a config into a new file, and print its name. -/
  | writeConfig (contents : String)
  deriving DecidableEq, Repr

inductive Request
  | run (pretty : Bool) (command : Command)
  | help
  | version
  deriving DecidableEq, Repr

/-- What can be wrong with arguments. -/
inductive UsageError
  | noCommand
  | unknownCommand (name : String)
  | unknownOption (option : String)
  | unexpectedOperand (operand : String)
  | missingOperand
  | missingValue (option : String)
  | repeatedOption (option : String)
  deriving DecidableEq, Repr

def UsageError.message : UsageError → String
  | noCommand => "a command is required"
  | unknownCommand name => s!"unrecognized command '{name}'"
  | unknownOption option => s!"unexpected option '{option}'"
  | unexpectedOperand operand => s!"unexpected operand '{operand}'"
  | missingOperand => "a required operand is missing"
  | missingValue option => s!"a value is required for '{option}'"
  | repeatedOption option => s!"the option '{option}' cannot be used multiple times"

/-- What an argument is, before two hyphens. -/
inductive Argument
  | operand
  /-- Two hyphens: everything after them is an operand. -/
  | endOfOptions
  | pretty
  | help
  | version
  /-- The option for a file, with a value if it is in the same argument. -/
  | file (value : Option String)
  | unknown
  deriving DecidableEq, Repr

/-- The value in the argument of a short option: what follows it, less an equals sign. -/
def attached : List Char → Option String
  | [] => none
  | '=' :: value => some (String.ofList value)
  | value => some (String.ofList value)

def Argument.ofText (text : String) : Argument :=
  match text.toList with
  | '-' :: '-' :: [] => endOfOptions
  | '-' :: '-' :: name =>
    if name = "pretty".toList then pretty
    else if name = "help".toList then help
    else if name = "version".toList then version
    else if name = "file".toList then file none
    else match stripStart? "file=".toList name with
      | some value => file (some (String.ofList value))
      | none => unknown
  | ['-'] => operand
  | '-' :: 'h' :: _ => help
  | '-' :: 'V' :: _ => version
  | '-' :: 'f' :: value => file (attached value)
  | '-' :: _ => unknown
  | _ => operand

/-- What the arguments of a command have told so far. -/
structure Operands where
  pretty : Bool := false
  names : List String := []
  files : List String := []

/-- How many operands a command takes, and whether it takes files. -/
structure Shape where
  most : Option Nat
  takesFiles : Bool

/-- One more operand, if there may be so many. -/
def Operands.push (shape : Shape) (operands : Operands) (name : String) :
    Except UsageError Operands :=
  if shape.most.all (operands.names.length < ·) then
    .ok { operands with names := operands.names ++ [name] }
  else .error (.unexpectedOperand name)

def Operands.pushAll (shape : Shape) (operands : Operands) (names : List String) :
    Except UsageError Operands :=
  names.foldlM (push shape) operands

/-- Read the arguments of a command; nothing if they ask for help. -/
def operandsOf (shape : Shape) (operands : Operands) :
    List String → Except UsageError (Option Operands)
  | [] => .ok (some operands)
  | arg :: rest =>
    match Argument.ofText arg with
    | .operand => do operandsOf shape (← operands.push shape arg) rest
    | .endOfOptions => do return some (← operands.pushAll shape rest)
    | .pretty =>
      if operands.pretty then .error (.repeatedOption arg)
      else operandsOf shape { operands with pretty := true } rest
    | .help => .ok none
    | .file value =>
      if !shape.takesFiles then .error (.unknownOption arg)
      else match value, rest with
        | some value, rest =>
          operandsOf shape { operands with files := operands.files ++ [value] } rest
        | none, value :: rest =>
          if Argument.ofText value = .operand then
            operandsOf shape { operands with files := operands.files ++ [value] } rest
          else .error (.missingValue arg)
        | none, [] => .error (.missingValue arg)
    | .version | .unknown => .error (.unknownOption arg)

/-- The command of a name, its shape, and how operands make it. -/
def commands : List (String × Shape × (Operands → Option Command)) :=
  let one (make : String → Command) : Shape × (Operands → Option Command) :=
    (⟨some 1, false⟩, fun operands => operands.names.head?.map make)
  [("options", one .options),
   ("files", one .files),
   ("groups", ⟨none, true⟩, fun operands =>
      if operands.names = [] then none else some (.groups operands.names operands.files)),
   ("write-config", one .writeConfig)]

def command (pretty : Bool) (name : String) (args : List String) : Except UsageError Request :=
  match commands.find? (·.1 = name) with
  | none => .error (.unknownCommand name)
  | some (_, shape, make) => do
    match ← operandsOf shape {} args with
    | none => return .help
    | some operands =>
      match make operands with
      | some command => return .run (pretty || operands.pretty) command
      | none => .error .missingOperand

/-- The request for help with a command, or in general. Commands have no commands of their own. -/
def helpOn : List String → Except UsageError Request
  | [] => .ok .help
  | name :: others =>
    if name = "help" || (commands.find? (·.1 = name)).isSome then
      match others with
      | [] => .ok .help
      | other :: _ => .error (.unknownCommand other)
    else .error (.unknownCommand name)

def Request.ofArguments : List String → Except UsageError Request := go false
where
  go (pretty : Bool) : List String → Except UsageError Request
    | [] => .error .noCommand
    | arg :: rest =>
      match Argument.ofText arg with
      | .operand => if arg = "help" then helpOn rest else command pretty arg rest
      | .endOfOptions =>
        match rest with
        | [] => .error .noCommand
        | operand :: _ => .error (.unexpectedOperand operand)
      | .pretty => if pretty then .error (.repeatedOption arg) else go true rest
      | .help => .ok .help
      | .version => .ok .version
      | .file _ | .unknown => .error (.unknownOption arg)

end Tsconfig.CommandLine
