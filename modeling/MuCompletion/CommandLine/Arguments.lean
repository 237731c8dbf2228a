import MuCompletion.Text.Position

/-!
# Command-line arguments

The arguments name a command, its file, and options; an option is written `--name value` or
`--name=value`, and none may be given twice. The option for the configuration may stand before or
after the command. Arguments are read from left to right, and the first that does not belong there
ends the reading.
-/

namespace MuCompletion.CommandLine

/-- What a user asks the program to do with a file. -/
inductive Command where
  | tokens (file : String)
  | scopes (file : String)
  | complete (file : String) (place : Option Text.Cursor) (limit : Option Nat)
  deriving DecidableEq, Repr

/-- A command and the configuration that it runs with. -/
structure Invocation where
  /-- The file of the configuration, if one is given. -/
  config : Option String
  command : Command
  deriving DecidableEq, Repr

/-- Why arguments name no command to run. -/
inductive NoCommand where
  | usage
  | version
  | help
  deriving DecidableEq, Repr

/-- The names of the commands. -/
inductive CommandName where
  | tokens | scopes | complete
  deriving DecidableEq, Repr

/-- The command that an argument names. -/
def CommandName.ofString? (name : String) : Option CommandName :=
  if name = "tokens" then some tokens
  else if name = "scopes" then some scopes
  else if name = "complete" then some complete
  else none

/-- An option that takes a value. -/
inductive Setting where
  | config | offset | line | column | limit
  deriving DecidableEq, Repr

/-- The option of a name, among those that a command knows. -/
def Setting.ofName? (command : CommandName) (name : String) : Option Setting :=
  if name = "config" then some config
  else if command ≠ .complete then none
  else if name = "offset" then some offset
  else if name = "line" then some line
  else if name = "column" then some column
  else if name = "limit" then some limit
  else none

/-- What the arguments after a command's name say. -/
structure Given where
  config : Option String := none
  file : Option String := none
  offset : Option Nat := none
  line : Option Nat := none
  column : Option Nat := none
  /-- The most candidates to print. -/
  limit : Option Nat := none

/-- A number of at most 64 bits in decimal digits, with or without a plus sign. -/
def readNumber? (text : String) : Option Nat :=
  let digits := match text.toList with
    | '+' :: digits => digits
    | digits => digits
  if digits.isEmpty || !digits.all Char.isDigit then none
  else
    let n := digits.foldl (fun n d => 10 * n + (d.toNat - '0'.toNat)) 0
    if n < 0x10000000000000000 then some n else none

/-- A file name, which is not empty. -/
def readFile? (text : String) : Option String :=
  if text.isEmpty then none else some text

/-- Fill a place that must be empty. -/
def fill (place value : Option α) : Except NoCommand (Option α) :=
  match place, value with
  | none, some value => .ok (some value)
  | _, _ => .error .usage

namespace Given

/-- Take the value of an option. -/
def set (given : Given) (value : String) : Setting → Except NoCommand Given
  | .config => do pure { given with config := ← fill given.config (readFile? value) }
  | .offset => do pure { given with offset := ← fill given.offset (readNumber? value) }
  | .line => do pure { given with line := ← fill given.line (readNumber? value) }
  | .column => do pure { given with column := ← fill given.column (readNumber? value) }
  | .limit => do pure { given with limit := ← fill given.limit (readNumber? value) }

/-- Take the file of the command. -/
def setFile (given : Given) (name : String) : Except NoCommand Given := do
  pure { given with file := ← fill given.file (readFile? name) }

/-- The command that was given: it has a file, and its place is an offset, or a line with a column,
or nothing. -/
def command (given : Given) (name : CommandName) : Except NoCommand Command :=
  match name, given.file with
  | _, none => .error .usage
  | .tokens, some file => .ok (.tokens file)
  | .scopes, some file => .ok (.scopes file)
  | .complete, some file =>
    match given.offset, given.line, given.column with
    | none, none, none => .ok (.complete file none given.limit)
    | some offset, none, none => .ok (.complete file (some (.offset offset)) given.limit)
    | none, some line, some column =>
      .ok (.complete file (some (.lineColumn line column)) given.limit)
    | _, _, _ => .error .usage

end Given

/-- The name of a long option and the value attached to it, if the argument is one. -/
def longOption? (argument : String) : Option (String × Option String) :=
  match argument.toList with
  | '-' :: '-' :: cs =>
    let name := cs.takeWhile (· != '=')
    match cs.dropWhile (· != '=') with
    | [] => some (String.ofList name, none)
    | _ :: value => some (String.ofList name, some (String.ofList value))
  | _ => none

/-- The letter of a short option, if the argument is one; a dash alone is a file name. -/
def shortOption? (argument : String) : Option Char :=
  match argument.toList with
  | '-' :: c :: _ => some c
  | _ => none

/-- Whether an argument can be the value of the option before it. -/
def isValue (argument : String) : Bool :=
  (shortOption? argument).isNone

/-- Read the arguments after a command's name. -/
def readRest (name : CommandName) (given : Given) : List String → Except NoCommand Given
  | [] => .ok given
  | argument :: rest =>
    if argument = "--" then rest.foldlM Given.setFile given
    else
      match longOption? argument with
      | some ("help", none) => .error .help
      | some (option, attached) =>
        match Setting.ofName? name option, attached, rest with
        | some setting, some value, rest => do readRest name (← given.set value setting) rest
        | some setting, none, value :: rest =>
          if isValue value then do readRest name (← given.set value setting) rest
          else .error .usage
        | _, _, _ => .error .usage
      | none =>
        match shortOption? argument with
        | some 'h' => .error .help
        | some _ => .error .usage
        | none => do readRest name (← given.setFile argument) rest

/-- What a call for help with the given arguments asks for: help on the program, or on the one command
that is named. -/
def helpOn : List String → NoCommand
  | [] => .help
  | [name] => if name = "help" || (CommandName.ofString? name).isSome then .help else .usage
  | _ => .usage

/-- Read arguments up to a command's name, and then the rest. A configuration given after the name
takes the place of one given before it. -/
def readArguments (config : Option String) : List String → Except NoCommand Invocation
  | [] => .error .usage
  | argument :: rest =>
    match longOption? argument with
    | some ("version", none) => .error .version
    | some ("help", none) => .error .help
    | some ("config", some value) => do
      readArguments (← fill config (readFile? value)) rest
    | some ("config", none) =>
      match rest with
      | value :: rest =>
        if isValue value then do readArguments (← fill config (readFile? value)) rest
        else .error .usage
      | [] => .error .usage
    | some _ => .error .usage
    | none =>
      match shortOption? argument with
      | some 'V' => .error .version
      | some 'h' => .error .help
      | some _ => .error .usage
      | none =>
        if argument = "help" then .error (helpOn rest)
        else
          match CommandName.ofString? argument with
          | none => .error .usage
          | some name => do
            let given ← readRest name {} rest
            pure ⟨given.config.or config, ← given.command name⟩

/-- What the arguments of the program ask for. -/
def Invocation.ofArguments (arguments : List String) : Except NoCommand Invocation :=
  readArguments none arguments

end MuCompletion.CommandLine
