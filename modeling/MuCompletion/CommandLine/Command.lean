import MuCompletion.CommandLine.Arguments
import MuCompletion.CommandLine.Directory
import MuCompletion.Config.Reader
import MuCompletion.Scope.Outline
import MuCompletion.Text.Quoted
import MuCompletion.Workspace

/-!
# Running commands

A command reads its configuration first, then its file, and prints what the engine sees in it. It
ends with an exit code: zero when it has done its work, one when a file cannot be used, two when the
arguments do not say enough.
-/

namespace MuCompletion.CommandLine

/-- Why a command fails. -/
inductive CommandError where
  /-- The configuration's file cannot be read as text. -/
  | configUnreadable (file : String)
  /-- The configuration's file is no configuration. -/
  | configInvalid (file : String)
  | placeMissing
  | fileMissing (file : String)
  /-- A part of the file's name that has to be a directory is a file. -/
  | fileUnderFile (file : String)
  /-- The file's name is longer than names may be. -/
  | fileNameTooLong (file : String)
  | fileIsDirectory (file : String)
  | fileNotText (file : String)
  /-- The file has more bytes than are read. -/
  | fileTooLarge (file : String) (size : Nat)
  deriving DecidableEq, Repr

/-- The most bytes that a source file may have. -/
def maxSourceSize : Nat :=
  16 * 1024 * 1024

namespace CommandError

/-- The error as one line. -/
def message : CommandError → String
  | configUnreadable file => s!"failed to read config file {file}"
  | configInvalid file => s!"invalid engine configuration: {file}"
  | placeMissing => "Error: complete requires --offset or --line with --column"
  | fileMissing file => s!"Cannot access file '{file}': No such file or directory (os error 2)"
  | fileUnderFile file => s!"Cannot access file '{file}': Not a directory (os error 20)"
  | fileNameTooLong file => s!"Cannot access file '{file}': File name too long (os error 36)"
  | fileIsDirectory file => s!"Error reading file '{file}': Is a directory (os error 21)"
  | fileNotText file => s!"Error reading file '{file}': stream did not contain valid UTF-8"
  | fileTooLarge file size =>
    s!"Source file '{file}' is too large ({size} bytes, max {maxSourceSize} bytes)"

/-- The exit code of the error. -/
def exitCode : CommandError → Nat
  | placeMissing => 2
  | _ => 1

end CommandError

/-- Read a configuration from a file, or take the defaults if there is none. -/
def loadConfig (read : String → FileState) : Option String → Except CommandError Config
  | none => .ok .default
  | some file =>
    match read file with
    | .bytes content =>
      match String.fromUTF8? content with
      | none => .error (.configUnreadable file)
      | some document =>
        match Config.ofDocument? document with
        | none => .error (.configInvalid file)
        | some config => .ok config
    | _ => .error (.configUnreadable file)

/-- Read a source file. -/
def loadSource (read : String → FileState) (file : String) : Except CommandError String :=
  match read file with
  | .missing => .error (.fileMissing file)
  | .notDirectory => .error (.fileUnderFile file)
  | .nameTooLong => .error (.fileNameTooLong file)
  | .directory => .error (.fileIsDirectory file)
  | .bytes content =>
    if maxSourceSize < content.size then .error (.fileTooLarge file content.size)
    else
      match String.fromUTF8? content with
      | none => .error (.fileNotText file)
      | some text => .ok text

/-- The line that shows a token. -/
def tokenLine (token : Token) : String :=
  s!"{token.span.start}..{token.span.stop}\t{token.kind.name}\t{Text.quote token.text}\n"

/-- The line that shows a candidate; its documentation may go over several lines. -/
def candidateLine (candidate : Candidate) : String :=
  let documentation := match candidate.documentation with
    | some text => s!"\t{text}"
    | none => ""
  s!"{candidate.rank}\t{candidate.label}\t{candidate.kind.name}{documentation}\n"

/-- The tokens of a text, a line each. -/
def showTokens (text : String) : String :=
  String.join ((lex text).map tokenLine)

/-- The candidates at a place in a text, a line each. -/
def showCandidates (config : Config) (text : String) (place : Text.Cursor) : String :=
  let document := Document.ofText text
  let candidates := (Workspace.ofConfig config).candidates document (place.toOffset text.toList)
  String.join (candidates.map candidateLine)

/-- What a command prints. -/
def Invocation.run (read : String → FileState) (invocation : Invocation) :
    Except CommandError String := do
  let config ← loadConfig read invocation.config
  match invocation.command with
  | .tokens file => pure (showTokens (← loadSource read file))
  | .scopes file => pure (ScopeTree.ofTokens (lex (← loadSource read file))).outline
  | .complete file place limit =>
    match place with
    | none => .error .placeMissing
    | some place =>
      let config := match limit with
        | some limit => config.withMaxCandidates limit
        | none => config
      pure (showCandidates config (← loadSource read file) place)

/-- The files that a command may read. -/
def Invocation.files (invocation : Invocation) : List String :=
  let file := match invocation.command with
    | .tokens file | .scopes file | .complete file .. => file
  invocation.config.toList ++ [file]

/-- The line that names the program and its version. -/
def versionLine : String :=
  "mu-complete 0.1.0\n"

/-- How the program ends. -/
structure Outcome where
  code : Nat
  output : String
  error : Option CommandError

/-- Run the program on its arguments. -/
def run (read : String → FileState) (arguments : List String) : Outcome :=
  match Invocation.ofArguments arguments with
  | .error .usage => ⟨2, "", none⟩
  | .error .version => ⟨0, versionLine, none⟩
  | .error .help => ⟨0, "", none⟩
  | .ok invocation =>
    match invocation.run read with
    | .ok output => ⟨0, output, none⟩
    | .error error => ⟨error.exitCode, "", some error⟩

end MuCompletion.CommandLine
