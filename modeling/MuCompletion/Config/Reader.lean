import MuCompletion.Config.Basic
import MuCompletion.Json.Float
import MuCompletion.Json.Reader
import MuCompletion.Text.Quoted

/-!
# Reading a configuration

A configuration is a JSON object whose members are all optional, or an array of their values in a
fixed order; anything missing keeps its default. The members of an object are read in the order of
their names, and the first mistake is the one reported.
-/

namespace MuCompletion

/-- What a configuration has in some place. -/
inductive ConfigShape where
  | config
  /-- A natural number of 64 bits. -/
  | size
  | boolean
  | sequence
  | string
  deriving DecidableEq, Repr

/-- The shape, as an error names it. -/
def ConfigShape.name : ConfigShape → String
  | config => "struct EngineConfig"
  | size => "usize"
  | boolean => "a boolean"
  | sequence => "a sequence"
  | string => "a string"

inductive ConfigError where
  /-- A value of another kind stands where the shape is expected. -/
  | invalidType (found : Json) (expected : ConfigShape)
  /-- A negative number stands where a size is expected. -/
  | negativeSize (found : Int)
  /-- A member has a name that is no setting. -/
  | unknownField (name : String)
  /-- An array has more items than there are settings. -/
  | tooManyItems (length : Nat)

namespace ConfigError

/-- The integer that a number stands for, if it is one of 64 bits, signed or not. -/
def machineInt? (number : Json.Number) : Option Int :=
  match number.toInt? with
  | some n => if -0x8000000000000000 ≤ n && n < 0x10000000000000000 then some n else none
  | none => none

/-- A value, as an error shows it. -/
def describe : Json → String
  | .null => "null"
  | .bool true => "boolean `true`"
  | .bool false => "boolean `false`"
  | .number number =>
    match machineInt? number with
    | some n => s!"integer `{n}`"
    | none => s!"floating point `{number.floatText}`"
  | .string text => "string " ++ Text.quote text
  | .array _ => "sequence"
  | .object _ => "map"

/-- What is wrong, without the words that every configuration error begins with. -/
def reason : ConfigError → String
  | invalidType found expected => s!"invalid type: {describe found}, expected {expected.name}"
  | negativeSize found => s!"invalid value: integer `{found}`, expected usize"
  | unknownField name =>
    s!"unknown field `{name}`, expected one of `maxCandidates`, `incremental`, `extraKeywords`, " ++
      "`extraTypes`"
  | tooManyItems length => s!"invalid length {length}, expected fewer elements in array"

def message (error : ConfigError) : String :=
  "invalid engine configuration: " ++ error.reason

/-- A stable identifier of the kind of error. -/
def code : String :=
  "mu::config::json"

def help : String :=
  "expected an object with optional `maxCandidates`, `incremental`, `extraKeywords`, `extraTypes`"

end ConfigError

namespace Config

def readSize : Json → Except ConfigError Nat
  | .number number =>
    match ConfigError.machineInt? number with
    | some n => if n < 0 then .error (.negativeSize n) else .ok n.toNat
    | none => .error (.invalidType (.number number) .size)
  | found => .error (.invalidType found .size)

def readBool : Json → Except ConfigError Bool
  | .bool value => .ok value
  | found => .error (.invalidType found .boolean)

def readString : Json → Except ConfigError String
  | .string value => .ok value
  | found => .error (.invalidType found .string)

def readStrings : Json → Except ConfigError (List String)
  | .array items => items.mapM readString
  | found => .error (.invalidType found .sequence)

/-- A setting, in the order of the items of an array. -/
inductive Field where
  | maxCandidates | incremental | extraKeywords | extraTypes
  deriving DecidableEq, Repr

/-- All settings, in the order of the items of an array. -/
def Field.all : List Field :=
  [.maxCandidates, .incremental, .extraKeywords, .extraTypes]

def Field.name : Field → String
  | maxCandidates => "maxCandidates"
  | incremental => "incremental"
  | extraKeywords => "extraKeywords"
  | extraTypes => "extraTypes"

def readField (config : Config) (json : Json) : Field → Except ConfigError Config
  | .maxCandidates => (readSize json).map fun count => { config with maxCandidates := count }
  | .incremental => (readBool json).map fun value => { config with incremental := value }
  | .extraKeywords => (readStrings json).map fun words => { config with extraKeywords := words }
  | .extraTypes => (readStrings json).map fun names => { config with extraTypes := names }

def readMember (config : Config) (member : String × Json) : Except ConfigError Config :=
  match Field.all.find? (·.name == member.1) with
  | some field => config.readField member.2 field
  | none => .error (.unknownField member.1)

/-- The members of an object by ascending name; of several with one name, the last. -/
def sortMembers (members : List (String × Json)) : List (String × Json) :=
  let lastOnes := members.foldr
    (fun member later => if later.any (·.1 == member.1) then later else member :: later) []
  lastOnes.mergeSort fun first second => first.1 ≤ second.1

def ofJson : Json → Except ConfigError Config
  | .object members => (sortMembers members).foldlM readMember default
  | .array items => do
    let config ← (items.zip Field.all).foldlM
      (fun config (json, field) => config.readField json field) default
    if Field.all.length < items.length then .error (.tooManyItems items.length) else .ok config
  | found => .error (.invalidType found .config)

/-- Whether no two members of an object have one name. -/
def distinctMembers : Json → Bool
  | .object members => (members.map (·.1)).Nodup
  | _ => true

/-- Read a configuration from a JSON document; a setting may stand in it once only. -/
def ofDocument? (document : String) : Option Config := do
  let json ← Json.read? document
  if distinctMembers json then (ofJson json).toOption else none

end Config

end MuCompletion
