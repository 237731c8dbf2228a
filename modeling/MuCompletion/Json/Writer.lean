import MuCompletion.Json.Basic

/-!
# Writing JSON

The compact form of a value: no blanks, members in their order, and only quotes, backslashes and
control characters escaped.
-/

namespace MuCompletion.Json

/-- The form of one character inside a string. -/
def escape (c : Char) : List Char :=
  if c = '\x22' then ['\\', c]
  else if c = '\\' then ['\\', c]
  else if c.toNat < 0x20 then
    ['\\', 'u', '0', '0'] ++ (if c.toNat < 0x10 then ['0'] else []) ++ Nat.toDigits 16 c.toNat
  else [c]

def quoted (text : String) : String :=
  String.ofList ('\x22' :: text.toList.flatMap escape ++ ['\x22'])

namespace Number

/-- The number as a document writes it. -/
def text (number : Number) : String :=
  let sign := if number.negative then "-" else ""
  let fraction := if number.fraction.isEmpty then "" else "." ++ String.ofList number.fraction
  let exponent := match number.exponent with
    | none => ""
    | some n => "e" ++ toString n
  sign ++ String.ofList number.whole ++ fraction ++ exponent

end Number

mutual

/-- The compact form of a value. -/
def write : Json → String
  | null => "null"
  | bool true => "true"
  | bool false => "false"
  | number n => n.text
  | string s => quoted s
  | array items => "[" ++ ",".intercalate (writeItems items) ++ "]"
  | object members => "\x7b" ++ ",".intercalate (writeMembers members) ++ "\x7d"

def writeItems : List Json → List String
  | [] => []
  | item :: rest => write item :: writeItems rest

def writeMembers : List (String × Json) → List String
  | [] => []
  | (name, value) :: rest => (quoted name ++ ":" ++ write value) :: writeMembers rest

end

end MuCompletion.Json
