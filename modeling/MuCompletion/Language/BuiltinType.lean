/-!
# Builtin types

The type names that every Mu program knows, with the sentence that documents each in a completion.
Spellings are told apart by case. Main statement: reading a spelling gives its type back.
-/

namespace MuCompletion

/-- A builtin type, in the order of the type table. -/
inductive BuiltinType where
  | bool | byte | char | short | int | int64 | half | float | double | string | regex | vector | exception | void
  deriving DecidableEq, Repr

namespace BuiltinType

/-- All builtin types, in table order. -/
def all : List BuiltinType := [
  .bool, .byte, .char, .short, .int, .int64, .half, .float, .double, .string, .regex, .vector,
  .exception, .void]

/-- The name under which a token shows the type. -/
def name : BuiltinType → String
  | bool => "Bool"
  | byte => "Byte"
  | char => "Char"
  | short => "Short"
  | int => "Int"
  | int64 => "Int64"
  | half => "Half"
  | float => "Float"
  | double => "Double"
  | string => "String"
  | regex => "Regex"
  | vector => "Vector"
  | exception => "Exception"
  | void => "Void"

/-- How the type is written in a source text. -/
def spelling : BuiltinType → String
  | bool => "bool"
  | byte => "byte"
  | char => "char"
  | short => "short"
  | int => "int"
  | int64 => "int64"
  | half => "half"
  | float => "float"
  | double => "double"
  | string => "string"
  | regex => "regex"
  | vector => "vector"
  | exception => "exception"
  | void => "void"

/-- The sentence that documents the type in a completion. -/
def description : BuiltinType → String
  | bool => "Boolean value (`true` or `false`)."
  | byte => "8-bit unsigned integer."
  | char => "Unicode code point."
  | short => "16-bit signed integer."
  | int => "32-bit signed integer."
  | int64 => "64-bit signed integer."
  | half => "16-bit floating point number."
  | float => "32-bit floating point number."
  | double => "64-bit floating point number."
  | string => "Immutable Unicode string."
  | regex => "Compiled regular expression."
  | vector => "Fixed-size float vector, e.g. `vector float[3]`."
  | exception => "Base type of thrown exceptions."
  | void => "No value; used as a function return type."

/-- The builtin type of a spelling. -/
def ofSpelling? (word : String) : Option BuiltinType :=
  all.find? (·.spelling == word)

theorem mem_all (type : BuiltinType) : type ∈ all := by
  cases type <;> decide

theorem ofSpelling?_spelling (type : BuiltinType) : ofSpelling? type.spelling = some type := by
  cases type <;> rfl

end BuiltinType

end MuCompletion
