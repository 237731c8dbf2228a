import MuCompletion.Json.Token

/-!
# Reading JSON

A document is read token by token. The reader knows which containers are still open and what may
come next; a token that may not come there refuses the document. What stands after the value is
refused too, so a document is one value and blanks.
-/

namespace MuCompletion.Json

/-- A container whose end has not been read; its parts come newest first. -/
inductive Open where
  | array (items : List Json)
  /-- An object that waits for the value of the member `name`. -/
  | object (members : List (String × Json)) (name : String)

/-- What may come next in a document, inside the containers `outer`, innermost first. -/
inductive Expecting where
  | value (outer : List Open)
  /-- The first item of an array, or its end. -/
  | firstItem (outer : List Open)
  /-- The first name of an object, or its end. -/
  | firstName (outer : List Open)
  /-- A further name of an object. -/
  | nextName (members : List (String × Json)) (outer : List Open)
  /-- The colon after a name. -/
  | colon (members : List (String × Json)) (name : String) (outer : List Open)
  /-- A comma in an array, or its end. -/
  | afterItem (items : List Json) (outer : List Open)
  /-- A comma in an object, or its end. -/
  | afterMember (members : List (String × Json)) (outer : List Open)
  /-- Nothing: the document's value is complete. -/
  | nothing (value : Json)

namespace Expecting

/-- Give a complete value to the innermost open container. -/
def deliver (json : Json) : List Open → Expecting
  | [] => nothing json
  | .array items :: outer => afterItem (json :: items) outer
  | .object members name :: outer => afterMember ((name, json) :: members) outer

/-- Begin a value with its first token. -/
def beginValue (outer : List Open) : Token → Option Expecting
  | .openArray => some (firstItem outer)
  | .openObject => some (firstName outer)
  | .scalar json => some (deliver json outer)
  | .string text => some (deliver (.string text) outer)
  | _ => none

def step : Expecting → Token → Option Expecting
  | value outer, token => beginValue outer token
  | firstItem outer, .closeArray => some (deliver (.array []) outer)
  | firstItem outer, token => beginValue (.array [] :: outer) token
  | firstName outer, .closeObject => some (deliver (.object []) outer)
  | firstName outer, .string name => some (colon [] name outer)
  | nextName members outer, .string name => some (colon members name outer)
  | colon members name outer, .colon => some (value (.object members name :: outer))
  | afterItem items outer, .comma => some (value (.array items :: outer))
  | afterItem items outer, .closeArray => some (deliver (.array items.reverse) outer)
  | afterMember members outer, .comma => some (nextName members outer)
  | afterMember members outer, .closeObject => some (deliver (.object members.reverse) outer)
  | _, _ => none

/-- The value, when the document may end here. -/
def finish? : Expecting → Option Json
  | nothing json => some json
  | _ => none

end Expecting

/-- The value that a document writes; nothing if the document is malformed. -/
def read? (document : String) : Option Json := do
  let tokens ← tokens? document.toList
  let state ← tokens.foldlM Expecting.step (.value [])
  state.finish?

end MuCompletion.Json
