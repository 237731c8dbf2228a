/-!
# Caller mistakes

A malformed source text is never an error: reading one degrades instead. What can fail is a request
about a document that is not open, and an edit that does not fit its text.
-/

namespace MuCompletion

/-- Why a request on a workspace fails. -/
inductive RequestError where
  /-- No document with this id is open. -/
  | unknownDocument (id : String)
  /-- An edit's range is reversed, past the end of a text of `length` bytes, or off a character
  boundary. -/
  | editOutOfBounds (start stop length : Nat)
  deriving DecidableEq, Repr

namespace RequestError

def message : RequestError → String
  | unknownDocument id => s!"unknown document `{id}`"
  | editOutOfBounds start stop length =>
    s!"edit range {start}..{stop} is invalid for a document of {length} bytes"

/-- A stable identifier of the kind of error. -/
def code : RequestError → String
  | unknownDocument _ => "mu::engine::unknown_document"
  | editOutOfBounds .. => "mu::engine::edit_out_of_bounds"

/-- What the caller can do about it. -/
def help : RequestError → String
  | unknownDocument _ => "open the document before editing or querying it"
  | editOutOfBounds .. =>
    "edit ranges must be ordered, lie within the document and fall on UTF-8 character boundaries"

end RequestError

end MuCompletion
