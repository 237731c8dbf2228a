import MuCompletion.Text.Line

/-!
# What a comment says

Documentation is written in comments; this module takes the marks away. The body of a comment has
no blank line, and no line of it begins or ends with a blank.
-/

namespace MuCompletion

namespace Comment

/-- The comment without its opening and closing marks. -/
def inner : List Char → List Char
  | '/' :: '*' :: cs =>
    match cs.reverse with
    | '/' :: '*' :: body => body.reverse
    | _ => cs
  | cs => cs.dropWhile (· == '/')

/-- A line of a comment without the stars and blanks around it. -/
def bareLine (line : List Char) : List Char :=
  Text.trim ((Text.trim line).dropWhile (· == '*'))

/-- The lines of a comment that say something. -/
def bodyLines (cs : List Char) : List (List Char) :=
  ((Text.splitLines (inner cs)).map bareLine).filter (! ·.isEmpty)

/-- What a comment says: its lines without marks, the empty ones left out. -/
def body (comment : String) : String :=
  String.ofList (Text.joinLines (bodyLines comment.toList))

end Comment

/-- The documentation made of comment bodies: one after the other, and nothing if they are blank. -/
def documentation? (bodies : List String) : Option String :=
  match Text.trim (Text.joinLines (bodies.map String.toList)) with
  | [] => none
  | cs => some (String.ofList cs)

end MuCompletion
