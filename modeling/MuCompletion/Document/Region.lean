import MuCompletion.Scope.Tree
import MuCompletion.Text.Edit
import MuCompletion.Text.Line

/-!
# How much an edit touches

Before an edit, the region around it that has to be read again is chosen: the lines it touches, the
paragraph around them, or the whole text. A brace can move every scope, so it asks for the whole
text; a newline or a quote can change the lines around it, so it asks for the paragraph.
-/

namespace MuCompletion

/-- How much of a text a region covers. -/
inductive RegionKind where
  | full | line | paragraph
  deriving DecidableEq, Repr

/-- The name of the kind. -/
def RegionKind.name : RegionKind → String
  | full => "Full"
  | line => "Line"
  | paragraph => "Paragraph"

/-- A range of the text before an edit that has to be read again. -/
structure Region where
  kind : RegionKind
  span : Span
  deriving DecidableEq, Repr

namespace Region

/-- Whether a text holds a brace. -/
def hasBrace (text : String) : Bool :=
  text.toList.any fun c => c == '{' || c == '}'

/-- Whether a text holds a newline or a quote. -/
def hasNewlineOrQuote (text : String) : Bool :=
  text.toList.any fun c => c == '\n' || c == '\x22' || c == '\x27'

/-- The whole text. -/
def whole (text : String) : Region :=
  ⟨.full, ⟨0, Text.byteLength text.toList⟩⟩

/-- The line that holds an offset; its newline counts to it, and an offset past the end to the last
line. -/
def lineAt (offset : Nat) : List Text.Line → Text.Line
  | [] => ⟨0, []⟩
  | [line] => line
  | line :: rest => if offset ≤ line.stop then line else lineAt offset rest

/-- The start of the last line that begins at or before `offset` and follows a blank line, or `first`
if there is none. -/
def startAfterBlank (offset first : Nat) : List Text.Line → Nat
  | line :: next :: rest =>
    if next.start ≤ offset then
      startAfterBlank offset (if line.blank then next.start else first) (next :: rest)
    else first
  | _ => first

/-- The start of the first blank line after `offset`, or `stop` if there is none. -/
def startOfBlank (offset stop : Nat) (lines : List Text.Line) : Nat :=
  match lines.find? fun line => offset < line.start && line.blank with
  | some line => line.start
  | none => stop

/-- The lines that hold the ends of an edit, and all between. -/
def lineSpan (lines : List Text.Line) (edit : Edit) : Span :=
  ⟨(lineAt edit.start lines).start, (lineAt edit.stop lines).stop⟩

/-- A span drawn in to a boundary at or before `start`, or at or after `stop`. -/
def clip (start stop : Nat) (span : Span) (boundary : Nat) : Span :=
  ⟨if boundary ≤ start then max span.start boundary else span.start,
    if stop ≤ boundary then min span.stop boundary else span.stop⟩

/-- The lines around an edit up to a blank line on either side, drawn in to the nearest start or end
of a scope directly inside the module. -/
def paragraphSpan (text : String) (tree : ScopeTree) (edit : Edit) : Span :=
  let lines := Text.linesOf text.toList
  let around : Span := ⟨startAfterBlank edit.start 0 lines,
    startOfBlank edit.stop (Text.byteLength text.toList) lines⟩
  let boundaries := tree.branches.flatMap fun branch =>
    [branch.entry.span.start, branch.entry.span.stop]
  boundaries.foldl (clip edit.start edit.stop) around

/-- The region of an edit that fits the text. A text that was never read has no tree. -/
def ofEdit (incremental : Bool) (text : String) (tree : Option ScopeTree) (edit : Edit) : Region :=
  match tree with
  | none => whole text
  | some tree =>
    let removed := edit.removed text
    if !incremental || hasBrace removed || hasBrace edit.insert then whole text
    else if hasNewlineOrQuote removed || hasNewlineOrQuote edit.insert then
      ⟨.paragraph, paragraphSpan text tree edit⟩
    else ⟨.line, lineSpan (Text.linesOf text.toList) edit⟩

end Region

end MuCompletion
