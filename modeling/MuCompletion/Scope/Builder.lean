import MuCompletion.Scope.Tree
import MuCompletion.Token.Basic
import MuCompletion.Token.Comment

/-!
# Building scopes from tokens

The builder reads tokens from left to right. It keeps the scopes that are open, the declaration or
binding that waits for its name or its body, and what the comments since the last other token say.
Every opening brace opens a scope and every closing brace closes the innermost one; malformed texts
are read the same way, and a closing brace without a scope is passed over.

A scope of an earlier version can be put in place of its tokens (`reattach`), when nothing waits.
-/

namespace MuCompletion

/-- A scope that is still open; its symbols and the scopes inside it come newest first. -/
structure Frame where
  kind : ScopeKind
  name : Option String
  start : Nat
  declared : Option Declared
  symbols : List Symbol
  /-- The scopes inside, as far as they are complete. -/
  children : List (Nat × Scope)

namespace Frame

/-- A scope at its start, without name or parameters. -/
def opening (kind : ScopeKind) (start : Nat) : Frame :=
  ⟨kind, none, start, none, [], []⟩

/-- Add a symbol whose name covers `span`. -/
def declare (frame : Frame) (name : String) (kind : SymbolKind) (span : Span)
    (documentation : Option String) : Frame :=
  { frame with
    symbols := ⟨name, kind, span.start - frame.start, span.length, documentation⟩ :: frame.symbols }

/-- Add a complete scope that begins at `start`. -/
def attach (frame : Frame) (start : Nat) (scope : Scope) : Frame :=
  { frame with children := (start - frame.start, scope) :: frame.children }

/-- The scope, when it ends at `stop`. -/
def finish (frame : Frame) (stop : Nat) (closed : Bool) : Scope :=
  .node ⟨frame.kind, frame.name, stop - frame.start, closed, frame.symbols.reverse, frame.declared⟩
    frame.children.reverse

end Frame

/-- A parameter list that is being read. A parameter is a segment of at least two words, of which
the last is a name. -/
structure ParameterList where
  depth : Nat
  words : Nat
  /-- The last word of the segment, if it is a name. -/
  last : Option Token
  /-- Whether the segment's default value has begun. -/
  defaulted : Bool

namespace ParameterList

/-- A list after its opening parenthesis. -/
def opened : ParameterList :=
  ⟨1, 0, none, false⟩

/-- The parameter that the segment names. -/
def parameter? (list : ParameterList) : Option Token :=
  if 2 ≤ list.words then list.last else none

/-- The list at the start of a new segment. -/
def nextSegment (list : ParameterList) : ParameterList :=
  ⟨list.depth, 0, none, false⟩

end ParameterList

/-- How far a declaration has been read. -/
inductive DeclarationStage where
  /-- Its name is expected; a colon may come before it, once. -/
  | name (colonSeen : Bool)
  /-- Its name or a parameter list has been read. -/
  | header
  /-- A parameter list is being read. -/
  | parameters (list : ParameterList)

/-- A declaration that may own a scope, before its opening brace. -/
structure PendingDeclaration where
  /-- Where its keyword begins. -/
  start : Nat
  scopeKind : ScopeKind
  symbolKind : SymbolKind
  documentation : Option String
  name : Option Token
  /-- Its parameters, newest first. -/
  parameters : List Token
  stage : DeclarationStage

namespace PendingDeclaration

/-- The declaration with the current segment of its parameter list counted. -/
def endSegment (declaration : PendingDeclaration) : PendingDeclaration :=
  match declaration.stage with
  | .parameters list =>
    { declaration with
      parameters := list.parameter?.toList ++ declaration.parameters
      stage := .parameters list.nextSegment }
  | _ => declaration

/-- The scope that the declaration opens: its parameters are the first symbols. -/
def frame (declaration : PendingDeclaration) : Frame where
  kind := declaration.scopeKind
  name := declaration.name.map (·.text)
  start := declaration.start
  declared := declaration.name.map fun name =>
    ⟨name.text, declaration.symbolKind, name.span.start - declaration.start, name.span.length⟩
  symbols := declaration.parameters.map fun parameter =>
    ⟨parameter.text, .«variable», parameter.span.start - declaration.start, parameter.span.length,
      none⟩
  children := []

end PendingDeclaration

/-- A binding that waits for its name. -/
structure PendingBinding where
  kind : SymbolKind
  documentation : Option String
  /-- Whether a type came before the name; brackets and numbers may then follow the type. -/
  typed : Bool

/-- What waits for further tokens. -/
inductive Pending where
  | nothing
  | binding (binding : PendingBinding)
  | declaration (declaration : PendingDeclaration)

/-- What is known after some tokens. -/
structure ScopeBuilder where
  /-- The innermost open scope. -/
  frame : Frame
  /-- The open scopes around it, innermost first; the last one is the module scope. -/
  outer : List Frame
  pending : Pending
  /-- What the comments since the last other token say. -/
  comments : List String
  /-- The scopes of an earlier version that were put in place, with their starts, newest first. -/
  reattached : List (Nat × ScopeTree)

namespace ScopeBuilder

def initial : ScopeBuilder :=
  ⟨.opening .«module» 0, [], .nothing, [], []⟩

def declare (builder : ScopeBuilder) (name : Token) (kind : SymbolKind)
    (documentation : Option String) : ScopeBuilder :=
  { builder with frame := builder.frame.declare name.text kind name.span documentation }

def openFrame (builder : ScopeBuilder) (frame : Frame) : ScopeBuilder :=
  { builder with frame := frame, outer := builder.frame :: builder.outer }

/-- Close the innermost open scope at `stop`; the module scope stays open. -/
def close (builder : ScopeBuilder) (stop : Nat) : ScopeBuilder :=
  match builder.outer with
  | [] => builder
  | around :: outer =>
    { builder with
      frame := around.attach builder.frame.start (builder.frame.finish stop true)
      outer := outer }

def awaitBinding (builder : ScopeBuilder) (binding : PendingBinding) : ScopeBuilder :=
  { builder with pending := .binding binding }

def awaitDeclaration (builder : ScopeBuilder) (declaration : PendingDeclaration) : ScopeBuilder :=
  { builder with pending := .declaration declaration }

/-- Read a token while nothing waits. -/
def neutral (builder : ScopeBuilder) (token : Token) : ScopeBuilder :=
  match token.kind with
  | .keyword word =>
    match word.declares with
    | none => builder
    | some kind =>
      let documentation := documentation? builder.comments
      match kind.owns with
      | some (scopeKind, symbolKind) =>
        builder.awaitDeclaration
          ⟨token.span.start, scopeKind, symbolKind, documentation, none, [], .name false⟩
      | none =>
        builder.awaitBinding
          ⟨if kind = .«import» then .«namespace» else .«variable», documentation, false⟩
  | .builtin _ => builder.awaitBinding ⟨.«variable», documentation? builder.comments, true⟩
  | .punctuation =>
    if token.text = "\x7b" then builder.openFrame (.opening .block token.span.start)
    else if token.text = "\x7d" then builder.close token.span.stop
    else builder
  | _ => builder

/-- Read a token while a binding waits for its name. -/
def readBinding (builder : ScopeBuilder) (binding : PendingBinding) (token : Token) :
    ScopeBuilder :=
  match token.kind with
  | .identifier => builder.declare token binding.kind binding.documentation
  | .builtin _ => builder.awaitBinding { binding with typed := true }
  | .number => if binding.typed then builder.awaitBinding binding else builder.neutral token
  | .punctuation =>
    if binding.typed && (token.text == "[" || token.text == "]") then builder.awaitBinding binding
    else builder.neutral token
  | _ => builder.neutral token

/-- Read a token while a declaration's name is expected. Marks may be an operator's name. -/
def readName (builder : ScopeBuilder) (declaration : PendingDeclaration) (colonSeen : Bool)
    (token : Token) : ScopeBuilder :=
  match token.kind with
  | .identifier =>
    (builder.declare token declaration.symbolKind declaration.documentation).awaitDeclaration
      { declaration with name := some token, stage := .header }
  | .punctuation =>
    if token.text = ";" then builder
    else if token.text = ":" && !colonSeen then
      builder.awaitDeclaration { declaration with stage := .name true }
    else if token.text = "(" then
      builder.awaitDeclaration { declaration with stage := .parameters .opened }
    else builder.awaitDeclaration declaration
  | _ => builder.neutral token

/-- Read a token between a declaration's name and its body. Another declaration ends this one. -/
def readHeader (builder : ScopeBuilder) (declaration : PendingDeclaration) (token : Token) :
    ScopeBuilder :=
  match token.kind with
  | .punctuation =>
    if token.text = ";" then builder
    else if token.text = "(" then
      builder.awaitDeclaration { declaration with stage := .parameters .opened }
    else builder.awaitDeclaration declaration
  | .keyword word =>
    if word.declares.isSome then builder.neutral token else builder.awaitDeclaration declaration
  | _ => builder.awaitDeclaration declaration

/-- What a token changes in a parameter list. -/
def readParameters (declaration : PendingDeclaration) (list : ParameterList) (token : Token) :
    PendingDeclaration :=
  let goOn (list : ParameterList) := { declaration with stage := .parameters list }
  match token.kind with
  | .punctuation =>
    if token.text = "(" then goOn { list with depth := list.depth + 1 }
    else if token.text = ")" then
      if 1 < list.depth then goOn { list with depth := list.depth - 1 }
      else { declaration.endSegment with stage := .header }
    else if list.depth = 1 && (token.text = "," || token.text = ";") then declaration.endSegment
    else if list.depth = 1 && token.text = "=" then goOn { list with defaulted := true }
    else declaration
  | .identifier =>
    if list.depth = 1 && !list.defaulted then
      goOn { list with words := list.words + 1, last := some token }
    else declaration
  | .builtin _ =>
    if list.depth = 1 && !list.defaulted then
      goOn { list with words := list.words + 1, last := none }
    else declaration
  | _ => declaration

/-- Read a token while a declaration waits. A brace ends it in every stage. -/
def readDeclaration (builder : ScopeBuilder) (declaration : PendingDeclaration) (token : Token) :
    ScopeBuilder :=
  if token.mark? = some "\x7d" then builder.close token.span.stop
  else if token.mark? = some "\x7b" then builder.openFrame declaration.endSegment.frame
  else
    match declaration.stage with
    | .name colonSeen => builder.readName declaration colonSeen token
    | .header => builder.readHeader declaration token
    | .parameters list => builder.awaitDeclaration (readParameters declaration list token)

/-- Read a token that is neither blank nor a comment. -/
def step (builder : ScopeBuilder) (token : Token) : ScopeBuilder :=
  let idle := { builder with pending := .nothing }
  let next := match builder.pending with
    | .nothing => idle.neutral token
    | .binding binding => idle.readBinding binding token
    | .declaration declaration => idle.readDeclaration declaration token
  { next with comments := [] }

/-- Pass over blanks; a blank line parts the comments before it from what follows. -/
def readBlank (builder : ScopeBuilder) (token : Token) : ScopeBuilder :=
  if 2 ≤ token.text.toList.count '\n' then { builder with comments := [] } else builder

def readComment (builder : ScopeBuilder) (token : Token) : ScopeBuilder :=
  { builder with comments := builder.comments ++ [Comment.body token.text] }

def isIdle (builder : ScopeBuilder) : Bool :=
  match builder.pending with
  | .nothing => true
  | _ => false

/-- Put a scope of an earlier version in place at `start`. Its declared name goes into the scope
around it, documented by the comments that stand before it now. -/
def reattach (builder : ScopeBuilder) (start : Nat) (tree : ScopeTree) : ScopeBuilder :=
  let frame := match tree.scope.head.declared with
    | none => builder.frame
    | some name =>
      let nameStart := start + name.offset
      builder.frame.declare name.name name.kind ⟨nameStart, nameStart + name.length⟩
        (documentation? builder.comments)
  { builder with
    frame := frame.attach start tree.scope
    comments := []
    reattached := (start, tree) :: builder.reattached }

/-- The module scope, when the text ends at `stop`: all open scopes end there. -/
def finish (stop : Nat) (frame : Frame) : List Frame → Scope
  | [] => frame.finish stop true
  | around :: outer => finish stop (around.attach frame.start (frame.finish stop false)) outer

/-- Read tokens. Where nothing waits and `reusable` has a scope for a token's start, that scope is
put in place and its tokens are passed over. -/
def run (reusable : List (Nat × ScopeTree)) (builder : ScopeBuilder) : List Token → ScopeBuilder
  | [] => builder
  | token :: rest =>
    if token.kind = .whitespace then run reusable (builder.readBlank token) rest
    else if token.kind = .comment then run reusable (builder.readComment token) rest
    else
      match if builder.isIdle then reusable.lookup token.span.start else none with
      | some tree =>
        let stop := token.span.start + tree.scope.head.length
        run reusable (builder.reattach token.span.start tree)
          (rest.dropWhile (·.span.start < stop))
      | none => run reusable (builder.step token) rest
termination_by tokens => tokens.length
decreasing_by
  · simp
  · simp
  · exact Nat.lt_succ_of_le (List.dropWhile_suffix _).length_le
  · simp

end ScopeBuilder

def Scope.ofTokens (tokens : List Token) : Scope :=
  let built := ScopeBuilder.initial.run [] tokens
  ScopeBuilder.finish (lastStop tokens) built.frame built.outer

def ScopeTree.ofTokens (tokens : List Token) : ScopeTree :=
  .ofScope (.ofTokens tokens)

end MuCompletion
