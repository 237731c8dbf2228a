import MuCompletion.Scope.Tree

/-!
# Outlines

The outline of a source text: a line for each scope and below it a line for each of its symbols,
indented by depth.
-/

namespace MuCompletion

namespace ScopeEntry

/-- The blanks before the scope's line. -/
def indent (entry : ScopeEntry) : String :=
  String.ofList (List.replicate (2 * entry.depth) ' ')

def headLine (entry : ScopeEntry) : String :=
  let name := match entry.head.name with
    | some name => s!" {name}"
    | none => ""
  let unclosed := if entry.head.closed then "" else " (unclosed)"
  s!"{entry.indent}{entry.head.kind.name}{name} {entry.span.start}..{entry.span.stop}{unclosed}"

def symbolLine (entry : ScopeEntry) (symbol : Symbol) (span : Span) : String :=
  let documented := if symbol.documentation.isSome then " (documented)" else ""
  s!"{entry.indent}  - {symbol.kind.name} {symbol.name} @{span.start}{documented}"

/-- The lines of the scope and of its symbols. -/
def lines (entry : ScopeEntry) : List String :=
  entry.headLine :: entry.symbols.map fun (symbol, span) => entry.symbolLine symbol span

end ScopeEntry

namespace ScopeTree

mutual

/-- The lines of a scope and of all scopes inside it, in document order. -/
def lines : ScopeTree → List String
  | node entry branches => entry.lines ++ linesAll branches

def linesAll : List ScopeTree → List String
  | [] => []
  | branch :: rest => lines branch ++ linesAll rest

end

/-- The outline as one text; every line ends with a newline. -/
def outline (tree : ScopeTree) : String :=
  String.join (tree.lines.map (· ++ "\n"))

end ScopeTree

end MuCompletion
