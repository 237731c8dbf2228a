/-!
# Keywords

The reserved words of Mu: how each is spelled, what it declares, and the sentence that documents it
in a completion. Spellings are told apart by case. Main statement: reading a spelling gives its
keyword back.
-/

namespace MuCompletion

/-- A reserved word, in the order of the keyword table. -/
inductive Keyword where
  | «module» | «namespace» | «class» | union | interface | function | method | operator | «let»
  | var | global | const | require | use | «if» | «then» | «else» | «for» | forEach | forIndex
  | «repeat» | «while» | «do» | «break» | «continue» | «return» | «case» | «try» | «catch»
  | throw | true | false | nil | «this» | documentation
  deriving DecidableEq, Repr

/-- The part of the language that a keyword belongs to. -/
inductive KeywordCategory where
  | declaration | binding | «module» | controlFlow | literal | documentation
  deriving DecidableEq, Repr

/-- What the name after a declaring keyword stands for. -/
inductive DeclarationKind where
  | «namespace» | «type» | function | «variable» | «import»
  deriving DecidableEq, Repr

namespace KeywordCategory

/-- The name of the category. -/
def name : KeywordCategory → String
  | declaration => "Declaration"
  | binding => "Binding"
  | «module» => "Module"
  | controlFlow => "ControlFlow"
  | literal => "Literal"
  | documentation => "Documentation"

end KeywordCategory

namespace DeclarationKind

/-- The name of the kind of declaration. -/
def name : DeclarationKind → String
  | «namespace» => "Namespace"
  | «type» => "Type"
  | function => "Function"
  | «variable» => "Variable"
  | «import» => "Import"

end DeclarationKind

namespace Keyword

/-- All keywords, in table order. -/
def all : List Keyword := [
  .«module», .«namespace», .«class», .union, .interface, .function, .method, .operator, .«let»,
  .var, .global, .const, .require, .use, .«if», .«then», .«else», .«for», .forEach, .forIndex,
  .«repeat», .«while», .«do», .«break», .«continue», .«return», .«case», .«try», .«catch», .throw,
  .true, .false, .nil, .«this», .documentation]

/-- The name under which a token shows the keyword. -/
def name : Keyword → String
  | «module» => "Module"
  | «namespace» => "Namespace"
  | «class» => "Class"
  | union => "Union"
  | interface => "Interface"
  | function => "Function"
  | method => "Method"
  | operator => "Operator"
  | «let» => "Let"
  | var => "Var"
  | global => "Global"
  | const => "Const"
  | require => "Require"
  | use => "Use"
  | «if» => "If"
  | «then» => "Then"
  | «else» => "Else"
  | «for» => "For"
  | forEach => "ForEach"
  | forIndex => "ForIndex"
  | «repeat» => "Repeat"
  | «while» => "While"
  | «do» => "Do"
  | «break» => "Break"
  | «continue» => "Continue"
  | «return» => "Return"
  | «case» => "Case"
  | «try» => "Try"
  | «catch» => "Catch"
  | throw => "Throw"
  | true => "True"
  | false => "False"
  | nil => "Nil"
  | «this» => "This"
  | documentation => "Documentation"

/-- How the keyword is written in a source text. -/
def spelling : Keyword → String
  | «module» => "module"
  | «namespace» => "namespace"
  | «class» => "class"
  | union => "union"
  | interface => "interface"
  | function => "function"
  | method => "method"
  | operator => "operator"
  | «let» => "let"
  | var => "var"
  | global => "global"
  | const => "const"
  | require => "require"
  | use => "use"
  | «if» => "if"
  | «then» => "then"
  | «else» => "else"
  | «for» => "for"
  | forEach => "for_each"
  | forIndex => "for_index"
  | «repeat» => "repeat"
  | «while» => "while"
  | «do» => "do"
  | «break» => "break"
  | «continue» => "continue"
  | «return» => "return"
  | «case» => "case"
  | «try» => "try"
  | «catch» => "catch"
  | throw => "throw"
  | true => "true"
  | false => "false"
  | nil => "nil"
  | «this» => "this"
  | documentation => "documentation"

/-- The part of the language that the keyword belongs to. -/
def category : Keyword → KeywordCategory
  | «module» | «namespace» | «class» | union | interface | function | method | operator => .declaration
  | «let» | var | global | const => .binding
  | require | use => .«module»
  | «if» | «then» | «else» | «for» | forEach | forIndex | «repeat» | «while» | «do» | «break»
  | «continue» | «return» | «case» | «try» | «catch» | throw => .controlFlow
  | true | false | nil | «this» => .literal
  | documentation => .documentation

/-- What the name after the keyword declares, if the keyword declares anything. -/
def declares : Keyword → Option DeclarationKind
  | «module» | «namespace» => some .«namespace»
  | «class» | union | interface => some .«type»
  | function | method | operator => some .function
  | «let» | var | global | const => some .«variable»
  | require | use => some .«import»
  | _ => none

/-- The sentence that documents the keyword in a completion. -/
def description : Keyword → String
  | «module» => "Declare a module; its body is a namespace scope."
  | «namespace» => "Declare a namespace scope."
  | «class» => "Declare a class type."
  | union => "Declare a tagged union (variant) type."
  | interface => "Declare an interface type."
  | function => "Declare a function: `function: name (ret; params) \x7b ... \x7d`."
  | method => "Declare a method of the enclosing class."
  | operator => "Declare an operator overload."
  | «let» => "Bind a local variable with an inferred type."
  | var => "Bind a mutable local variable."
  | global => "Declare a module-level variable."
  | const => "Bind a constant."
  | require => "Load a module and make its name available."
  | use => "Bring a module's symbols into the current scope."
  | «if» => "Conditional statement or expression."
  | «then» => "Introduce the branch of an `if` expression."
  | «else» => "Alternative branch of an `if`."
  | «for» => "C-style loop: `for (init; cond; step)`."
  | forEach => "Iterate over the elements of a collection."
  | forIndex => "Iterate over the indices of an array."
  | «repeat» => "Repeat a statement a fixed number of times."
  | «while» => "Loop while a condition holds."
  | «do» => "Loop body evaluated before its `while` condition."
  | «break» => "Exit the innermost loop."
  | «continue» => "Skip to the next loop iteration."
  | «return» => "Return from the enclosing function."
  | «case» => "Pattern match on a value."
  | «try» => "Run a block, handling exceptions in `catch`."
  | «catch» => "Handle an exception raised in `try`."
  | throw => "Raise an exception."
  | true => "Boolean true."
  | false => "Boolean false."
  | nil => "The empty reference value."
  | «this» => "The receiver inside a method."
  | documentation => "Attach documentation strings to symbols."

/-- The keyword of a spelling. -/
def ofSpelling? (word : String) : Option Keyword :=
  all.find? (·.spelling == word)

theorem mem_all (keyword : Keyword) : keyword ∈ all := by
  cases keyword <;> decide

theorem ofSpelling?_spelling (keyword : Keyword) : ofSpelling? keyword.spelling = some keyword := by
  cases keyword <;> rfl

end Keyword

end MuCompletion
