import MuCompletion.Language.BuiltinType
import MuCompletion.Language.Keyword
import MuCompletion.Text.Span

/-!
# Tokens

A token is a piece of a source text with its kind and its place. Blanks and comments are tokens
too, so the texts of all tokens together are the source text.
-/

namespace MuCompletion

/-- What a token is. -/
inductive TokenKind where
  | keyword (keyword : Keyword)
  | builtin (type : BuiltinType)
  | identifier
  | number
  /-- A string or character literal, closed or not. -/
  | string
  | comment
  | punctuation
  | whitespace
  deriving DecidableEq, Repr

namespace TokenKind

/-- The name of the kind; a word of the language's tables is named in parentheses. -/
def name : TokenKind → String
  | keyword word => s!"Keyword({word.name})"
  | builtin type => s!"Type({type.name})"
  | identifier => "Identifier"
  | number => "Number"
  | string => "String"
  | comment => "Comment"
  | punctuation => "Punctuation"
  | whitespace => "Whitespace"

/-- Whether tokens of the kind are words, which a user extends while typing a name. -/
def isWord : TokenKind → Bool
  | keyword _ | builtin _ | identifier => true
  | _ => false

/-- The kind of a word: a keyword or a builtin type if its spelling is one, else an identifier. -/
def ofWord (word : String) : TokenKind :=
  match Keyword.ofSpelling? word with
  | some found => keyword found
  | none =>
    match BuiltinType.ofSpelling? word with
    | some found => builtin found
    | none => identifier

theorem isWord_ofWord (word : String) : (ofWord word).isWord = true := by
  unfold ofWord
  split
  · rfl
  · split <;> rfl

end TokenKind

/-- A piece of a source text. -/
structure Token where
  kind : TokenKind
  text : String
  span : Span
  deriving DecidableEq, Repr

namespace Token

/-- The mark of a punctuation token, and nothing for any other token. -/
def mark? (token : Token) : Option String :=
  if token.kind = .punctuation then some token.text else none

/-- The token at a place moved by a signed distance. -/
def shift (delta : Int) (token : Token) : Token :=
  { token with span := token.span.shift delta }

end Token

/-- The end of the last token, which is the length of the text that the tokens cover. -/
def lastStop (tokens : List Token) : Nat :=
  match tokens.getLast? with
  | some token => token.span.stop
  | none => 0

end MuCompletion
