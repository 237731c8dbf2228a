import MuCompletion.Text.Blank
import MuCompletion.Text.Bytes
import MuCompletion.Token.Basic

/-!
# Scanning tokens

The first characters of a token decide its form (`TokenForm.ofStart`), and the form decides where
the token ends (`TokenForm.cut`). Every cut is lossless: what it takes and what it leaves make up
the text it was given. Scanning keeps no state between tokens, never fails, and looks at most two
characters past the end of a token.
-/

namespace MuCompletion

/-- A division of a text into what comes first and what is left. -/
abbrev Cut := List Char × List Char

namespace Cut

/-- Take the leading characters that satisfy a test. -/
def whileTrue (test : Char → Bool) (cs : List Char) : Cut :=
  (cs.takeWhile test, cs.dropWhile test)

/-- Cut with `first`, then cut what is left with `second`, and take both parts. -/
def andThen (first second : List Char → Cut) (cs : List Char) : Cut :=
  let (taken, rest) := first cs
  let (more, rest) := second rest
  (taken ++ more, rest)

/-- A way to cut loses nothing when its two parts always make up the text. -/
def Lossless (cut : List Char → Cut) : Prop :=
  ∀ cs, (cut cs).1 ++ (cut cs).2 = cs

theorem lossless_whileTrue (test : Char → Bool) : Lossless (whileTrue test) := fun _ =>
  List.takeWhile_append_dropWhile

theorem Lossless.andThen {first second : List Char → Cut} (hfirst : Lossless first)
    (hsecond : Lossless second) : Lossless (andThen first second) := by
  intro cs
  simp only [Cut.andThen, List.append_assoc]
  rw [hsecond, hfirst]

end Cut

/-- The two-character marks that are one token. -/
def compoundMarks : List (Char × Char) :=
  [('-', '>'), (':', ':'), ('=', '='), ('!', '='), ('<', '='), ('>', '='), ('&', '&'), ('|', '|'),
    ('+', '+'), ('-', '-'), ('+', '='), ('-', '='), ('*', '='), ('/', '='), (':', '=')]

/-- Whether a word can begin with the character: an ASCII letter or an underscore. -/
def isWordStart (c : Char) : Bool :=
  c.isAlpha || c == '_'

def isWordPart (c : Char) : Bool :=
  c.isAlphanum || c == '_'

/-- Whether the digits of a number can go on with the character. -/
def isDigitPart (c : Char) : Bool :=
  c.isDigit || c == '_'

def isHexPart (c : Char) : Bool :=
  c.isDigit || ('a' ≤ c && c ≤ 'f') || ('A' ≤ c && c ≤ 'F') || c == '_'

namespace Cut

/-- Take up to and with the first `*/`, or everything if there is none. -/
def throughCommentEnd : List Char → Cut
  | [] => ([], [])
  | '*' :: '/' :: cs => (['*', '/'], cs)
  | c :: cs =>
    let (taken, rest) := throughCommentEnd cs
    (c :: taken, rest)

/-- Take a block comment after its opening slash: the star, and all up to the end mark. -/
def blockComment : List Char → Cut
  | [] => ([], [])
  | star :: cs =>
    let (taken, rest) := throughCommentEnd cs
    (star :: taken, rest)

/-- Take the rest of a literal after its opening quote: through the same quote, or up to a newline
or the end. A backslash keeps the next character from closing the literal, but not a newline. -/
def throughQuote (quote : Char) : List Char → Cut
  | [] => ([], [])
  | ['\\'] => (['\\'], [])
  | '\\' :: '\n' :: cs => (['\\'], '\n' :: cs)
  | '\\' :: c :: cs =>
    let (taken, rest) := throughQuote quote cs
    ('\\' :: c :: taken, rest)
  | c :: cs =>
    if c = '\n' then ([], c :: cs)
    else if c = quote then ([c], cs)
    else
      let (taken, rest) := throughQuote quote cs
      (c :: taken, rest)

/-- Take a fraction: a point that a digit follows, and the digits. -/
def fraction : List Char → Cut
  | '.' :: d :: cs =>
    if d.isDigit then
      let (digits, rest) := whileTrue isDigitPart (d :: cs)
      ('.' :: digits, rest)
    else ([], '.' :: d :: cs)
  | cs => ([], cs)

/-- Take an exponent: the letter, when a digit or a sign follows it, and the digits. -/
def exponent : List Char → Cut
  | e :: d :: cs =>
    if (e == 'e' || e == 'E') && (d.isDigit || d == '+' || d == '-') then
      let (digits, rest) := whileTrue Char.isDigit cs
      (e :: d :: digits, rest)
    else ([], e :: d :: cs)
  | cs => ([], cs)

/-- Take the rest of a number after its first digit, with every letter and digit glued to it. -/
def numeral (first : Char) : List Char → Cut
  | [] => ([], [])
  | x :: cs =>
    if first == '0' && (x == 'x' || x == 'X') then
      let (taken, rest) := andThen (whileTrue isHexPart) (whileTrue isWordPart) cs
      (x :: taken, rest)
    else
      andThen (whileTrue isDigitPart) (andThen fraction (andThen exponent (whileTrue isWordPart)))
        (x :: cs)

/-- Take a second mark that makes a compound with the first. -/
def compound (first : Char) : List Char → Cut
  | [] => ([], [])
  | second :: cs => if (first, second) ∈ compoundMarks then ([second], cs) else ([], second :: cs)

theorem lossless_throughCommentEnd : Lossless throughCommentEnd := by
  intro cs
  fun_induction throughCommentEnd cs with
  | case1 => rfl
  | case2 cs => rfl
  | case3 c cs h taken rest found ih => simpa [found] using ih

theorem lossless_blockComment : Lossless blockComment := by
  intro cs
  cases cs with
  | nil => rfl
  | cons star cs => simp [blockComment, lossless_throughCommentEnd cs]

theorem lossless_throughQuote (quote : Char) : Lossless (throughQuote quote) := by
  intro cs
  fun_induction throughQuote quote cs with
  | case1 => rfl
  | case2 => rfl
  | case3 cs => rfl
  | case4 c cs h taken rest found ih => simpa [found] using ih
  | case5 cs => rfl
  | case6 cs => rfl
  | case7 c cs h₁ h₂ h₃ h₄ h₅ taken rest found ih => simpa [found] using ih

theorem lossless_fraction : Lossless fraction := by
  intro cs
  unfold fraction
  split
  · rename_i d cs
    split
    · have whole := lossless_whileTrue isDigitPart (d :: cs)
      simp [whole]
    · rfl
  · rfl

theorem lossless_exponent : Lossless exponent := by
  intro cs
  unfold exponent
  split
  · split
    · simp [whileTrue]
    · rfl
  · rfl

theorem lossless_numeral (first : Char) : Lossless (numeral first) := by
  intro cs
  cases cs with
  | nil => rfl
  | cons x cs =>
    have hexadecimal := ((lossless_whileTrue isHexPart).andThen (lossless_whileTrue isWordPart)) cs
    have decimal := ((lossless_whileTrue isDigitPart).andThen (lossless_fraction.andThen
      (lossless_exponent.andThen (lossless_whileTrue isWordPart)))) (x :: cs)
    simp only [numeral]
    split
    · simp [hexadecimal]
    · exact decimal

theorem lossless_compound (first : Char) : Lossless (compound first) := by
  intro cs
  cases cs with
  | nil => rfl
  | cons second cs => simp only [compound]; split <;> rfl

end Cut

/-- The form of a token, as its first characters tell. -/
inductive TokenForm where
  | blank | lineComment | blockComment | literal | numeral | word | mark
  deriving DecidableEq, Repr

namespace TokenForm

/-- The form of a token that begins with `first`, when `rest` follows it. -/
def ofStart (first : Char) (rest : List Char) : TokenForm :=
  if Text.isBlank first then .blank
  else if first == '/' && rest.head? == some '/' then .lineComment
  else if first == '/' && rest.head? == some '*' then .blockComment
  else if first == '\x22' || first == '\x27' then .literal
  else if first.isDigit then .numeral
  else if isWordStart first then .word
  else .mark

/-- Where a token of the form ends: what belongs to it after its first character, and the rest. -/
def cut (form : TokenForm) (first : Char) : List Char → Cut :=
  match form with
  | blank => Cut.whileTrue Text.isBlank
  | lineComment => Cut.whileTrue (· ≠ '\n')
  | blockComment => Cut.blockComment
  | literal => Cut.throughQuote first
  | numeral => Cut.numeral first
  | word => Cut.whileTrue isWordPart
  | mark => Cut.compound first

/-- The kind of a token of the form; the text decides which word it is. -/
def kind (text : String) : TokenForm → TokenKind
  | blank => .whitespace
  | lineComment | blockComment => .comment
  | literal => .string
  | numeral => .number
  | word => .ofWord text
  | mark => .punctuation

theorem lossless_cut (form : TokenForm) (first : Char) : Cut.Lossless (form.cut first) := by
  cases form with
  | blank => exact Cut.lossless_whileTrue _
  | lineComment => exact Cut.lossless_whileTrue _
  | blockComment => exact Cut.lossless_blockComment
  | literal => exact Cut.lossless_throughQuote first
  | numeral => exact Cut.lossless_numeral first
  | word => exact Cut.lossless_whileTrue _
  | mark => exact Cut.lossless_compound first

end TokenForm

/-- A scanned token without its place, and the text after it. -/
structure Lexeme where
  kind : TokenKind
  chars : List Char
  rest : List Char
  deriving DecidableEq, Repr

namespace Lexeme

/-- Scan the token at the start of a text that begins with `first`. -/
def scan (first : Char) (cs : List Char) : Lexeme :=
  let form := TokenForm.ofStart first cs
  let (taken, rest) := form.cut first cs
  let chars := first :: taken
  ⟨form.kind (String.ofList chars), chars, rest⟩

/-- The token that the lexeme is at offset `start`. -/
def toToken (start : Nat) (lexeme : Lexeme) : Token :=
  ⟨lexeme.kind, String.ofList lexeme.chars, ⟨start, start + Text.byteLength lexeme.chars⟩⟩

theorem chars_append_rest (first : Char) (cs : List Char) :
    (scan first cs).chars ++ (scan first cs).rest = first :: cs :=
  congrArg (first :: ·) (TokenForm.lossless_cut (TokenForm.ofStart first cs) first cs)

theorem length_rest_scan (first : Char) (cs : List Char) :
    (scan first cs).rest.length ≤ cs.length := by
  have whole := TokenForm.lossless_cut (TokenForm.ofStart first cs) first cs
  have lengths := congrArg List.length whole
  rw [List.length_append] at lengths
  show (((TokenForm.ofStart first cs).cut first cs).2).length ≤ cs.length
  omega

end Lexeme

/-- The tokens of a text that begins at offset `start`. -/
def lexFrom (start : Nat) : List Char → List Token
  | [] => []
  | first :: cs =>
    let lexeme := Lexeme.scan first cs
    lexeme.toToken start :: lexFrom (start + Text.byteLength lexeme.chars) lexeme.rest
termination_by cs => cs.length
decreasing_by
  have := Lexeme.length_rest_scan first cs
  simp only [List.length_cons]
  omega

/-- The tokens of a source text. -/
def lex (text : String) : List Token :=
  lexFrom 0 text.toList

/-- The tokens of a source text from byte `offset` on. An offset past the end goes to the end, and
one inside a character to its start; from there the text is scanned as if it began there. -/
def lexAfter (offset : Nat) (text : String) : List Token :=
  lexFrom (Text.floorOffset offset text.toList) (Text.after offset text.toList)

end MuCompletion
