import Mathlib.Data.List.Chain
import Mathlib.Data.List.TakeWhile
import MuCompletion.Proofs.Token.Stream

/-! # Shapes of tokens

The characters of a token have a shape that its kind tells, and the shape says without the scanner
where the token ends. No two neighbours in a token stream could have been one token: blanks, words
and numbers run as far as they can, and a single mark does not join the character after it.
-/

namespace MuCompletion

open Text

/-- The mark that ends a block comment. -/
def commentEnd : List Char :=
  ['*', '/']

/-- What follows the opening mark of a block comment, when `rest` follows the comment. -/
inductive CommentBody : List Char → List Char → Prop where
  | closed (body : List Char) {rest : List Char} (first : ¬commentEnd <:+: body ++ ['*']) :
      CommentBody (body ++ commentEnd) rest
  | unclosed (body : List Char) (none : ¬commentEnd <:+: body) : CommentBody body []

/-- Characters in which every backslash escapes the character after it, and every quote is escaped. -/
inductive Escaped (quote : Char) : List Char → Prop where
  | nil : Escaped quote []
  | plain {c : Char} {cs : List Char} (notBackslash : c ≠ '\\') (notQuote : c ≠ quote)
      (more : Escaped quote cs) : Escaped quote (c :: cs)
  | pair {c : Char} {cs : List Char} (more : Escaped quote cs) : Escaped quote ('\\' :: c :: cs)

/-- What follows the opening quote of a literal, when `rest` follows the literal. -/
inductive LiteralBody (quote : Char) : List Char → List Char → Prop where
  | closed (body : List Char) {rest : List Char} (oneLine : '\n' ∉ body) (first : Escaped quote body) :
      LiteralBody quote (body ++ [quote]) rest
  | unclosed (body : List Char) {dangling rest : List Char} (oneLine : '\n' ∉ body) (none : Escaped quote body)
      (last : dangling = [] ∨ dangling = ['\\']) (ends : ∀ c ∈ rest.head?, c = '\n') :
      LiteralBody quote (body ++ dangling) rest

/-- The characters that a token of a kind may have when `rest` follows it in the text. -/
inductive TokenShape : TokenKind → List Char → List Char → Prop where
  | blank {chars rest : List Char} (blanks : ∀ c ∈ chars, isBlank c = true)
      (ends : ∀ c ∈ rest.head?, isBlank c = false) : TokenShape .whitespace chars rest
  | lineComment (body : List Char) {rest : List Char} (oneLine : '\n' ∉ body)
      (ends : ∀ c ∈ rest.head?, c = '\n') : TokenShape .comment ('/' :: '/' :: body) rest
  | blockComment {body rest : List Char} (through : CommentBody body rest) :
      TokenShape .comment ('/' :: '*' :: body) rest
  | literal {quote : Char} {body rest : List Char} (opens : quote = '\x22' ∨ quote = '\x27')
      (through : LiteralBody quote body rest) : TokenShape .string (quote :: body) rest
  | number {digit : Char} {more rest : List Char} (starts : digit.isDigit = true)
      (ends : ∀ c ∈ rest.head?, isWordPart c = false) : TokenShape .number (digit :: more) rest
  | word {first : Char} {more rest : List Char} (starts : isWordStart first = true)
      (parts : ∀ c ∈ more, isWordPart c = true) (ends : ∀ c ∈ rest.head?, isWordPart c = false) :
      TokenShape (.ofWord (String.ofList (first :: more))) (first :: more) rest
  | mark {first : Char} {rest : List Char} (notBlank : isBlank first = false)
      (notQuote : first ≠ '\x22' ∧ first ≠ '\x27') (notDigit : first.isDigit = false)
      (notWord : isWordStart first = false)
      (single : ∀ c ∈ rest.head?, (first, c) ∉ compoundMarks ∧ (first = '/' → c ≠ '/' ∧ c ≠ '*')) :
      TokenShape .punctuation [first] rest
  | compound {first second : Char} {rest : List Char} (joins : (first, second) ∈ compoundMarks) :
      TokenShape .punctuation [first, second] rest

namespace Cut

/-- A way to cut stops at a test when the character after what it takes fails the test. -/
def Stops (test : Char → Bool) (cut : List Char → Cut) : Prop :=
  ∀ cs, ∀ c ∈ (cut cs).2.head?, test c = false

theorem stops_whileTrue (test : Char → Bool) : Stops test (whileTrue test) := by
  intro cs c next
  have stop := List.head?_dropWhile_not test cs
  rw [Option.mem_def, whileTrue] at next
  simpa [next] using stop

theorem Stops.andThen {test : Char → Bool} {second : List Char → Cut} (stops : Stops test second)
    (first : List Char → Cut) : Stops test (andThen first second) :=
  fun cs => stops (first cs).2

theorem stops_numeral (first : Char) : Stops isWordPart (numeral first) := by
  have suffix := stops_whileTrue isWordPart
  intro cs
  cases cs with
  | nil => simp [numeral]
  | cons x cs =>
      simp only [numeral]
      split
      · exact suffix.andThen (whileTrue isHexPart) cs
      · exact ((suffix.andThen exponent).andThen fraction).andThen (whileTrue isDigitPart) (x :: cs)

theorem commentBody_throughCommentEnd (cs : List Char) :
    CommentBody (throughCommentEnd cs).1 (throughCommentEnd cs).2 := by
  fun_induction throughCommentEnd cs with
  | case1 => exact .unclosed [] (by simp [commentEnd])
  | case2 cs => exact .closed [] (by decide)
  | case3 c cs notEnd taken rest found ih =>
      have whole := lossless_throughCommentEnd cs
      rw [found] at ih whole
      -- An end mark that begins at this character would have been taken.
      have later (front : List Char) (begins : front <+: cs) : ¬commentEnd <+: c :: front := by
        rintro ⟨back, same⟩
        obtain ⟨rfl, rfl⟩ : '*' = c ∧ '/' :: back = front := by simpa [commentEnd] using same
        obtain ⟨more, rfl⟩ := begins
        exact notEnd (back ++ more) rfl rfl
      cases ih with
      | @closed body _ first =>
          refine .closed (c :: body) fun within => ?_
          rcases List.infix_cons_iff.mp within with begins | inside
          · exact later (body ++ ['*']) ⟨'/' :: rest, by simpa [commentEnd] using whole⟩ begins
          · exact first inside
      | unclosed _ none =>
          refine .unclosed (c :: taken) fun within => ?_
          rcases List.infix_cons_iff.mp within with begins | inside
          · exact later taken ⟨[], whole⟩ begins
          · exact none inside

theorem literalBody_throughQuote {quote : Char} (opens : quote = '\x22' ∨ quote = '\x27')
    (cs : List Char) : LiteralBody quote (throughQuote quote cs).1 (throughQuote quote cs).2 := by
  have notNewline : quote ≠ '\n' := by rcases opens with rfl | rfl <;> decide
  fun_induction throughQuote quote cs with
  | case1 => exact .unclosed [] (by simp) .nil (.inl rfl) (by simp)
  | case2 => exact .unclosed [] (by simp) .nil (.inr rfl) (by simp)
  | case3 cs => exact .unclosed [] (by simp) .nil (.inr rfl) (by simp)
  | case4 c cs newline taken rest found ih =>
      rw [found] at ih
      have escaped : '\n' ≠ '\\' ∧ '\n' ≠ c := ⟨by decide, fun same => newline same.symm⟩
      cases ih with
      | @closed body _ oneLine first =>
          refine .closed ('\\' :: c :: body) ?_ (.pair first)
          simpa [escaped] using oneLine
      | @unclosed body dangling _ oneLine none last ends =>
          refine .unclosed ('\\' :: c :: body) ?_ (.pair none) last ends
          simpa [escaped] using oneLine
  | case5 cs => exact .unclosed [] (by simp) .nil (.inl rfl) (by simp)
  | case6 cs last more _ => exact .closed [] (by simp) .nil
  | case7 c cs last newline more notEnd notQuote taken rest found ih =>
      rw [found] at ih
      have plain : c ≠ '\\' := ne_backslash last more
      have here : '\n' ≠ c := fun same => notEnd same.symm
      cases ih with
      | @closed body _ oneLine first =>
          refine .closed (c :: body) ?_ (.plain plain notQuote first)
          simpa [here] using oneLine
      | @unclosed body dangling _ oneLine none last ends =>
          refine .unclosed (c :: body) ?_ (.plain plain notQuote none) last ends
          simpa [here] using oneLine

end Cut

namespace TokenShape

theorem of_blank {first : Char} (blank : isBlank first = true) (cs : List Char) :
    TokenShape .whitespace (first :: (Cut.whileTrue isBlank cs).1) (Cut.whileTrue isBlank cs).2 := by
  refine .blank (fun c member => ?_) (Cut.stops_whileTrue isBlank cs)
  rcases List.mem_cons.mp member with rfl | member
  · exact blank
  · exact List.mem_takeWhile_imp member

theorem of_lineComment (cs : List Char) :
    TokenShape .comment ('/' :: (Cut.whileTrue (· ≠ '\n') ('/' :: cs)).1)
      (Cut.whileTrue (· ≠ '\n') ('/' :: cs)).2 := by
  have stops := Cut.stops_whileTrue (· ≠ '\n') ('/' :: cs)
  refine .lineComment (cs.takeWhile (· ≠ '\n')) (fun member => ?_) fun c next => ?_
  · simpa using List.mem_takeWhile_imp member
  · simpa using stops c next

theorem of_mark {first : Char} {cs : List Char} (notBlank : isBlank first = false)
    (notQuote : first ≠ '\x22' ∧ first ≠ '\x27') (notDigit : first.isDigit = false)
    (notWord : isWordStart first = false)
    (notComment : first = '/' → ∀ c ∈ cs.head?, c ≠ '/' ∧ c ≠ '*') :
    TokenShape .punctuation (first :: (Cut.compound first cs).1) (Cut.compound first cs).2 := by
  cases cs with
  | nil => exact .mark notBlank notQuote notDigit notWord (by simp [Cut.compound])
  | cons second cs =>
      by_cases joins : (first, second) ∈ compoundMarks
      · simp only [Cut.compound, if_pos joins]
        exact .compound joins
      · simp only [Cut.compound, if_neg joins]
        refine .mark notBlank notQuote notDigit notWord fun c next => ?_
        obtain rfl : second = c := by simpa using next
        exact ⟨joins, fun slash => notComment slash second rfl⟩

end TokenShape

theorem Lexeme.shape_scan (first : Char) (cs : List Char) :
    TokenShape (scan first cs).kind (scan first cs).chars (scan first cs).rest := by
  rw [scan_def]
  by_cases blank : isBlank first = true
  · simp only [TokenForm.ofStart, blank, if_true]
    exact .of_blank blank cs
  by_cases line : (first == '/' && cs.head? == some '/') = true
  · simp only [TokenForm.ofStart, blank, line, if_true]
    obtain ⟨rfl, more, rfl⟩ : first = '/' ∧ ∃ more, cs = '/' :: more := by
      simpa [List.head?_eq_some_iff] using line
    exact .of_lineComment more
  by_cases block : (first == '/' && cs.head? == some '*') = true
  · simp only [TokenForm.ofStart, blank, line, block, if_true]
    obtain ⟨rfl, more, rfl⟩ : first = '/' ∧ ∃ more, cs = '*' :: more := by
      simpa [List.head?_eq_some_iff] using block
    exact .blockComment (Cut.commentBody_throughCommentEnd more)
  by_cases quote : (first == '\x22' || first == '\x27') = true
  · simp only [TokenForm.ofStart, blank, line, block, quote, if_true]
    have opens : first = '\x22' ∨ first = '\x27' := by simpa using quote
    exact .literal opens (Cut.literalBody_throughQuote opens cs)
  by_cases digit : first.isDigit = true
  · simp only [TokenForm.ofStart, blank, line, block, quote, digit, if_true]
    exact .number digit (Cut.stops_numeral first cs)
  by_cases start : isWordStart first = true
  · simp only [TokenForm.ofStart, blank, line, block, quote, digit, start, if_true]
    exact .word start (fun c => List.mem_takeWhile_imp) (Cut.stops_whileTrue isWordPart cs)
  · simp only [TokenForm.ofStart, blank, line, block, quote, digit, start]
    refine .of_mark (by simpa using blank) (by simpa using quote) (by simpa using digit)
      (by simpa using start) fun slash c next => ?_
    have head : cs.head? = some c := next
    subst slash
    simpa [head] using And.intro line block

/-- Two neighbouring tokens that could not have been one. -/
structure Parted (first second : Token) : Prop where
  blanks : ¬(first.kind = .whitespace ∧ second.kind = .whitespace)
  words : ¬((first.kind.isWord = true ∨ first.kind = .number) ∧
    (second.kind.isWord = true ∨ second.kind = .number))
  marks : first.kind = .punctuation → ∀ c, first.text.toList = [c] →
    ∀ d ∈ second.text.toList.head?, (c, d) ∉ compoundMarks ∧ (c = '/' → d ≠ '/' ∧ d ≠ '*')

namespace TokenShape

variable {kind : TokenKind} {chars rest : List Char}

theorem ofWord_ne {word : String} {kind : TokenKind} (other : kind.isWord = false) :
    TokenKind.ofWord word ≠ kind := by
  intro same
  have isWord := TokenKind.isWord_ofWord word
  simp [same, other] at isWord

theorem whitespace (shape : TokenShape kind chars rest) (blank : kind = .whitespace) :
    (∀ c ∈ chars, isBlank c = true) ∧ ∀ c ∈ rest.head?, isBlank c = false := by
  cases shape with
  | blank blanks ends => exact ⟨blanks, ends⟩
  | word => exact absurd blank (ofWord_ne rfl)
  | lineComment | blockComment | literal | number | mark | compound => cases blank

theorem isWordPart_of_isWordStart {c : Char} (starts : isWordStart c = true) : isWordPart c = true := by
  simp only [isWordStart, Bool.or_eq_true] at starts
  rcases starts with letter | underscore
  · simp [isWordPart, Char.isAlphanum, letter]
  · simp [isWordPart, underscore]

theorem isWordPart_of_word (shape : TokenShape kind chars rest) (word : kind.isWord = true) :
    ∀ c ∈ chars, isWordPart c = true := by
  cases shape with
  | word starts parts ends =>
      exact List.forall_mem_cons.mpr ⟨isWordPart_of_isWordStart starts, parts⟩
  | blank | lineComment | blockComment | literal | number | mark | compound =>
      simp [TokenKind.isWord] at word

theorem wordOrNumber (shape : TokenShape kind chars rest)
    (word : kind.isWord = true ∨ kind = .number) :
    (∃ c more, chars = c :: more ∧ isWordPart c = true) ∧
      ∀ c ∈ rest.head?, isWordPart c = false := by
  cases shape with
  | number starts ends =>
      exact ⟨⟨_, _, rfl, by simp [isWordPart, Char.isAlphanum, starts]⟩, ends⟩
  | word starts parts ends => exact ⟨⟨_, _, rfl, isWordPart_of_isWordStart starts⟩, ends⟩
  | blank | lineComment | blockComment | literal | mark | compound => simp [TokenKind.isWord] at word

theorem singleMark {c : Char} (shape : TokenShape kind chars rest) (mark : kind = .punctuation)
    (single : chars = [c]) :
    ∀ d ∈ rest.head?, (c, d) ∉ compoundMarks ∧ (c = '/' → d ≠ '/' ∧ d ≠ '*') := by
  cases shape with
  | mark _ _ _ _ alone =>
      obtain ⟨rfl, -⟩ := List.cons.inj single
      exact alone
  | compound => simp at single
  | word => exact absurd mark (ofWord_ne rfl)
  | blank | lineComment | blockComment | literal | number => cases mark

theorem parted {first second : Token} (rest : List Char) (shape : TokenShape first.kind first.text.toList
      (second.text.toList ++ rest)) (next : TokenShape second.kind second.text.toList rest)
    (nonempty : second.text.toList ≠ []) : Parted first second := by
  obtain ⟨d, more, chars⟩ := List.exists_cons_of_ne_nil nonempty
  rw [chars] at shape next
  constructor
  · rintro ⟨blank, blank'⟩
    have ends := (shape.whitespace blank).2 d rfl
    have blanks := (next.whitespace blank').1 d List.mem_cons_self
    rw [ends] at blanks
    cases blanks
  · rintro ⟨word, word'⟩
    have ends := (shape.wordOrNumber word).2 d rfl
    obtain ⟨⟨e, _, same, part⟩, -⟩ := next.wordOrNumber word'
    obtain ⟨rfl, -⟩ := List.cons.inj same
    rw [ends] at part
    cases part
  · intro mark c single e here
    rw [chars] at here
    obtain rfl : d = e := by simpa using here
    exact shape.singleMark mark single d rfl

end TokenShape

@[simp] theorem Lexeme.toList_text_toToken (start : Nat) (lexeme : Lexeme) :
    (lexeme.toToken start).text.toList = lexeme.chars := by
  simp [Lexeme.toToken]

/-- No two neighbours in a token stream could have been one token. -/
theorem isChain_lexFrom (start : Nat) (cs : List Char) : (lexFrom start cs).IsChain Parted := by
  fun_induction lexFrom start cs with
  | case1 => exact .nil
  | case2 start first cs lexeme ih =>
      refine List.isChain_cons.mpr ⟨fun next here => ?_, ih⟩
      have shape := Lexeme.shape_scan first cs
      cases rest : lexeme.rest with
      | nil => simp [rest, lexFrom_nil] at here
      | cons d ds =>
          rw [rest, lexFrom_cons] at here
          obtain rfl := by simpa using here
          have next := Lexeme.shape_scan d ds
          have whole := Lexeme.chars_append_rest d ds
          have follows : lexeme.rest = (Lexeme.scan d ds).chars ++ (Lexeme.scan d ds).rest :=
            rest.trans whole.symm
          refine TokenShape.parted (Lexeme.scan d ds).rest ?_ ?_ ?_
          · rw [Lexeme.toList_text_toToken, Lexeme.toList_text_toToken, ← follows]
            exact shape
          · rw [Lexeme.toList_text_toToken]
            exact next
          · rw [Lexeme.toList_text_toToken]
            exact Lexeme.chars_ne_nil d ds

theorem split_of_mem_lex {text : String} {token : Token} (member : token ∈ lex text) :
    ∃ front back, text.toList = front ++ token.text.toList ++ back ∧
      token.span = ⟨byteLength front, byteLength (front ++ token.text.toList)⟩ ∧
      TokenShape token.kind token.text.toList back := by
  obtain ⟨us, ts, split⟩ := List.append_of_mem member
  obtain ⟨front, rest, whole, -, later⟩ := lexFrom_eq_append split
  rw [Nat.zero_add] at later
  cases rest with
  | nil => simp [lexFrom_nil] at later
  | cons first cs =>
      rw [lexFrom_cons, List.cons.injEq] at later
      obtain ⟨rfl, -⟩ := later
      refine ⟨front, (Lexeme.scan first cs).rest, ?_, ?_, ?_⟩
      · rw [Lexeme.toList_text_toToken, List.append_assoc, Lexeme.chars_append_rest, whole]
      · rw [Lexeme.toList_text_toToken, byteLength_append]
        rfl
      · rw [Lexeme.toList_text_toToken]
        exact Lexeme.shape_scan first cs

theorem isBoundary_of_mem_lex {text : String} {token : Token} (member : token ∈ lex text) :
    isBoundary token.span.start text.toList = true ∧
      isBoundary token.span.stop text.toList = true := by
  obtain ⟨front, back, whole, place, -⟩ := split_of_mem_lex member
  rw [place, whole]
  exact ⟨isBoundary_iff.mpr ⟨front, _, List.append_assoc .., rfl⟩,
    isBoundary_iff.mpr ⟨_, back, rfl, rfl⟩⟩

/-- The tokens of a text tile it on character boundaries, each has the shape of its kind, and no two
neighbours could have been one. -/
theorem lex_shaped (text : String) :
    Tiles 0 (lex text) (byteLength text.toList) ∧
      (∀ token ∈ lex text,
        isBoundary token.span.start text.toList = true ∧
        isBoundary token.span.stop text.toList = true ∧
        token.text.toList = slice token.span.start token.span.stop text.toList ∧
        TokenShape token.kind token.text.toList (after token.span.stop text.toList)) ∧
      (lex text).IsChain Parted := by
  refine ⟨lex_tiles text, fun token member => ?_, isChain_lexFrom 0 text.toList⟩
  obtain ⟨front, back, whole, place, shape⟩ := split_of_mem_lex member
  have start : after (byteLength front) (front ++ (token.text.toList ++ back)) =
      token.text.toList ++ back := after_byteLength_append front _
  have size : byteLength (front ++ token.text.toList) - byteLength front =
      byteLength token.text.toList := by
    rw [byteLength_append]
    omega
  obtain ⟨starts, stops⟩ := isBoundary_of_mem_lex member
  refine ⟨starts, stops, ?_, ?_⟩
  · rw [place, whole, slice, size, List.append_assoc, start, before_byteLength_append]
  · rw [place, whole, after_byteLength_append]
    exact shape

end MuCompletion
