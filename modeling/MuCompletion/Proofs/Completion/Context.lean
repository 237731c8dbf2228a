import MuCompletion.Completion.Context
import MuCompletion.Proofs.Token.Shape

/-! # Where words are typed

Nothing is completed inside a literal or a comment, nor behind one that goes on with whatever is typed
there: a line comment, a literal without its closing quote, a block comment without its end mark. At
every other cursor the word that holds the character before it is being typed, if there is one.
-/

namespace MuCompletion

open Text

/-- The character before the offset belongs to the token. -/
def Token.Holds (offset : Nat) (token : Token) : Prop :=
  token.span.start < offset ∧ offset ≤ token.span.stop

/-- The characters of a literal or a comment that more text would still belong to. -/
inductive Unfinished : TokenKind → List Char → Prop where
  | lineComment (body : List Char) : Unfinished .comment ('/' :: '/' :: body)
  | blockComment {body : List Char} (none : ¬commentEnd <:+: body) :
      Unfinished .comment ('/' :: '*' :: body)
  | literal {quote : Char} {body dangling : List Char} (none : Escaped quote body)
      (last : dangling = [] ∨ dangling = ['\\']) : Unfinished .string (quote :: (body ++ dangling))

/-- What is typed at the offset belongs to the token, a literal or a comment. -/
inductive Token.Swallows (offset : Nat) (token : Token) : Prop where
  | inside (kind : token.kind = .string ∨ token.kind = .comment) (after : token.span.start < offset)
      (before : offset < token.span.stop)
  | ends (here : offset = token.span.stop) (unfinished : Unfinished token.kind token.text.toList)

/-- What is being typed at the offset, and the span of the word that it belongs to. -/
inductive Typing (text : String) (offset : Nat) : String → Option Span → Prop where
  | word {token : Token} (member : token ∈ lex text) (word : token.kind.isWord = true)
      (holds : token.Holds offset) : Typing text offset
        (String.ofList (slice token.span.start offset text.toList)) (some token.span)
  | outside (noWord : ∀ token ∈ lex text, token.kind.isWord = true → ¬token.Holds offset) :
      Typing text offset "" none

/-! ## Literals and comments that have ended -/

theorem closesLiteral_cons {c : Char} (plain : c ≠ '\\') (quote : Char) (cs : List Char) :
    closesLiteral quote (c :: cs) = (c == quote || closesLiteral quote cs) := by
  cases cs <;> simp [closesLiteral, plain]

theorem closesLiteral_closed {quote : Char} {body : List Char} (plain : quote ≠ '\\')
    (first : Escaped quote body) : closesLiteral quote (body ++ [quote]) = true := by
  induction first with
  | nil => simp [closesLiteral_cons plain]
  | plain notBackslash notQuote more ih => simp [closesLiteral_cons notBackslash, ih]
  | pair more ih => simpa [closesLiteral] using ih

theorem closesLiteral_unclosed {quote : Char} {body dangling : List Char} (none : Escaped quote body)
    (last : dangling = [] ∨ dangling = ['\\']) : closesLiteral quote (body ++ dangling) = false := by
  induction none with
  | nil => rcases last with rfl | rfl <;> rfl
  | plain notBackslash notQuote more ih => simp [closesLiteral_cons notBackslash, notQuote, ih]
  | pair more ih => simpa [closesLiteral] using ih

section

variable {token : Token} {rest : List Char}

theorem isComplete_literal {quote : Char} {cs : List Char} (kind : token.kind = .string)
    (chars : token.text.toList = quote :: cs) : isComplete token = closesLiteral quote cs := by
  simp only [isComplete, kind, chars]

theorem isComplete_blockComment {cs : List Char} (kind : token.kind = .comment)
    (chars : token.text.toList = '/' :: '*' :: cs) :
    isComplete token = commentEnd.isSuffixOf cs := by
  simp only [isComplete, kind, chars, commentEnd]

theorem isComplete_lineComment {cs : List Char} (kind : token.kind = .comment)
    (chars : token.text.toList = '/' :: '/' :: cs) : isComplete token = false := by
  simp only [isComplete, kind, chars]
  rfl

theorem Unfinished.isComplete (unfinished : Unfinished token.kind token.text.toList) :
    isComplete token = false := by
  generalize kind : token.kind = found at unfinished
  generalize chars : token.text.toList = cs at unfinished
  cases unfinished with
  | lineComment body => exact isComplete_lineComment kind chars
  | @blockComment body none =>
      rw [isComplete_blockComment kind chars, Bool.eq_false_iff]
      intro ends
      exact none (List.isSuffixOf_iff_suffix.mp ends).isInfix
  | literal none last =>
      rw [isComplete_literal kind chars]
      exact closesLiteral_unclosed none last

theorem TokenShape.unfinished (shape : TokenShape token.kind token.text.toList rest)
    (kind : token.kind = .string ∨ token.kind = .comment) (incomplete : isComplete token = false) :
    Unfinished token.kind token.text.toList := by
  generalize found : token.kind = k at shape kind ⊢
  generalize chars : token.text.toList = cs at shape ⊢
  cases shape with
  | lineComment body => exact .lineComment body
  | blockComment through =>
      cases through with
      | closed body first =>
          have ends : commentEnd.isSuffixOf (body ++ commentEnd) = true :=
            List.isSuffixOf_iff_suffix.mpr (List.suffix_append body commentEnd)
          rw [isComplete_blockComment found chars, ends] at incomplete
          cases incomplete
      | unclosed body none => exact .blockComment none
  | @literal quote _ _ opens through =>
      have plain : quote ≠ '\\' := by rcases opens with rfl | rfl <;> decide
      cases through with
      | closed body oneLine first =>
          rw [isComplete_literal found chars, closesLiteral_closed plain first] at incomplete
          cases incomplete
      | unclosed body oneLine none last ends => exact .literal none last
  | word => exact absurd kind (not_or.mpr ⟨ofWord_ne rfl, ofWord_ne rfl⟩)
  | blank | number | mark | compound => simp at kind

end

/-! ## The token at the cursor -/

section

variable {text : String} {token other : Token} {offset cursor : Nat}

theorem Token.Swallows.holds (swallows : token.Swallows offset)
    (filled : token.span.start < token.span.stop) : token.Holds offset := by
  cases swallows with
  | inside kind after before => exact ⟨after, Nat.le_of_lt before⟩
  | ends here unfinished => exact ⟨here ▸ filled, Nat.le_of_eq here⟩

theorem Token.Swallows.kind (swallows : token.Swallows offset) :
    token.kind = .string ∨ token.kind = .comment := by
  cases swallows with
  | inside kind => exact kind
  | ends here unfinished =>
      generalize token.kind = kind at unfinished ⊢
      generalize token.text.toList = cs at unfinished
      cases unfinished <;> simp

theorem Token.Holds.unique (holds : token.Holds offset) (holds' : other.Holds offset)
    (member : token ∈ lex text) (member' : other ∈ lex text) : other = token := by
  obtain ⟨after, within⟩ := holds
  obtain ⟨after', within'⟩ := holds'
  rcases (lex_tiles text).apart member member' with same | before | behind
  · exact same
  · omega
  · omega

theorem Typing.unique {typed typed' : String} {word word' : Option Span}
    (typing : Typing text offset typed word) (typing' : Typing text offset typed' word') :
    typed' = typed ∧ word' = word := by
  cases typing with
  | @word token member isWord holds =>
      cases typing' with
      | word member' isWord' holds' =>
          rw [holds.unique holds' member member']
          exact ⟨rfl, rfl⟩
      | outside noWord => exact absurd holds (noWord token member isWord)
  | outside noWord =>
      cases typing' with
      | @word token member isWord holds => exact absurd holds (noWord token member isWord)
      | outside => exact ⟨rfl, rfl⟩

theorem Typing.outside_of_holds (member : token ∈ lex text) (holds : token.Holds offset)
    (noWord : token.kind.isWord = false) : Typing text offset "" none := by
  refine .outside fun other member' isWord holds' => ?_
  rw [holds.unique holds' member member', noWord] at isWord
  cases isWord

/-- The token that holds the cursor decides alone: either it swallows what is typed, or that is part of
the token if it is a word, and stands alone if it is none. -/
theorem at?_of_holds (member : token ∈ lex text)
    (holds : token.Holds (floorOffset cursor text.toList)) :
    (CompletionContext.at? text (lex text) cursor = none ∧
        token.Swallows (floorOffset cursor text.toList)) ∨
      ∃ typed word, CompletionContext.at? text (lex text) cursor =
          some ⟨floorOffset cursor text.toList, typed, word⟩ ∧
        ¬token.Swallows (floorOffset cursor text.toList) ∧
        Typing text (floorOffset cursor text.toList) typed word := by
  have found := (lex_tiles text).find?_inside member holds.1 holds.2
  have positive : floorOffset cursor text.toList ≠ 0 := Nat.ne_of_gt (Nat.zero_lt_of_lt holds.1)
  simp only [CompletionContext.at?, positive, if_false, found]
  generalize floorOffset cursor text.toList = offset at holds ⊢
  by_cases word : token.kind.isWord = true
  · right
    refine ⟨_, _, by rw [if_pos word], fun swallows => ?_, .word member word holds⟩
    rcases swallows.kind with kind | kind <;> simp [kind, TokenKind.isWord] at word
  · have outside := Typing.outside_of_holds member holds (by simpa using word)
    by_cases kind : token.kind = .string ∨ token.kind = .comment
    · obtain ⟨front, rest, -, -, shape⟩ := split_of_mem_lex member
      by_cases complete : offset = token.span.stop ∧ isComplete token = true
      · right
        refine ⟨"", none, by simp [word, kind, complete], fun swallows => ?_, outside⟩
        cases swallows with
        | inside _ _ before => exact absurd complete.1 (Nat.ne_of_lt before)
        | ends _ unfinished => simp [unfinished.isComplete] at complete
      · left
        refine ⟨by simpa [word, kind] using complete, ?_⟩
        by_cases here : offset = token.span.stop
        · exact .ends here (shape.unfinished kind (by simpa [here] using complete))
        · exact .inside kind holds.1 (Nat.lt_of_le_of_ne holds.2 here)
    · right
      exact ⟨"", none, by simp [word, kind], fun swallows => kind swallows.kind, outside⟩

theorem at?_cases (text : String) (cursor : Nat) :
    (CompletionContext.at? text (lex text) cursor = none ∧
        ∃ token ∈ lex text, token.Swallows (floorOffset cursor text.toList)) ∨
      ∃ typed word, CompletionContext.at? text (lex text) cursor =
          some ⟨floorOffset cursor text.toList, typed, word⟩ ∧
        (¬∃ token ∈ lex text, token.Swallows (floorOffset cursor text.toList)) ∧
        Typing text (floorOffset cursor text.toList) typed word := by
  have filled : ∀ token ∈ lex text, token.span.start < token.span.stop :=
    fun token member => ((lex_tiles text).of_mem member).2.1
  rcases Nat.eq_zero_or_pos (floorOffset cursor text.toList) with zero | positive
  · right
    refine ⟨"", none, by simp [CompletionContext.at?, zero], ?_, .outside ?_⟩
    · rintro ⟨token, member, swallows⟩
      have after := (swallows.holds (filled token member)).1
      omega
    · intro token member word holds
      have after := holds.1
      omega
  · obtain ⟨token, member, holds⟩ :=
      (lex_tiles text).exists_holding positive (floorOffset_le_byteLength cursor text.toList)
    rcases at?_of_holds member holds with ⟨nothing, swallows⟩ | ⟨typed, word, found, spares, typing⟩
    · exact .inl ⟨nothing, token, member, swallows⟩
    · right
      refine ⟨typed, word, found, ?_, typing⟩
      rintro ⟨other, member', swallows⟩
      obtain rfl := Token.Holds.unique holds (swallows.holds (filled other member')) member member'
      exact spares swallows

/-- At a cursor, moved back to a character boundary, nothing is completed exactly if a literal or a
comment swallows what is typed there. Everywhere else the word that holds the character before the
cursor is being typed, as far as the cursor, or no word if there is none. -/
theorem at?_lex_iff (text : String) (cursor : Nat) :
    (CompletionContext.at? text (lex text) cursor = none ↔
      ∃ token ∈ lex text, token.Swallows (floorOffset cursor text.toList)) ∧
    ∀ context, CompletionContext.at? text (lex text) cursor = some context ↔
      (¬∃ token ∈ lex text, token.Swallows (floorOffset cursor text.toList)) ∧
        context.cursor = floorOffset cursor text.toList ∧
        Typing text (floorOffset cursor text.toList) context.typed context.word := by
  rcases at?_cases text cursor with ⟨nothing, swallowed⟩ | ⟨typed, word, found, spared, typing⟩
  · simp [nothing, swallowed]
  · refine ⟨by simp [found, spared], fun context => ?_⟩
    rw [found, Option.some.injEq]
    constructor
    · rintro rfl
      exact ⟨spared, rfl, typing⟩
    · obtain ⟨offset, typed', word'⟩ := context
      rintro ⟨-, rfl, typing'⟩
      obtain ⟨rfl, rfl⟩ := typing.unique typing'
      rfl

end

end MuCompletion
