import MuCompletion.Proofs.Token.Stream

/-! # Tokens are scanned from what is near

Scanning may begin at any character boundary of a text. Which token it finds there does not depend on
what stands before, and of what follows the token only on the next two characters, or on the end of the
text where it has fewer. A token of a text that stands alone is therefore scanned as that token again.
-/

namespace MuCompletion

open Text

/-- The token that begins at a byte offset; there is none at the end of the text. -/
def tokenAt? (start : Nat) (text : String) : Option Token :=
  (lexAfter start text).head?

section

variable {start : Nat} {text : String} {token : Token}

theorem tokenAt?_of_isBoundary (boundary : isBoundary start text.toList = true) :
    tokenAt? start text = (lexFrom start (after start text.toList)).head? := by
  have same : floorOffset start text.toList = start := by simpa [isBoundary] using boundary
  rw [tokenAt?, lexAfter, same]

theorem exists_scan (boundary : isBoundary start text.toList = true)
    (scanned : tokenAt? start text = some token) :
    ∃ first cs, token = (Lexeme.scan first cs).toToken start ∧
      slice start token.span.stop text.toList = (Lexeme.scan first cs).chars ∧
      after token.span.stop text.toList = (Lexeme.scan first cs).rest := by
  rw [tokenAt?_of_isBoundary boundary] at scanned
  cases rest : after start text.toList with
  | nil => simp [rest, lexFrom_nil] at scanned
  | cons first cs =>
      have whole := Lexeme.chars_append_rest first cs
      rw [rest, lexFrom_cons, List.head?_cons, Option.some.injEq] at scanned
      have stop : token.span.stop = start + byteLength (Lexeme.scan first cs).chars := by
        rw [← scanned, Lexeme.toToken]
      refine ⟨first, cs, scanned.symm, ?_, ?_⟩
      · rw [stop, slice, Nat.add_sub_cancel_left, rest, ← whole, before_byteLength_append]
      · rw [stop, after_add boundary, rest, ← whole, after_byteLength_append]

theorem exists_scan_of_mem {cs : List Char} (member : token ∈ lexFrom start cs) :
    ∃ first rest place, token = (Lexeme.scan first rest).toToken place := by
  fun_induction lexFrom start cs with
  | case1 => cases member
  | case2 start first cs lexeme ih =>
      rcases List.mem_cons.mp member with rfl | later
      · exact ⟨first, cs, start, rfl⟩
      · exact ih later

end

/-- A token that is scanned somewhere in a text is scanned at the same place in every text that has the
same characters there, and behind them the same next two characters, or fewer of them and then its end.
A token of a text, alone, is scanned as one token of the same kind. -/
theorem tokenAt?_congr :
    (∀ (text other : String) (start : Nat) (token : Token),
      isBoundary start text.toList = true → tokenAt? start text = some token →
      isBoundary start other.toList = true →
      slice start token.span.stop other.toList = slice start token.span.stop text.toList →
      LooksLike (after token.span.stop other.toList) (after token.span.stop text.toList) →
        tokenAt? start other = some token) ∧
      ∀ (text : String), ∀ token ∈ lex text,
        lex token.text = [⟨token.kind, token.text, ⟨0, token.span.length⟩⟩] := by
  constructor
  · intro text other start token boundary scanned boundary' same alike
    obtain ⟨first, cs, rfl, taken, left⟩ := exists_scan boundary scanned
    rw [taken, slice, Lexeme.toToken, Nat.add_sub_cancel_left] at same
    rw [left, Lexeme.toToken, after_add boundary'] at alike
    have rest := before_append_after (byteLength (Lexeme.scan first cs).chars)
      (after start other.toList)
    rw [same] at rest
    rw [tokenAt?_of_isBoundary boundary', ← rest, lexFrom_scan start alike, List.head?_cons]
  · intro text token member
    obtain ⟨first, cs, place, rfl⟩ := exists_scan_of_mem member
    have alone : LooksLike [] (Lexeme.scan first cs).rest := List.nil_prefix
    have stream := lexFrom_scan 0 alone
    rw [List.append_nil, lexFrom_nil] at stream
    have chars : ((Lexeme.scan first cs).toToken place).text.toList = (Lexeme.scan first cs).chars :=
      String.toList_ofList
    rw [lex, chars, stream]
    simp [Lexeme.toToken, Span.length]

/-- A number in front of a point that no digit follows, behind other characters and before less text. -/
theorem tokenAt?_congr_number :
    tokenAt? 2 "a 1.xy" = some ⟨.number, "1", ⟨2, 3⟩⟩ ∧
      slice 2 3 "é1.x".toList = slice 2 3 "a 1.xy".toList ∧
      LooksLike (after 3 "é1.x".toList) (after 3 "a 1.xy".toList) ∧
      tokenAt? 2 "é1.x" = some ⟨.number, "1", ⟨2, 3⟩⟩ ∧
      (⟨.number, "1", ⟨2, 3⟩⟩ : Token) ∈ lex "a 1.xy" ∧ lex "1" = [⟨.number, "1", ⟨0, 1⟩⟩] := by
  have scanned : tokenAt? 2 "a 1.xy" = some ⟨.number, "1", ⟨2, 3⟩⟩ := by decide +kernel
  have same : slice 2 3 "é1.x".toList = slice 2 3 "a 1.xy".toList := by decide +kernel
  have alike : after 3 "é1.x".toList = ['.', 'x'] ∧ after 3 "a 1.xy".toList = ['.', 'x', 'y'] := by
    decide +kernel
  have looks : LooksLike (after 3 "é1.x".toList) (after 3 "a 1.xy".toList) := by
    rw [alike.1, alike.2]
    exact List.prefix_rfl
  have member : (⟨.number, "1", ⟨2, 3⟩⟩ : Token) ∈ lex "a 1.xy" := by decide +kernel
  refine ⟨scanned, same, looks, ?_, member, tokenAt?_congr.2 _ _ member⟩
  exact tokenAt?_congr.1 "a 1.xy" "é1.x" 2 _ (by decide +kernel) scanned (by decide +kernel) same looks

/-- Both characters count: behind a point only a digit goes on with the number. -/
example : tokenAt? 0 "1.x" = some ⟨.number, "1", ⟨0, 1⟩⟩ ∧
    tokenAt? 0 "1.5" = some ⟨.number, "1.5", ⟨0, 3⟩⟩ := by decide +kernel

end MuCompletion
