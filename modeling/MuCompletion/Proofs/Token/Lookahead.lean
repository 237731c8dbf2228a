import MuCompletion.Token.Scan

/-! # Bounded lookahead

The scanner decides where a token ends from the token itself and at most two characters after it. A
token is therefore scanned alike in every text in which it is followed by the same two characters, or
by fewer of them at the end of the text.
-/

namespace MuCompletion

/-- `other` may stand for `rest` after a token: it has the same next two characters, or it ends
before it has two and agrees as far as it goes. -/
def LooksLike (other rest : List Char) : Prop :=
  other.take 2 <+: rest.take 2

namespace LooksLike

theorem refl (rest : List Char) : LooksLike rest rest :=
  List.prefix_refl _

theorem of_long {front : List Char} (long : 2 ≤ front.length) (back back' : List Char) :
    LooksLike (front ++ back') (front ++ back) := by
  simp only [LooksLike, List.take_append_of_le_length long, List.prefix_rfl]

theorem elim {other rest : List Char} (alike : LooksLike other rest) :
    other = [] ∨ (∃ c cs, other = [c] ∧ rest = c :: cs) ∨
      ∃ c d cs cs', other = c :: d :: cs' ∧ rest = c :: d :: cs := by
  match other, rest with
  | [], _ => exact .inl rfl
  | c :: cs', [] => simp [LooksLike] at alike
  | [c], e :: cs =>
      obtain rfl : c = e := by
        have := alike
        cases cs <;> simp_all [LooksLike]
      exact .inr (.inl ⟨c, cs, rfl, rfl⟩)
  | c :: d :: cs', [e] => simp [LooksLike] at alike
  | c :: d :: cs', e :: f :: cs =>
      obtain ⟨rfl, rfl⟩ : c = e ∧ d = f := by simpa [LooksLike] using alike
      exact .inr (.inr ⟨c, d, cs, cs', rfl, rfl⟩)

theorem eq_nil {other : List Char} (alike : LooksLike other []) : other = [] := by
  simpa [LooksLike] using alike

theorem head?_eq {other rest : List Char} (alike : LooksLike other rest) :
    other = [] ∨ other.head? = rest.head? := by
  rcases alike.elim with rfl | ⟨c, cs, rfl, rfl⟩ | ⟨c, d, cs, cs', rfl, rfl⟩
  · exact .inl rfl
  · exact .inr rfl
  · exact .inr rfl

theorem append {other rest : List Char} (alike : LooksLike other rest) (front : List Char) :
    LooksLike (front ++ other) (front ++ rest) := by
  match front with
  | [] => exact alike
  | [c] =>
      rcases alike.elim with rfl | ⟨d, cs, rfl, rfl⟩ | ⟨d, e, cs, cs', rfl, rfl⟩
      · cases rest <;> simp [LooksLike]
      · simp [LooksLike]
      · simp [LooksLike]
  | c :: d :: front => simp [LooksLike]

end LooksLike

namespace Cut

/-- A way to cut looks at most two characters past what it takes. -/
def Bounded (cut : List Char → Cut) : Prop :=
  ∀ cs other, LooksLike other (cut cs).2 → cut ((cut cs).1 ++ other) = ((cut cs).1, other)

theorem Lossless.head?_eq {cut : List Char → Cut} (lossless : Lossless cut) {cs other : List Char}
    (alike : LooksLike other (cut cs).2) :
    (cut cs).1 ++ other = [] ∨ ((cut cs).1 ++ other).head? = cs.head? := by
  have whole := alike.append (cut cs).1
  rw [lossless] at whole
  exact whole.head?_eq

theorem bounded_whileTrue (test : Char → Bool) : Bounded (whileTrue test) := by
  intro cs other alike
  induction cs with
  | nil => simp [whileTrue, LooksLike.eq_nil alike]
  | cons c cs ih =>
      by_cases goes : test c
      · simp only [whileTrue, List.takeWhile_cons_of_pos goes, List.dropWhile_cons_of_pos goes] at alike ⊢
        simpa [whileTrue, goes] using ih alike
      · simp only [whileTrue, List.takeWhile_cons_of_neg goes, List.dropWhile_cons_of_neg goes,
          List.nil_append] at alike ⊢
        cases other with
        | nil => rfl
        | cons d other =>
            obtain rfl : d = c := by simpa using alike.head?_eq
            simp [goes]

theorem Bounded.andThen {first second : List Char → Cut} (lossless : Lossless second)
    (hfirst : Bounded first) (hsecond : Bounded second) : Bounded (andThen first second) := by
  intro cs other alike
  simp only [Cut.andThen] at alike ⊢
  have inner := hsecond (first cs).2 other alike
  have outer := hfirst cs ((second (first cs).2).1 ++ other) (by
    have kept := alike.append (second (first cs).2).1
    rwa [lossless] at kept)
  rw [List.append_assoc, outer]
  simp only [inner]

/-- A cut that two characters decide: it takes both and a run after them, or nothing. -/
theorem bounded_of_guard {cut : List Char → Cut} (guard : Char → Char → Bool) (test : Char → Bool)
    (takes : ∀ c d cs, guard c d = true →
      cut (c :: d :: cs) = (c :: d :: (whileTrue test cs).1, (whileTrue test cs).2))
    (passes : ∀ c d cs, guard c d = false → cut (c :: d :: cs) = ([], c :: d :: cs))
    (short : ∀ cs, cs.length < 2 → cut cs = ([], cs)) : Bounded cut := by
  intro cs other alike
  match cs with
  | [] =>
      rw [short [] (by simp)] at alike ⊢
      rw [LooksLike.eq_nil alike]
      exact short [] (by simp)
  | [c] =>
      rw [short [c] (by simp)] at alike ⊢
      rcases alike.elim with rfl | ⟨d, ds, rfl, same⟩ | ⟨d, e, ds, ds', rfl, same⟩
      · exact short [] (by simp)
      · exact short [d] (by simp)
      · simp at same
  | c :: d :: cs =>
      cases taken : guard c d with
      | true =>
          rw [takes c d cs taken] at alike ⊢
          have run := bounded_whileTrue test cs other alike
          simp only [List.cons_append]
          rw [takes c d _ taken, run]
      | false =>
          rw [passes c d cs taken] at alike ⊢
          rcases alike.elim with rfl | ⟨e, es, rfl, same⟩ | ⟨e, f, es, es', rfl, same⟩
          · exact short [] (by simp)
          · exact short [e] (by simp)
          · obtain ⟨rfl, rfl, rfl⟩ : c = e ∧ d = f ∧ cs = es := by simpa using same
            exact passes c d es' taken

theorem bounded_fraction : Bounded fraction := by
  apply bounded_of_guard (fun c d => c == '.' && d.isDigit) isDigitPart
  · intro c d cs guard
    obtain ⟨rfl, digit⟩ : c = '.' ∧ d.isDigit = true := by simpa using guard
    simp [fraction, whileTrue, digit, isDigitPart]
  · intro c d cs guard
    unfold fraction
    split
    · simp_all
    · rfl
  · intro cs short
    unfold fraction
    split
    · simp only [List.length_cons] at short
      omega
    · rfl

theorem bounded_exponent : Bounded exponent := by
  apply bounded_of_guard
    (fun e d => (e == 'e' || e == 'E') && (d.isDigit || d == '+' || d == '-')) Char.isDigit
  · intro e d cs guard
    simp only [exponent]
    rw [if_pos guard]
  · intro e d cs guard
    simp only [exponent]
    rw [if_neg (by simpa using guard)]
  · intro cs short
    match cs with
    | [] | [_] => rfl

/-- How the rest of a number without a hexadecimal mark is cut. -/
def decimal : List Char → Cut :=
  andThen (whileTrue isDigitPart) (andThen fraction (andThen exponent (whileTrue isWordPart)))

theorem lossless_decimal : Lossless decimal :=
  (lossless_whileTrue isDigitPart).andThen (lossless_fraction.andThen
    (lossless_exponent.andThen (lossless_whileTrue isWordPart)))

theorem bounded_decimal : Bounded decimal := by
  have suffix := lossless_whileTrue isWordPart
  have tail := Bounded.andThen suffix bounded_exponent (bounded_whileTrue isWordPart)
  have point := Bounded.andThen (lossless_exponent.andThen suffix) bounded_fraction tail
  exact Bounded.andThen (lossless_fraction.andThen (lossless_exponent.andThen suffix))
    (bounded_whileTrue isDigitPart) point

theorem numeral_eq_decimal {first : Char} {cs : List Char}
    (plain : ∀ x, cs.head? = some x → (first == '0' && (x == 'x' || x == 'X')) = false) :
    numeral first cs = decimal cs := by
  cases cs with
  | nil => rfl
  | cons x cs =>
      have notHex := plain x rfl
      simp only [numeral, notHex, Bool.false_eq_true, if_false]
      rfl

theorem bounded_numeral (first : Char) : Bounded (numeral first) := by
  have hexadecimal := Bounded.andThen (lossless_whileTrue isWordPart)
    (bounded_whileTrue isHexPart) (bounded_whileTrue isWordPart)
  intro cs other alike
  cases cs with
  | nil => simp [numeral, LooksLike.eq_nil alike]
  | cons x cs =>
      by_cases hex : (first == '0' && (x == 'x' || x == 'X')) = true
      · simp only [numeral, if_pos hex] at alike ⊢
        simp only [List.cons_append, if_pos hex]
        rw [hexadecimal cs other alike]
      · have plain : numeral first (x :: cs) = decimal (x :: cs) :=
          numeral_eq_decimal (by simpa using hex)
        rw [plain] at alike ⊢
        rw [numeral_eq_decimal, bounded_decimal (x :: cs) other alike]
        intro y starts
        rcases lossless_decimal.head?_eq alike with empty | same
        · simp [empty] at starts
        · obtain rfl : x = y := by simpa [starts] using same.symm
          simpa using hex

theorem bounded_compound (first : Char) : Bounded (compound first) := by
  intro cs other alike
  cases cs with
  | nil => simp [compound, LooksLike.eq_nil alike]
  | cons second cs =>
      by_cases joins : (first, second) ∈ compoundMarks
      · simp only [compound, if_pos joins, List.cons_append, List.nil_append]
      · simp only [compound, if_neg joins, List.nil_append] at alike ⊢
        cases other with
        | nil => rfl
        | cons d other =>
            obtain rfl : d = second := by simpa using alike.head?_eq
            simp [joins]

theorem bounded_throughCommentEnd : Bounded throughCommentEnd := by
  intro cs other
  fun_induction throughCommentEnd cs with
  | case1 => intro alike; rw [LooksLike.eq_nil alike]; rfl
  | case2 cs => intro alike; simp [throughCommentEnd]
  | case3 c cs notEnd taken rest found ih =>
      intro alike
      have same := @Cut.Lossless.head?_eq _ lossless_throughCommentEnd cs other
      rw [found] at ih same
      simp only [List.cons_append]
      rw [throughCommentEnd, ih alike]
      intro ds star ends
      rcases same alike with empty | same
      · simp [empty] at ends
      · obtain ⟨es, rfl⟩ : ∃ es, cs = '/' :: es := by
          rw [ends] at same
          exact List.head?_eq_some_iff.mp same.symm
        exact notEnd es star rfl

theorem bounded_blockComment : Bounded blockComment := by
  intro cs other alike
  cases cs with
  | nil => simp [blockComment, LooksLike.eq_nil alike]
  | cons star cs =>
      simp only [blockComment] at alike ⊢
      simp only [List.cons_append]
      rw [bounded_throughCommentEnd cs other alike]

theorem throughQuote_cons {quote c : Char} (plain : c ≠ '\\') (cs : List Char) :
    throughQuote quote (c :: cs) =
      if c = '\n' then ([], c :: cs)
      else if c = quote then ([c], cs)
      else (c :: (throughQuote quote cs).1, (throughQuote quote cs).2) := by
  rw [throughQuote]
  · exact fun escaped => absurd escaped plain
  · exact fun _ escaped => absurd escaped plain
  · exact fun _ _ escaped => absurd escaped plain

theorem ne_backslash {c : Char} {cs : List Char} (last : c = '\\' → cs = [] → False)
    (more : ∀ d ds, c = '\\' → cs = d :: ds → False) : c ≠ '\\' := by
  intro escaped
  cases cs with
  | nil => exact last escaped rfl
  | cons d ds => exact more d ds escaped rfl

theorem bounded_throughQuote (quote : Char) : Bounded (throughQuote quote) := by
  intro cs other
  fun_induction throughQuote quote cs with
  | case1 => intro alike; rw [LooksLike.eq_nil alike]; rfl
  | case2 => intro alike; rw [LooksLike.eq_nil alike]; rfl
  | case3 cs =>
      intro alike
      cases other with
      | nil => rfl
      | cons d other =>
          obtain rfl : d = '\n' := by simpa using alike.head?_eq
          rfl
  | case4 c cs notNewline taken rest found ih =>
      intro alike
      rw [found] at ih
      simp only [List.cons_append]
      rw [throughQuote, ih alike]
      exact notNewline
  | case5 cs =>
      intro alike
      cases other with
      | nil => rfl
      | cons d other =>
          obtain rfl : d = '\n' := by simpa using alike.head?_eq
          simp [throughQuote_cons]
  | case6 cs last newline more notNewline =>
      intro alike
      simp [throughQuote_cons (ne_backslash last more), notNewline]
  | case7 c cs last newline more notNewline notQuote taken rest found ih =>
      intro alike
      rw [found] at ih
      simp [throughQuote_cons (ne_backslash last more), notNewline, notQuote, ih alike]

end Cut

namespace TokenForm

theorem bounded_cut (form : TokenForm) (first : Char) : Cut.Bounded (form.cut first) := by
  cases form with
  | blank => exact Cut.bounded_whileTrue _
  | lineComment => exact Cut.bounded_whileTrue _
  | blockComment => exact Cut.bounded_blockComment
  | literal => exact Cut.bounded_throughQuote first
  | numeral => exact Cut.bounded_numeral first
  | word => exact Cut.bounded_whileTrue _
  | mark => exact Cut.bounded_compound first

theorem ofStart_of_head? {first : Char} {rest other : List Char} (same : other.head? = rest.head?) :
    ofStart first other = ofStart first rest := by
  simp only [ofStart, same]

theorem ofStart_nil {first : Char} {rest : List Char}
    (nothing : ((ofStart first rest).cut first rest).1 = []) :
    ofStart first [] = ofStart first rest := by
  by_cases line : (first == '/' && rest.head? == some '/') = true
  · obtain ⟨rfl, cs, rfl⟩ : first = '/' ∧ ∃ cs, rest = '/' :: cs := by
      simpa [List.head?_eq_some_iff] using line
    simp [ofStart, cut, Cut.whileTrue, Text.isBlank] at nothing
  · by_cases block : (first == '/' && rest.head? == some '*') = true
    · obtain ⟨rfl, cs, rfl⟩ : first = '/' ∧ ∃ cs, rest = '*' :: cs := by
        simpa [List.head?_eq_some_iff] using block
      simp [ofStart, cut, Cut.blockComment, Text.isBlank] at nothing
    · simp [ofStart, line, block]

theorem ofStart_congr {first : Char} {rest other : List Char}
    (alike : LooksLike other ((ofStart first rest).cut first rest).2) :
    ofStart first (((ofStart first rest).cut first rest).1 ++ other) = ofStart first rest := by
  rcases (lossless_cut (ofStart first rest) first).head?_eq alike with empty | same
  · rw [empty]
    exact ofStart_nil (List.append_eq_nil_iff.mp empty).1
  · exact ofStart_of_head? same

end TokenForm

namespace Lexeme

theorem scan_def (first : Char) (cs : List Char) :
    scan first cs =
      ⟨(TokenForm.ofStart first cs).kind
          (String.ofList (first :: ((TokenForm.ofStart first cs).cut first cs).1)),
        first :: ((TokenForm.ofStart first cs).cut first cs).1,
        ((TokenForm.ofStart first cs).cut first cs).2⟩ := by
  rfl

theorem chars_ne_nil (first : Char) (cs : List Char) : (scan first cs).chars ≠ [] := by
  rw [scan_def]
  exact List.cons_ne_nil _ _

theorem scan_eq {first : Char} {cs taken rest : List Char} {form : TokenForm}
    (starts : TokenForm.ofStart first cs = form) (ends : form.cut first cs = (taken, rest)) :
    scan first cs = ⟨form.kind (String.ofList (first :: taken)), first :: taken, rest⟩ := by
  rw [scan_def, starts, ends]

/-- A token is scanned alike wherever it is followed by something that looks like what followed it
here. -/
theorem scan_congr {first : Char} {cs : List Char} {other : List Char}
    (alike : LooksLike other (scan first cs).rest) :
    scan first ((scan first cs).chars.tail ++ other) = { scan first cs with rest := other } := by
  cases ends : (TokenForm.ofStart first cs).cut first cs with
  | mk taken rest =>
      have scanned := scan_eq rfl ends
      rw [scanned] at alike ⊢
      have same : LooksLike other ((TokenForm.ofStart first cs).cut first cs).2 := by
        rw [ends]
        exact alike
      have starts := TokenForm.ofStart_congr same
      have cut := TokenForm.bounded_cut (TokenForm.ofStart first cs) first cs other same
      rw [ends] at starts cut
      exact scan_eq starts cut

end Lexeme

end MuCompletion
