import MuCompletion.Json.Basic

/-!
# The tokens of a JSON document

Blanks between tokens are the space, the tab, the line feed and the carriage return. In a string,
characters below the space must be escaped, and a surrogate must stand in a pair. Every token takes
at least one character, so scanning ends.
-/

namespace MuCompletion.Json

/-- A token of a JSON document; `scalar` is a value without parts. -/
inductive Token where
  | openArray | closeArray | openObject | closeObject | comma | colon
  | scalar (value : Json)
  | string (value : String)

/-- Whether the character may stand between tokens. -/
def isBlank (c : Char) : Bool :=
  c == ' ' || c == '\t' || c == '\n' || c == '\r'

def hexDigit? (c : Char) : Option Nat :=
  if c.isDigit then some (c.toNat - '0'.toNat)
  else if 'a' ≤ c && c ≤ 'f' then some (c.toNat - 'a'.toNat + 10)
  else if 'A' ≤ c && c ≤ 'F' then some (c.toNat - 'A'.toNat + 10)
  else none

def hexUnit? (a b c d : Char) : Option Nat := do
  let a ← hexDigit? a
  let b ← hexDigit? b
  let c ← hexDigit? c
  let d ← hexDigit? d
  pure (((a * 16 + b) * 16 + c) * 16 + d)

/-- What a backslash and a letter stand for. -/
def escaped? (c : Char) : Option Char :=
  if c = '\x22' then some c
  else if c = '\\' then some c
  else if c = '/' then some c
  else if c = 'b' then some '\x08'
  else if c = 'f' then some '\x0c'
  else if c = 'n' then some '\n'
  else if c = 'r' then some '\r'
  else if c = 't' then some '\t'
  else none

/-- The 16-bit unit that an escape of four hexadecimal digits writes, and what follows it. -/
def scanUnit? : List Char → Option (Nat × List Char)
  | '\\' :: 'u' :: a :: b :: c :: d :: cs => (hexUnit? a b c d).map (·, cs)
  | _ => none

/-- Whether a unit is the first half of a surrogate pair. -/
def isHighSurrogate (unit : Nat) : Bool :=
  0xd800 ≤ unit && unit < 0xdc00

def isLowSurrogate (unit : Nat) : Bool :=
  0xdc00 ≤ unit && unit < 0xe000

/-- The character that a surrogate pair writes. -/
def ofSurrogates (high low : Nat) : Char :=
  Char.ofNat (0x10000 + (high - 0xd800) * 0x400 + (low - 0xdc00))

/-- The character at the start of a string's inside, and what follows it. -/
def scanChar? (cs : List Char) : Option (Char × List Char) :=
  match scanUnit? cs with
  | some (unit, rest) =>
    if isHighSurrogate unit then
      match scanUnit? rest with
      | some (low, rest) => if isLowSurrogate low then some (ofSurrogates unit low, rest) else none
      | none => none
    else if isLowSurrogate unit then none
    else some (Char.ofNat unit, rest)
  | none =>
    match cs with
    | '\\' :: c :: rest => (escaped? c).map (·, rest)
    | c :: rest => if c.toNat < 0x20 || c == '\\' then none else some (c, rest)
    | [] => none

theorem length_scanUnit? {cs rest : List Char} {unit : Nat} (h : scanUnit? cs = some (unit, rest)) :
    rest.length < cs.length := by
  unfold scanUnit? at h
  split at h
  · obtain ⟨_, _, pair⟩ := Option.map_eq_some_iff.1 h
    cases pair
    simp only [List.length_cons]
    omega
  · cases h

theorem length_scanChar? {cs rest : List Char} {c : Char} (h : scanChar? cs = some (c, rest)) :
    rest.length < cs.length := by
  unfold scanChar? at h
  split at h
  · next unit after found =>
    have first := length_scanUnit? found
    split at h
    · split at h
      · next low after' found' =>
        have second := length_scanUnit? found'
        split at h
        · rw [← (Prod.mk.inj (Option.some.inj h)).2]
          exact Nat.lt_trans second first
        · cases h
      · cases h
    · split at h
      · cases h
      · cases h; exact first
  · split at h
    · obtain ⟨_, _, pair⟩ := Option.map_eq_some_iff.1 h
      cases pair
      simp only [List.length_cons]
      omega
    · split at h
      · cases h
      · cases h; simp
    · cases h

/-- The inside of a string up to its closing quote, and what follows the quote. -/
def scanString? (cs : List Char) : Option (List Char × List Char) :=
  if cs.head? = some '\x22' then some ([], cs.drop 1)
  else
    match _found : scanChar? cs with
    | none => none
    | some (c, rest) => (scanString? rest).map fun (text, rest) => (c :: text, rest)
termination_by cs.length
decreasing_by exact length_scanChar? _found

theorem length_scanString? {cs text rest : List Char} (h : scanString? cs = some (text, rest)) :
    rest.length < cs.length := by
  rw [scanString?] at h
  split at h
  · next quoted =>
    cases h
    cases cs with
    | nil => cases quoted
    | cons c cs => simp
  · split at h
    · cases h
    · next c after found =>
      obtain ⟨⟨text', rest'⟩, inner, pair⟩ := Option.map_eq_some_iff.1 h
      have shorter := length_scanChar? found
      have := length_scanString? inner
      cases pair
      omega
termination_by cs.length
decreasing_by exact shorter

/-- Whether a minus sign stands in front, and what follows the sign, if there is any. -/
def scanSign : List Char → Bool × List Char
  | '-' :: cs => (true, cs)
  | '+' :: cs => (false, cs)
  | cs => (false, cs)

/-- An exponent, and what follows it. A letter without digits is an error. -/
def scanExponent? : List Char → Option (Option Int × List Char)
  | [] => some (none, [])
  | e :: cs =>
    if e == 'e' || e == 'E' then
      let digits := (scanSign cs).2.takeWhile Char.isDigit
      if digits.isEmpty then none
      else
        let n : Int := digitsValue digits
        some (some (if (scanSign cs).1 then -n else n), (scanSign cs).2.dropWhile Char.isDigit)
    else some (none, e :: cs)

/-- The digits after a point, and what follows them. A point without digits is an error. -/
def scanFraction? : List Char → Option (List Char × List Char)
  | '.' :: cs =>
    let digits := cs.takeWhile Char.isDigit
    if digits.isEmpty then none else some (digits, cs.dropWhile Char.isDigit)
  | cs => some ([], cs)

/-- The digits before a point: a zero, or digits that do not begin with one. -/
def scanWhole? : List Char → Option (List Char × List Char)
  | '0' :: cs => some (['0'], cs)
  | cs =>
    let digits := cs.takeWhile Char.isDigit
    if digits.isEmpty then none else some (digits, cs.dropWhile Char.isDigit)

/-- A number, and what follows it. -/
def scanNumber? (cs : List Char) : Option (Number × List Char) := do
  let negative := cs.head? == some '-'
  let (whole, cs) ← scanWhole? (if negative then cs.drop 1 else cs)
  let (fraction, cs) ← scanFraction? cs
  let (exponent, cs) ← scanExponent? cs
  pure (⟨negative, whole, fraction, exponent⟩, cs)

theorem length_dropWhile_le (test : Char → Bool) (cs : List Char) :
    (cs.dropWhile test).length ≤ cs.length :=
  (List.dropWhile_suffix test).length_le

theorem length_scanSign (cs : List Char) : (scanSign cs).2.length ≤ cs.length := by
  unfold scanSign
  split <;> simp

theorem length_scanExponent? {cs rest : List Char} {exponent : Option Int}
    (h : scanExponent? cs = some (exponent, rest)) : rest.length ≤ cs.length := by
  cases cs with
  | nil => cases h; exact Nat.le_refl _
  | cons e cs =>
    simp only [scanExponent?] at h
    split at h
    · split at h
      · cases h
      · have := length_dropWhile_le Char.isDigit (scanSign cs).2
        have := length_scanSign cs
        cases h
        simp only [List.length_cons]
        omega
    · cases h; exact Nat.le_refl _

theorem length_scanFraction? {cs digits rest : List Char}
    (h : scanFraction? cs = some (digits, rest)) : rest.length ≤ cs.length := by
  unfold scanFraction? at h
  split at h
  · simp only at h
    split at h
    · cases h
    · cases h
      have := length_dropWhile_le Char.isDigit ‹List Char›
      simp only [List.length_cons]
      omega
  · cases h; exact Nat.le_refl _

theorem length_scanWhole? {cs digits rest : List Char}
    (h : scanWhole? cs = some (digits, rest)) : rest.length < cs.length := by
  unfold scanWhole? at h
  split at h
  · cases h; simp
  · simp only at h
    split at h
    · cases h
    · next nonempty =>
      cases h
      have whole := congrArg List.length
        (List.takeWhile_append_dropWhile (p := Char.isDigit) (l := cs))
      rw [List.length_append] at whole
      cases found : cs.takeWhile Char.isDigit with
      | nil => simp [found] at nonempty
      | cons d ds =>
        rw [found, List.length_cons] at whole
        omega

theorem length_scanNumber? {cs rest : List Char} {number : Number}
    (h : scanNumber? cs = some (number, rest)) : rest.length < cs.length := by
  unfold scanNumber? at h
  simp only [Option.bind_eq_bind, Option.bind_eq_some_iff, Option.pure_def, Option.some.injEq,
    Prod.mk.injEq] at h
  obtain ⟨⟨whole, r₁⟩, h₁, ⟨fraction, r₂⟩, h₂, ⟨exponent, r₃⟩, h₃, _, rfl⟩ := h
  have l₁ := length_scanWhole? h₁
  have l₂ := length_scanFraction? h₂
  have l₃ := length_scanExponent? h₃
  have l₀ : (if cs.head? == some '-' then cs.drop 1 else cs).length ≤ cs.length := by
    split <;> simp
  exact Nat.lt_of_le_of_lt (Nat.le_trans l₃ l₂) (Nat.lt_of_lt_of_le l₁ l₀)

/-- The token at the start of a text, and what follows it. -/
def scanToken? : List Char → Option (Token × List Char)
  | '[' :: cs => some (.openArray, cs)
  | ']' :: cs => some (.closeArray, cs)
  | '{' :: cs => some (.openObject, cs)
  | '}' :: cs => some (.closeObject, cs)
  | ',' :: cs => some (.comma, cs)
  | ':' :: cs => some (.colon, cs)
  | '\x22' :: cs => (scanString? cs).map fun (text, rest) => (.string (String.ofList text), rest)
  | 'n' :: 'u' :: 'l' :: 'l' :: cs => some (.scalar .null, cs)
  | 't' :: 'r' :: 'u' :: 'e' :: cs => some (.scalar (.bool true), cs)
  | 'f' :: 'a' :: 'l' :: 's' :: 'e' :: cs => some (.scalar (.bool false), cs)
  | cs => (scanNumber? cs).map fun (digits, rest) => (.scalar (.number digits), rest)

theorem length_scanToken? {cs rest : List Char} {token : Token}
    (h : scanToken? cs = some (token, rest)) : rest.length < cs.length := by
  unfold scanToken? at h
  split at h
  case h_7 =>
    obtain ⟨⟨text, rest'⟩, found, pair⟩ := Option.map_eq_some_iff.1 h
    cases pair
    have := length_scanString? found
    simp only [List.length_cons]
    omega
  case h_11 =>
    obtain ⟨⟨number, rest'⟩, found, pair⟩ := Option.map_eq_some_iff.1 h
    cases pair
    exact length_scanNumber? found
  all_goals cases h; simp only [List.length_cons]; omega

/-- The tokens of a document; nothing if some text is not a token. -/
def tokens? : List Char → Option (List Token)
  | [] => some []
  | c :: cs =>
    if isBlank c then tokens? cs
    else
      match _found : scanToken? (c :: cs) with
      | none => none
      | some (token, rest) => (tokens? rest).map (token :: ·)
termination_by cs => cs.length
decreasing_by
  · simp
  · exact length_scanToken? _found

end MuCompletion.Json
