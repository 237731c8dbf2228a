import MuCompletion.Proofs.Token.Stream
import MuCompletion.Scope.Builder

/-! # Reading one token

A builder without reusable scopes reads every token. A brace opens or closes a scope whatever waits,
and no other token touches the scopes around the innermost one. Reading does not depend on the scopes
around those it closes, and it moves with the tokens, since offsets inside a scope count from its
start.
-/

namespace MuCompletion

namespace ScopeBuilder

/-- Read a token, blank or not. -/
def read (builder : ScopeBuilder) (token : Token) : ScopeBuilder :=
  if token.kind = .whitespace then builder.readBlank token
  else if token.kind = .comment then builder.readComment token
  else builder.step token

theorem run_nil_eq_foldl (builder : ScopeBuilder) (tokens : List Token) :
    builder.run [] tokens = tokens.foldl read builder := by
  induction tokens generalizing builder with
  | nil => rw [run, List.foldl_nil]
  | cons token rest ih =>
      rw [run, List.foldl_cons, read]
      split
      · exact ih _
      · split
        · exact ih _
        · simpa using ih _

/-- What holds at first, and holds on with every token read, holds when all tokens have been read. -/
theorem foldl_read_of_step {holds : List Token → Nat → ScopeBuilder → Prop} {tokens : List Token}
    {stop : Nat} (tiles : Tiles 0 tokens stop) (first : holds [] 0 initial)
    (step : ∀ before token after start builder, before ++ token :: after = tokens →
      token.span.start = start → start < token.span.stop → holds before start builder →
      holds (before ++ [token]) token.span.stop (builder.read token)) :
    holds tokens stop (tokens.foldl read initial) := by
  have later : ∀ more before start builder, before ++ more = tokens → Tiles start more stop →
      holds before start builder → holds tokens stop (more.foldl read builder) := by
    intro more
    induction more with
    | nil =>
        intro before start builder split ends kept
        obtain rfl : before = tokens := by simpa using split
        obtain rfl : start = stop := ends
        exact kept
    | cons token more ih =>
        intro before start builder split goesOn kept
        obtain ⟨here, filled, rest⟩ := goesOn
        have next := step before token more start builder split here filled kept
        exact ih _ _ _ (by rw [List.append_assoc]; exact split) rest next
  exact later tokens [] 0 initial rfl tiles first

theorem step_of_mark {token : Token} {mark : String} (marked : token.mark? = some mark) :
    token.kind = .punctuation ∧ token.text = mark := by
  simpa [Token.mark?] using marked

theorem read_of_mark {token : Token} {mark : String} (marked : token.mark? = some mark)
    (builder : ScopeBuilder) : builder.read token = builder.step token := by
  simp [read, (step_of_mark marked).1]

/-- The scope that an opening brace opens. -/
def opened (builder : ScopeBuilder) (token : Token) : Frame :=
  match builder.pending with
  | .declaration declaration => declaration.endSegment.frame
  | _ => .opening .block token.span.start

theorem children_opened (builder : ScopeBuilder) (token : Token) :
    (builder.opened token).children = [] := by
  cases waits : builder.pending <;> simp [opened, waits, Frame.opening, PendingDeclaration.frame]

theorem read_opening {token : Token} (marked : token.mark? = some "\x7b")
    (builder : ScopeBuilder) :
    builder.read token =
      ⟨builder.opened token, builder.frame :: builder.outer, .nothing, [], builder.reattached⟩ := by
  obtain ⟨mark, text⟩ := step_of_mark marked
  rw [read_of_mark marked]
  cases waiting : builder.pending with
  | nothing => simp [step, neutral, openFrame, opened, waiting, mark, text]
  | binding binding => simp [step, readBinding, neutral, openFrame, opened, waiting, mark, text]
  | declaration declaration =>
      simp [step, readDeclaration, openFrame, opened, waiting, marked]

theorem read_closing {token : Token} (marked : token.mark? = some "\x7d")
    (builder : ScopeBuilder) :
    builder.read token =
      { builder.close token.span.stop with pending := .nothing, comments := [] } := by
  obtain ⟨mark, text⟩ := step_of_mark marked
  rw [read_of_mark marked]
  cases waiting : builder.pending with
  | nothing => cases around : builder.outer <;> simp [step, neutral, close, waiting, mark, text, around]
  | binding binding =>
      cases around : builder.outer <;>
        simp [step, readBinding, neutral, close, waiting, mark, text, around]
  | declaration declaration =>
      cases around : builder.outer <;> simp [step, readDeclaration, close, waiting, marked, around]

/-! ## The scopes around -/

/-- The builder with further open scopes around its own, and with `placed` as what was put in place. -/
def onto (builder : ScopeBuilder) (base : List Frame) (placed : List (Nat × ScopeTree)) :
    ScopeBuilder :=
  { builder with outer := builder.outer ++ base, reattached := placed }

section Onto

variable (builder : ScopeBuilder) (base : List Frame) (placed : List (Nat × ScopeTree))

theorem close_onto (stop : Nat) (inside : builder.outer = [] → base = []) :
    (builder.onto base placed).close stop = (builder.close stop).onto base placed := by
  cases around : builder.outer with
  | nil => simp [close, onto, around, inside around]
  | cons frame outer => simp [close, onto, around]

variable {builder base} {token : Token}
  (inside : token.mark? = some "\x7d" → builder.outer = [] → base = [])

include inside

theorem neutral_onto :
    (builder.onto base placed).neutral token = (builder.neutral token).onto base placed := by
  cases kind : token.kind with
  | keyword word =>
      simp only [neutral, kind]
      split
      · rfl
      · split <;> rfl
  | punctuation =>
      have closing : token.text = "\x7d" → builder.outer = [] → base = [] := by
        simpa [Token.mark?, kind] using inside
      simp only [neutral, kind]
      split
      · rfl
      · split
        · next text => exact close_onto builder base placed _ (closing text)
        · rfl
  | builtin =>
      simp only [neutral, kind]
      rfl
  | identifier | number | string | comment | whitespace => simp only [neutral, kind]

theorem readBinding_onto (binding : PendingBinding) :
    (builder.onto base placed).readBinding binding token =
      (builder.readBinding binding token).onto base placed := by
  cases kind : token.kind with
  | identifier | builtin =>
      simp only [readBinding, kind]
      rfl
  | number | punctuation =>
      simp only [readBinding, kind]
      split
      · rfl
      · exact neutral_onto placed inside
  | keyword | string | comment | whitespace =>
      simp only [readBinding, kind]
      exact neutral_onto placed inside

theorem readName_onto (declaration : PendingDeclaration) (colonSeen : Bool) :
    (builder.onto base placed).readName declaration colonSeen token =
      (builder.readName declaration colonSeen token).onto base placed := by
  cases kind : token.kind with
  | identifier =>
      simp only [readName, kind]
      rfl
  | punctuation =>
      simp only [readName, kind]
      split
      · rfl
      · split
        · rfl
        · split <;> rfl
  | keyword | builtin | number | string | comment | whitespace =>
      simp only [readName, kind]
      exact neutral_onto placed inside

theorem readHeader_onto (declaration : PendingDeclaration) :
    (builder.onto base placed).readHeader declaration token =
      (builder.readHeader declaration token).onto base placed := by
  cases kind : token.kind with
  | keyword =>
      simp only [readHeader, kind]
      split
      · exact neutral_onto placed inside
      · rfl
  | punctuation =>
      simp only [readHeader, kind]
      split
      · rfl
      · split <;> rfl
  | identifier | builtin | number | string | comment | whitespace =>
      simp only [readHeader, kind]
      rfl

theorem readDeclaration_onto (declaration : PendingDeclaration) :
    (builder.onto base placed).readDeclaration declaration token =
      (builder.readDeclaration declaration token).onto base placed := by
  simp only [readDeclaration]
  split
  · next closing => exact close_onto builder base placed _ (inside closing)
  · split
    · rfl
    · cases declaration.stage with
      | name colonSeen => exact readName_onto placed inside declaration colonSeen
      | header => exact readHeader_onto placed inside declaration
      | parameters list => rfl

/-- Reading does not depend on the scopes around those it closes. -/
theorem read_onto :
    (builder.onto base placed).read token = (builder.read token).onto base placed := by
  obtain ⟨frame, outer, pending, comments, reattached⟩ := builder
  simp only [read, readBlank]
  split
  · split <;> rfl
  · split
    · rfl
    · cases pending with
      | nothing =>
          have neutral := @neutral_onto ⟨frame, outer, .nothing, comments, reattached⟩ base placed
            token inside
          simp only [step, onto] at neutral ⊢
          rw [neutral]
      | binding binding =>
          have reading := @readBinding_onto ⟨frame, outer, .nothing, comments, reattached⟩ base
            placed token inside binding
          simp only [step, onto] at reading ⊢
          rw [reading]
      | declaration declaration =>
          have reading := @readDeclaration_onto
            ⟨frame, outer, .nothing, comments, reattached⟩ base placed token inside declaration
          simp only [step, onto] at reading ⊢
          rw [reading]

end Onto

end ScopeBuilder

end MuCompletion
