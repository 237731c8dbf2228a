import MuCompletion.Proofs.Scope.Header

/-! # What waits

A token belongs to the declaration or binding that waits, or it ends that and is read as if nothing had
waited; a declaring keyword or a type then opens another. What waits next follows from what waits, from
the token and from the comments before it, whatever scopes are open.
-/

namespace MuCompletion

open ScopeBuilder

/-- The binding after one more token, if that belongs to it. -/
def PendingBinding.next? (binding : PendingBinding) (token : Token) : Option PendingBinding :=
  match token.kind with
  | .whitespace | .comment => some binding
  | .builtin _ => some { binding with typed := true }
  | .number => if binding.typed then some binding else none
  | .punctuation =>
    if binding.typed && (token.text == "[" || token.text == "]") then some binding else none
  | _ => none

namespace Pending

/-- What waits after a token that belongs to what waited before; nothing if the token ends it. -/
def next? (pending : Pending) (token : Token) : Option Pending :=
  match pending with
  | .nothing => none
  | .binding waiting => (waiting.next? token).map .binding
  | .declaration waiting =>
    if token.mark? = some "\x7b" ∨ token.mark? = some "\x7d" then none
    else (waiting.next? token).map .declaration

/-- What waits after a token that is read while nothing waits. -/
def begun (token : Token) (documentation : Option String) : Pending :=
  match token.kind with
  | .keyword word =>
    match word.declares with
    | none => .nothing
    | some kind =>
      match kind.owns with
      | some (scopeKind, symbolKind) =>
        .declaration ⟨token.span.start, scopeKind, symbolKind, documentation, none, [], .name false⟩
      | none =>
        .binding ⟨if kind = .«import» then .«namespace» else .«variable», documentation, false⟩
  | .builtin _ => .binding ⟨.«variable», documentation, true⟩
  | _ => .nothing

/-- What documents the name that is waited for. -/
def documentation : Pending → Option String
  | .nothing => none
  | .binding waiting => waiting.documentation
  | .declaration waiting => waiting.documentation

/-- Whether the parameters of a declaration are being read. -/
def readsParameters : Pending → Bool
  | .declaration waiting =>
    match waiting.stage with
    | .parameters _ => true
    | _ => false
  | _ => false

theorem documentation_next? {pending next : Pending} {token : Token}
    (goesOn : pending.next? token = some next) : next.documentation = pending.documentation := by
  cases pending with
  | nothing => cases goesOn
  | binding waiting =>
      obtain ⟨later, belongs, rfl⟩ := Option.map_eq_some_iff.mp goesOn
      cases kind : token.kind <;> simp only [PendingBinding.next?, kind, reduceCtorEq] at belongs <;>
        grind [documentation]
  | declaration waiting =>
      simp only [next?] at goesOn
      split at goesOn
      · cases goesOn
      · obtain ⟨later, belongs, rfl⟩ := Option.map_eq_some_iff.mp goesOn
        exact (PendingDeclaration.same_next? belongs).2.2.1

end Pending

/-- Whether a token opens a declaration or a binding where nothing waits. -/
def Token.opens (token : Token) : Bool :=
  match token.kind with
  | .keyword word => word.declares.isSome
  | .builtin _ => true
  | _ => false

theorem Pending.begun_of_opens {token : Token} (opens : token.opens = true)
    (documentation : Option String) :
    begun token documentation ≠ .nothing ∧
      (begun token documentation).documentation = documentation := by
  cases kind : token.kind with
  | keyword word =>
      simp only [Token.opens, kind] at opens
      obtain ⟨declared, declares⟩ := Option.isSome_iff_exists.mp opens
      simp only [begun, kind, declares]
      split <;> simp [Pending.documentation]
  | builtin => simp [begun, kind, Pending.documentation]
  | identifier | number | string | comment | punctuation | whitespace => simp [Token.opens, kind] at opens

theorem Pending.begun_of_not_opens {token : Token} (opens : token.opens = false)
    (documentation : Option String) : begun token documentation = .nothing := by
  cases kind : token.kind with
  | keyword word =>
      simp only [Token.opens, kind, Option.isSome_eq_false_iff, Option.isNone_iff_eq_none] at opens
      simp [begun, kind, opens]
  | builtin => simp [Token.opens, kind] at opens
  | identifier | number | string | comment | punctuation | whitespace => simp [begun, kind]

namespace ScopeBuilder

variable {builder : ScopeBuilder} {token : Token}

theorem pending_neutral (idle : builder.pending = .nothing) :
    (builder.neutral token).pending = .begun token (documentation? builder.comments) := by
  cases kind : token.kind with
  | keyword word =>
      cases declares : word.declares with
      | none => simpa only [neutral, Pending.begun, kind, declares] using idle
      | some declared =>
          cases owns : declared.owns <;>
            simp [neutral, Pending.begun, kind, declares, owns, awaitDeclaration, awaitBinding]
  | builtin => simp only [neutral, Pending.begun, kind, awaitBinding]
  | punctuation =>
      simp only [neutral, Pending.begun, kind]
      split
      · exact idle
      · split
        · unfold close
          split <;> exact idle
        · exact idle
  | identifier | number | string | comment | whitespace =>
      simpa only [neutral, Pending.begun, kind] using idle

theorem pending_readBinding (idle : builder.pending = .nothing) (binding : PendingBinding)
    (blank : ¬(token.kind = .whitespace ∨ token.kind = .comment)) :
    (builder.readBinding binding token).pending =
      ((Pending.binding binding).next? token).getD
        (.begun token (documentation? builder.comments)) := by
  have other := @pending_neutral builder token idle
  cases kind : token.kind with
  | identifier =>
      simp only [readBinding, Pending.next?, PendingBinding.next?, Pending.begun, kind, declare]
      exact idle
  | builtin => simp [readBinding, Pending.next?, PendingBinding.next?, kind, awaitBinding]
  | number | punctuation =>
      simp only [readBinding, Pending.next?, PendingBinding.next?, kind]
      split
      · rfl
      · exact other
  | keyword | string =>
      simpa only [readBinding, Pending.next?, PendingBinding.next?, kind, Option.map_none,
        Option.getD_none] using other
  | comment | whitespace => simp [kind] at blank

theorem pending_readDeclaration (idle : builder.pending = .nothing) (declaration : PendingDeclaration)
    (blank : ¬(token.kind = .whitespace ∨ token.kind = .comment)) :
    (builder.readDeclaration declaration token).pending =
      ((Pending.declaration declaration).next? token).getD
        (.begun token (documentation? builder.comments)) := by
  have other := @pending_neutral builder token idle
  by_cases closing : token.mark? = some "\x7d"
  · have none : Pending.begun token (documentation? builder.comments) = .nothing :=
      Pending.begun_of_not_opens (by simp [Token.opens, (step_of_mark closing).1]) _
    simp only [readDeclaration, Pending.next?, closing, or_true, if_true, Option.getD_none, none]
    unfold close
    split <;> exact idle
  · by_cases opening : token.mark? = some "\x7b"
    · have none : Pending.begun token (documentation? builder.comments) = .nothing :=
        Pending.begun_of_not_opens (by simp [Token.opens, (step_of_mark opening).1]) _
      simp only [readDeclaration, Pending.next?, opening, true_or, if_true, Option.getD_none, none]
      simp [openFrame, idle]
    · simp only [readDeclaration, Pending.next?, opening, closing, or_self, if_false,
        PendingDeclaration.next?, blank]
      cases stage : declaration.stage with
      | name colonSeen =>
          cases kind : token.kind with
          | punctuation =>
              have none : Pending.begun token (documentation? builder.comments) = .nothing :=
                Pending.begun_of_not_opens (by simp [Token.opens, kind]) _
              simp only [readName, kind, none]
              grind [awaitDeclaration]
          | identifier => simp [readName, kind, awaitDeclaration]
          | keyword | builtin | number | string | comment | whitespace =>
              simpa only [readName, kind, Option.map_none, Option.getD_none] using other
      | header =>
          cases kind : token.kind with
          | punctuation =>
              have none : Pending.begun token (documentation? builder.comments) = .nothing :=
                Pending.begun_of_not_opens (by simp [Token.opens, kind]) _
              simp only [readHeader, kind, none]
              grind [awaitDeclaration]
          | keyword =>
              simp only [readHeader, kind]
              split
              · exact other
              · rfl
          | builtin | identifier | number | string | comment | whitespace =>
              simp [readHeader, kind, awaitDeclaration]
      | parameters list => simp [awaitDeclaration]

/-- What waits after a token follows from what waited, the token and the comments before it. -/
theorem pending_read :
    (builder.read token).pending =
      (builder.pending.next? token).getD (.begun token (documentation? builder.comments)) := by
  obtain ⟨frame, outer, pending, comments, reattached⟩ := builder
  by_cases blank : token.kind = .whitespace ∨ token.kind = .comment
  · have same : (read ⟨frame, outer, pending, comments, reattached⟩ token).pending = pending := by
      rcases blank with blank | comment
      · simp only [read, blank, if_true, readBlank]
        split <;> rfl
      · simp [read, comment, readComment]
    rw [same]
    cases pending with
    | nothing => rcases blank with blank | blank <;> simp [Pending.next?, Pending.begun, blank]
    | binding binding =>
        rcases blank with blank | blank <;> simp [Pending.next?, PendingBinding.next?, blank]
    | declaration declaration =>
        have mark : token.mark? = none := by rcases blank with blank | blank <;> simp [Token.mark?, blank]
        simp [Pending.next?, PendingDeclaration.next?, blank, mark]
  · obtain ⟨space, comment⟩ := not_or.mp blank
    simp only [read, space, comment, if_false, step]
    cases pending with
    | nothing => exact pending_neutral rfl
    | binding binding => exact pending_readBinding rfl binding blank
    | declaration declaration => exact pending_readDeclaration rfl declaration blank

end ScopeBuilder

end MuCompletion
