import MuCompletion.Proofs.Scope.Moved

/-! # Heads of declarations

What stands between a declaring keyword and the brace that opens its scope is read without a look at
the scopes around: the next token decides alone whether the declaration goes on and what is known of
it then. Around the declaration, only its name is declared.
-/

namespace MuCompletion

namespace PendingDeclaration

/-- The declaration that a token begins, without documentation. -/
def begin? (token : Token) : Option PendingDeclaration :=
  match token.kind with
  | .keyword word =>
    (word.declares.bind DeclarationKind.owns).map fun (scopeKind, symbolKind) =>
      ⟨token.span.start, scopeKind, symbolKind, none, none, [], .name false⟩
  | _ => none

/-- The declaration after one more token of its head, which is no brace; nothing if it ends there. -/
def next? (declaration : PendingDeclaration) (token : Token) : Option PendingDeclaration :=
  if token.kind = .whitespace ∨ token.kind = .comment then some declaration
  else
    match declaration.stage with
    | .name colonSeen =>
      match token.kind with
      | .identifier => some { declaration with name := some token, stage := .header }
      | .punctuation =>
        if token.text = ";" then none
        else if token.text = ":" && !colonSeen then
          some { declaration with stage := .name true }
        else if token.text = "(" then
          some { declaration with stage := .parameters .opened }
        else some declaration
      | _ => none
    | .header =>
      match token.kind with
      | .punctuation =>
        if token.text = ";" then none
        else if token.text = "(" then some { declaration with stage := .parameters .opened }
        else some declaration
      | .keyword word => if word.declares.isSome then none else some declaration
      | _ => some declaration
    | .parameters list => some (ScopeBuilder.readParameters declaration list token)

def documented (documentation : Option String) (declaration : PendingDeclaration) :
    PendingDeclaration :=
  { declaration with documentation := documentation }

/-- Before its name has been read, the declaration has none. -/
def Named (declaration : PendingDeclaration) : Prop :=
  ∀ colonSeen, declaration.stage = .name colonSeen → declaration.name = none

section

variable {declaration next : PendingDeclaration} {token : Token}

theorem frame_endSegment_documented (documentation : Option String) :
    (declaration.documented documentation).endSegment.frame = declaration.endSegment.frame := by
  cases stage : declaration.stage <;> simp [endSegment, documented, stage, frame]

theorem start_frame_endSegment : declaration.endSegment.frame.start = declaration.start := by
  cases stage : declaration.stage <;> simp [endSegment, stage, frame]

theorem kind_frame_endSegment :
    declaration.endSegment.frame.kind = declaration.scopeKind := by
  cases stage : declaration.stage <;> simp [endSegment, stage, frame]

theorem declared_frame_endSegment :
    declaration.endSegment.frame.declared = declaration.frame.declared := by
  cases stage : declaration.stage <;> simp [endSegment, stage, frame]

theorem readParameters_documented (documentation : Option String) (list : ParameterList) :
    ScopeBuilder.readParameters (declaration.documented documentation) list token =
      (ScopeBuilder.readParameters declaration list token).documented documentation := by
  have ended : (declaration.documented documentation).endSegment =
      declaration.endSegment.documented documentation := by
    cases stage : declaration.stage <;> simp [endSegment, documented, stage]
  cases kind : token.kind with
  | identifier | builtin | punctuation =>
      simp only [ScopeBuilder.readParameters, kind, ended, apply_ite (documented documentation)]
      rfl
  | keyword | number | string | comment | whitespace => simp only [ScopeBuilder.readParameters, kind]

theorem next?_documented (documentation : Option String) :
    (declaration.documented documentation).next? token =
      (declaration.next? token).map (documented documentation) := by
  have reading := @readParameters_documented declaration token documentation
  by_cases blank : token.kind = .whitespace ∨ token.kind = .comment
  · simp only [next?, blank, if_true, Option.map_some]
  · simp only [next?, blank, if_false]
    cases stage : declaration.stage with
    | name colonSeen =>
        have same : (declaration.documented documentation).stage = .name colonSeen := stage
        cases token.kind <;> simp only [same, apply_ite (Option.map (documented documentation))] <;> rfl
    | header =>
        have same : (declaration.documented documentation).stage = .header := stage
        cases token.kind <;> simp only [same, apply_ite (Option.map (documented documentation))] <;> rfl
    | parameters list =>
        have same : (declaration.documented documentation).stage = .parameters list := stage
        simp only [same, reading, Option.map_some]

theorem begin?_shift (distance : Nat) :
    begin? (token.shift distance) = (begin? token).map (shift distance) := by
  cases kind : token.kind with
  | keyword word =>
      cases owned : word.declares.bind DeclarationKind.owns <;>
        simp [begin?, kind, owned, shift, DeclarationStage.shift]
  | builtin | identifier | number | string | comment | punctuation | whitespace =>
      simp [begin?, kind]

theorem next?_shift (distance : Nat) :
    (declaration.shift distance).next? (token.shift distance) =
      (declaration.next? token).map (shift distance) := by
  have reading := ScopeBuilder.shift_readParameters distance token declaration
  by_cases blank : token.kind = .whitespace ∨ token.kind = .comment
  · simp only [next?, Token.kind_shift, blank, if_true, Option.map_some]
  · simp only [next?, Token.kind_shift, blank, if_false]
    cases stage : declaration.stage with
    | name colonSeen =>
        have same := stage_shift distance stage
        cases token.kind <;> simp only [same, DeclarationStage.shift, apply_ite (Option.map (shift distance))] <;> rfl
    | header =>
        have same := stage_shift distance stage
        cases token.kind <;> simp only [same, DeclarationStage.shift, apply_ite (Option.map (shift distance))] <;> rfl
    | parameters list =>
        have same := stage_shift distance stage
        simp only [same, DeclarationStage.shift, reading, Option.map_some]

theorem same_next? (goesOn : declaration.next? token = some next) :
    next.start = declaration.start ∧ next.symbolKind = declaration.symbolKind ∧
      next.documentation = declaration.documentation ∧ next.scopeKind = declaration.scopeKind := by
  by_cases blank : token.kind = .whitespace ∨ token.kind = .comment
  · simp only [next?, blank, if_true, Option.some.injEq] at goesOn
    simp [goesOn]
  · simp only [next?, blank, if_false] at goesOn
    cases stage : declaration.stage with
    | name | header =>
        cases kind : token.kind <;> simp only [stage, kind, reduceCtorEq] at goesOn <;> grind
    | parameters list =>
        simp only [stage, Option.some.injEq, ScopeBuilder.readParameters, endSegment] at goesOn
        cases kind : token.kind <;> simp only [kind] at goesOn <;> grind

theorem begin?_eq_some (begun : begin? token = some declaration) :
    ∃ word scopeKind symbolKind, token.kind = .keyword word ∧
      word.declares.bind DeclarationKind.owns = some (scopeKind, symbolKind) ∧
      declaration = ⟨token.span.start, scopeKind, symbolKind, none, none, [], .name false⟩ := by
  cases kind : token.kind with
  | keyword word =>
      simp only [begin?, kind, Option.map_eq_some_iff] at begun
      obtain ⟨⟨scopeKind, symbolKind⟩, owned, same⟩ := begun
      exact ⟨word, scopeKind, symbolKind, rfl, owned, same.symm⟩
  | builtin | identifier | number | string | comment | punctuation | whitespace =>
      simp [begin?, kind] at begun

theorem named_begin? (begun : begin? token = some declaration) : declaration.Named := by
  obtain ⟨word, scopeKind, symbolKind, -, -, rfl⟩ := begin?_eq_some begun
  exact fun _ _ => rfl

theorem named_next? (named : declaration.Named) (goesOn : declaration.next? token = some next) :
    next.Named := by
  by_cases blank : token.kind = .whitespace ∨ token.kind = .comment
  · simp only [next?, blank, if_true, Option.some.injEq] at goesOn
    rwa [← goesOn]
  · simp only [next?, blank, if_false] at goesOn
    cases stage : declaration.stage with
    | name | header =>
        cases kind : token.kind <;> simp only [stage, kind, reduceCtorEq] at goesOn <;> grind [Named]
    | parameters list =>
        simp only [stage, Option.some.injEq, ScopeBuilder.readParameters, endSegment] at goesOn
        cases kind : token.kind <;> simp only [kind] at goesOn <;> grind [Named]

end

end PendingDeclaration

/-- The token is a keyword whose declaration owns a scope of the kind. -/
def Token.Heads (token : Token) (kind : ScopeKind) : Prop :=
  ∃ word symbolKind, token.kind = .keyword word ∧
    word.declares.bind DeclarationKind.owns = some (kind, symbolKind)

theorem Token.Heads.kind_ne {token : Token} {kind : ScopeKind} (heads : token.Heads kind) :
    kind ≠ .«module» ∧ kind ≠ .block := by
  obtain ⟨word, symbolKind, -, owned⟩ := heads
  obtain ⟨declared, -, owns⟩ := Option.bind_eq_some_iff.mp owned
  cases declared <;> simp only [DeclarationKind.owns, Option.some.injEq, Prod.mk.injEq,
    reduceCtorEq] at owns <;> simp [← owns.1]

theorem Token.heads_of_begin? {token : Token} {declaration : PendingDeclaration}
    (begun : PendingDeclaration.begin? token = some declaration) :
    token.Heads declaration.scopeKind ∧ declaration.start = token.span.start := by
  obtain ⟨word, scopeKind, symbolKind, kind, owned, rfl⟩ := PendingDeclaration.begin?_eq_some begun
  exact ⟨⟨word, symbolKind, kind, owned⟩, rfl⟩

/-- The scope with the declared name of a scope inside it, which begins at `start`. -/
def Frame.introduce (start : Nat) (documentation : Option String) (frame : Frame) :
    Option Declared → Frame
  | none => frame
  | some name =>
    frame.declare name.name name.kind
      ⟨start + name.offset, start + name.offset + name.length⟩ documentation

namespace ScopeBuilder

open PendingDeclaration

/-- The builder that has read the head of a declaration after `base`. -/
def heading (base : ScopeBuilder) (declaration : PendingDeclaration) (comments : List String) :
    ScopeBuilder :=
  { base with
    frame := base.frame.introduce declaration.start declaration.documentation
      declaration.frame.declared
    pending := .declaration declaration
    comments := comments }

theorem read_begin {base : ScopeBuilder} {token : Token} {declaration : PendingDeclaration}
    (idle : base.pending = .nothing) (begun : begin? token = some declaration) :
    base.read token =
      base.heading (declaration.documented (documentation? base.comments)) [] := by
  obtain ⟨word, scopeKind, symbolKind, kind, owned, rfl⟩ := begin?_eq_some begun
  obtain ⟨declared, declares, owns⟩ := Option.bind_eq_some_iff.mp owned
  simp [read, step, idle, neutral, kind, declares, owns, awaitDeclaration, heading, documented,
    PendingDeclaration.frame, Frame.introduce]

theorem declare_eq_introduce {frame : Frame} {start : Nat} {name : Token}
    (after : start ≤ name.span.start) (kind : SymbolKind) (documentation : Option String) :
    frame.declare name.text kind name.span documentation =
      frame.introduce start documentation
        (some ⟨name.text, kind, name.span.start - start, name.span.length⟩) := by
  have place : start + (name.span.start - start) = name.span.start := by omega
  simp [Frame.introduce, Frame.declare, Span.length, place]

/-- A token that goes on with a declaration, and what reading it gave: it may be the name, and
changes nothing else around. -/
def GoesOn (builder : ScopeBuilder) (token : Token) (declaration next : PendingDeclaration)
    (after : ScopeBuilder) : Prop :=
  next.name = declaration.name ∧ after = builder.awaitDeclaration next ∨
    declaration.name = none ∧ next.name = some token ∧
      after = (builder.declare token declaration.symbolKind
        declaration.documentation).awaitDeclaration next

section GoesOn

variable {builder : ScopeBuilder} {token : Token} {declaration next : PendingDeclaration}

theorem readName_next {colonSeen : Bool} (unnamed : declaration.name = none)
    (stage : declaration.stage = .name colonSeen) (goesOn : declaration.next? token = some next)
    (blank : ¬(token.kind = .whitespace ∨ token.kind = .comment)) :
    GoesOn builder token declaration next (builder.readName declaration colonSeen token) := by
  simp only [next?, blank, if_false, stage] at goesOn
  cases kind : token.kind with
  | identifier =>
      simp only [kind, Option.some.injEq] at goesOn
      subst goesOn
      simp only [readName, kind]
      exact .inr ⟨unnamed, by simp⟩
  | punctuation =>
      simp only [kind] at goesOn
      simp only [readName, kind, GoesOn]
      grind
  | keyword | builtin | number | string | comment | whitespace => simp [kind] at goesOn

theorem readHeader_next (stage : declaration.stage = .header)
    (goesOn : declaration.next? token = some next)
    (blank : ¬(token.kind = .whitespace ∨ token.kind = .comment)) :
    GoesOn builder token declaration next (builder.readHeader declaration token) := by
  left
  simp only [next?, blank, if_false, stage] at goesOn
  cases kind : token.kind with
  | keyword | punctuation =>
      simp only [kind] at goesOn
      simp only [readHeader, kind]
      grind
  | builtin | identifier | number | string | comment | whitespace =>
      simp only [kind, Option.some.injEq] at goesOn
      simp only [readHeader, kind, goesOn, and_self]

theorem readDeclaration_next (named : declaration.Named)
    (blank : ¬(token.kind = .whitespace ∨ token.kind = .comment))
    (opening : token.mark? ≠ some "\x7b") (closing : token.mark? ≠ some "\x7d")
    (goesOn : declaration.next? token = some next) :
    GoesOn builder token declaration next (builder.readDeclaration declaration token) := by
  simp only [readDeclaration, opening, closing, if_false]
  cases stage : declaration.stage with
  | name colonSeen => exact readName_next (named colonSeen stage) stage goesOn blank
  | header => exact readHeader_next stage goesOn blank
  | parameters list =>
      simp only [next?, blank, if_false, stage, Option.some.injEq] at goesOn
      subst goesOn
      refine .inl ⟨?_, rfl⟩
      simp only [readParameters, endSegment]
      grind

end GoesOn

theorem read_heading {base : ScopeBuilder} {token : Token} {declaration next : PendingDeclaration}
    {comments : List String} (named : declaration.Named)
    (after : declaration.start ≤ token.span.start) (opening : token.mark? ≠ some "\x7b")
    (closing : token.mark? ≠ some "\x7d") (goesOn : declaration.next? token = some next) :
    ∃ comments', (base.heading declaration comments).read token = base.heading next comments' := by
  by_cases blank : token.kind = .whitespace
  · simp only [next?, blank, true_or, if_true, Option.some.injEq] at goesOn
    subst goesOn
    simp only [read, blank, if_true, readBlank]
    split
    · exact ⟨[], rfl⟩
    · exact ⟨comments, rfl⟩
  · by_cases comment : token.kind = .comment
    · simp only [next?, comment, or_true, if_true, Option.some.injEq] at goesOn
      subst goesOn
      exact ⟨comments ++ [Comment.body token.text], by simp [read, comment, readComment, heading]⟩
    · obtain ⟨start, kind, documentation, -⟩ := same_next? goesOn
      have stepped : (base.heading declaration comments).read token =
          { { base.heading declaration comments with pending := .nothing }.readDeclaration
              declaration token with comments := [] } := by
        simp [read, blank, comment, step, heading]
      refine ⟨[], ?_⟩
      rcases @readDeclaration_next { base.heading declaration comments with pending := .nothing }
        token declaration next named (by simp [blank, comment]) opening closing goesOn with
        ⟨name, reading⟩ | ⟨unnamed, name, reading⟩
      · have declared : next.frame.declared = declaration.frame.declared := by
          simp [PendingDeclaration.frame, start, kind, name]
        rw [stepped, reading]
        simp [heading, awaitDeclaration, start, documentation, declared]
      · have none : declaration.frame.declared = none := by simp [PendingDeclaration.frame, unnamed]
        have some : next.frame.declared = some ⟨token.text, declaration.symbolKind,
            token.span.start - declaration.start, token.span.length⟩ := by
          simp [PendingDeclaration.frame, start, kind, name]
        rw [stepped, reading]
        simp [heading, awaitDeclaration, declare, declare_eq_introduce after, start, documentation,
          none, some, Frame.introduce.eq_1]

/-- What a token that is no brace does to a builder in which `waiting` waits: it may be a name declared in
the innermost scope, and the declaration that waits afterwards has gone on or begun with it. -/
structure Quiet (waiting : Pending) (token : Token) (builder after : ScopeBuilder) : Prop where
  outer : after.outer = builder.outer
  reattached : after.reattached = builder.reattached
  frame : after.frame = builder.frame ∨ token.kind = .identifier ∧ ∃ kind documentation,
    after.frame = builder.frame.declare token.text kind token.span documentation
  pending : ∀ next, after.pending = .declaration next →
    (∃ declaration, waiting = .declaration declaration ∧ declaration.next? token = some next) ∨
      begin? token = some (next.documented none)

section Quiet

variable {builder : ScopeBuilder} {token : Token}

theorem quiet_dropped (waiting : Pending) (idle : builder.pending = .nothing) :
    Quiet waiting token builder builder :=
  ⟨rfl, rfl, .inl rfl, fun next waits => by simp [idle] at waits⟩

theorem neutral_quiet (waiting : Pending) (idle : builder.pending = .nothing)
    (opening : token.mark? ≠ some "\x7b") (closing : token.mark? ≠ some "\x7d") :
    Quiet waiting token builder (builder.neutral token) := by
  have still := @quiet_dropped builder token waiting idle
  cases kind : token.kind with
  | keyword word =>
      simp only [neutral, kind]
      split
      · exact still
      · next declared declares =>
          split
          · next scopeKind symbolKind owns =>
              refine ⟨rfl, rfl, .inl rfl, fun next waits => .inr ?_⟩
              simp only [awaitDeclaration, Pending.declaration.injEq] at waits
              simp [begin?, kind, declares, owns, ← waits, documented]
          · exact ⟨rfl, rfl, .inl rfl, fun next waits => by simp [awaitBinding] at waits⟩
  | builtin =>
      simp only [neutral, kind]
      exact ⟨rfl, rfl, .inl rfl, fun next waits => by simp [awaitBinding] at waits⟩
  | punctuation =>
      have other : token.text ≠ "\x7b" ∧ token.text ≠ "\x7d" := by
        simpa [Token.mark?, kind] using And.intro opening closing
      simpa only [neutral, kind, other, if_false] using still
  | identifier | number | string | comment | whitespace =>
      simpa only [neutral, kind] using still

theorem readBinding_quiet (binding : PendingBinding) (waiting : Pending)
    (idle : builder.pending = .nothing) (opening : token.mark? ≠ some "\x7b")
    (closing : token.mark? ≠ some "\x7d") :
    Quiet waiting token builder (builder.readBinding binding token) := by
  have other := neutral_quiet waiting idle opening closing
  have typed : ∀ binding, Quiet waiting token builder (builder.awaitBinding binding) := fun _ =>
    ⟨rfl, rfl, .inl rfl, fun next waits => by simp [awaitBinding] at waits⟩
  cases kind : token.kind with
  | identifier =>
      simp only [readBinding, kind]
      exact ⟨rfl, rfl, .inr ⟨kind, _, _, rfl⟩, fun next waits => by simp [declare, idle] at waits⟩
  | builtin =>
      simp only [readBinding, kind]
      exact typed _
  | number | punctuation =>
      simp only [readBinding, kind]
      split
      · exact typed _
      · exact other
  | keyword | string | comment | whitespace =>
      simp only [readBinding, kind]
      exact other

theorem quiet_next {declaration next : PendingDeclaration}
    (goesOn : declaration.next? token = some next) :
    Quiet (.declaration declaration) token builder (builder.awaitDeclaration next) := by
  refine ⟨rfl, rfl, .inl rfl, fun next' waits => .inl ⟨declaration, rfl, ?_⟩⟩
  simp only [awaitDeclaration, Pending.declaration.injEq] at waits
  rw [goesOn, waits]

theorem readName_quiet {declaration : PendingDeclaration} {colonSeen : Bool}
    (stage : declaration.stage = .name colonSeen) (idle : builder.pending = .nothing)
    (blank : ¬(token.kind = .whitespace ∨ token.kind = .comment))
    (opening : token.mark? ≠ some "\x7b") (closing : token.mark? ≠ some "\x7d") :
    Quiet (.declaration declaration) token builder
      (builder.readName declaration colonSeen token) := by
  have dropped := @quiet_dropped builder token (.declaration declaration) idle
  have goesOn := fun next => @quiet_next builder token declaration next
  simp only [next?, blank, if_false, stage] at goesOn
  cases kind : token.kind with
  | identifier =>
      simp only [kind] at goesOn
      simp only [readName, kind]
      exact ⟨rfl, rfl, .inr ⟨kind, _, _, rfl⟩, (goesOn _ rfl).pending⟩
  | punctuation =>
      simp only [kind] at goesOn
      simp only [readName, kind]
      grind
  | keyword | builtin | number | string | comment | whitespace =>
      simp only [readName, kind]
      exact neutral_quiet (.declaration declaration) idle opening closing

theorem readHeader_quiet {declaration : PendingDeclaration} (stage : declaration.stage = .header)
    (idle : builder.pending = .nothing)
    (blank : ¬(token.kind = .whitespace ∨ token.kind = .comment))
    (opening : token.mark? ≠ some "\x7b") (closing : token.mark? ≠ some "\x7d") :
    Quiet (.declaration declaration) token builder (builder.readHeader declaration token) := by
  have other := neutral_quiet (.declaration declaration) idle opening closing
  have dropped := @quiet_dropped builder token (.declaration declaration) idle
  have goesOn := fun next => @quiet_next builder token declaration next
  simp only [next?, blank, if_false, stage] at goesOn
  cases kind : token.kind with
  | keyword | punctuation =>
      simp only [kind] at goesOn
      simp only [readHeader, kind]
      grind
  | builtin | identifier | number | string | comment | whitespace =>
      simp only [kind] at goesOn
      simp only [readHeader, kind]
      exact goesOn _ rfl

theorem readDeclaration_quiet (declaration : PendingDeclaration) (idle : builder.pending = .nothing)
    (blank : ¬(token.kind = .whitespace ∨ token.kind = .comment))
    (opening : token.mark? ≠ some "\x7b") (closing : token.mark? ≠ some "\x7d") :
    Quiet (.declaration declaration) token builder (builder.readDeclaration declaration token) := by
  simp only [readDeclaration, opening, closing, if_false]
  cases stage : declaration.stage with
  | name colonSeen => exact readName_quiet stage idle blank opening closing
  | header => exact readHeader_quiet stage idle blank opening closing
  | parameters list =>
      refine quiet_next ?_
      simp only [next?, blank, if_false, stage]

theorem read_quiet (opening : token.mark? ≠ some "\x7b") (closing : token.mark? ≠ some "\x7d") :
    Quiet builder.pending token builder (builder.read token) := by
  obtain ⟨frame, outer, pending, comments, reattached⟩ := builder
  by_cases blank : token.kind = .whitespace ∨ token.kind = .comment
  · have passed : ∃ comments',
        read ⟨frame, outer, pending, comments, reattached⟩ token =
          ⟨frame, outer, pending, comments', reattached⟩ := by
      rcases blank with blank | comment
      · simp only [read, blank, if_true, readBlank]
        split
        · exact ⟨[], rfl⟩
        · exact ⟨comments, rfl⟩
      · exact ⟨_, by simp only [read, comment, reduceCtorEq, if_false, if_true, readComment]; rfl⟩
    obtain ⟨comments', passed⟩ := passed
    rw [passed]
    refine ⟨rfl, rfl, .inl rfl, fun next waits => .inl ⟨next, waits, ?_⟩⟩
    simp [next?, blank]
  · obtain ⟨space, comment⟩ := not_or.mp blank
    simp only [read, space, comment, if_false, step]
    cases pending with
    | nothing =>
        have quiet := @neutral_quiet ⟨frame, outer, .nothing, comments, reattached⟩ token
          .nothing rfl opening closing
        exact ⟨quiet.outer, quiet.reattached, quiet.frame, quiet.pending⟩
    | binding binding =>
        have quiet := @readBinding_quiet ⟨frame, outer, .nothing, comments, reattached⟩ token
          binding (.binding binding) rfl opening closing
        exact ⟨quiet.outer, quiet.reattached, quiet.frame, quiet.pending⟩
    | declaration declaration =>
        have quiet := @readDeclaration_quiet ⟨frame, outer, .nothing, comments, reattached⟩ token
          declaration rfl blank opening closing
        exact ⟨quiet.outer, quiet.reattached, quiet.frame, quiet.pending⟩

/-- What holds of a declaration once it has begun, and holds on with every token of its head, holds of
the declaration that waits. -/
theorem waiting_read {before after : PendingDeclaration → Prop}
    (waiting : ∀ declaration, builder.pending = .declaration declaration → before declaration)
    (begins : ∀ next, token.mark? ≠ some "\x7b" → begin? token = some (next.documented none) →
      after next)
    (goesOn : ∀ declaration next, token.mark? ≠ some "\x7b" → token.mark? ≠ some "\x7d" →
      before declaration → declaration.next? token = some next → after next) :
    ∀ next, (builder.read token).pending = .declaration next → after next := by
  intro next waits
  by_cases opening : token.mark? = some "\x7b"
  · simp [read_opening opening] at waits
  · by_cases closing : token.mark? = some "\x7d"
    · simp [read_closing closing] at waits
    · rcases (read_quiet opening closing).pending next waits with ⟨declaration, waited, same⟩ | begun
      · exact goesOn declaration next opening closing (waiting declaration waited) same
      · exact begins next opening begun

end Quiet

end ScopeBuilder

end MuCompletion
