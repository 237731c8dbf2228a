import Mathlib.Data.List.DropRight
import MuCompletion.Proofs.Scope.Frames
import MuCompletion.Proofs.Scope.Layout
import MuCompletion.Proofs.Scope.Waiting

/-! # Documentation of names

A name is documented by the comments before the keyword or type that opened its declaration or binding,
back to the first blank line or the first other token. Where they stand decides alone: whatever else was
read before, no comment is left over from it. Parameters have no documentation.
-/

namespace MuCompletion

open ScopeBuilder

/-! ## Comments behind which something is opened -/

/-- Whether a token parts no comment from what follows: a comment, or blanks without an empty line. -/
def Token.isBesideComment (token : Token) : Bool :=
  token.kind = .comment || token.kind = .whitespace && token.text.toList.count '\n' < 2

/-- The last comments, back to the first token that parts comments from what follows. -/
def commentsBehind (tokens : List Token) : List Token :=
  (tokens.rtakeWhile Token.isBesideComment).filter (·.kind = .comment)

/-- The documentation of what is opened behind the tokens. -/
def documentationBehind (tokens : List Token) : Option String :=
  documentation? ((commentsBehind tokens).map (Comment.body ·.text))

/-- What waits after the tokens. -/
def Pending.after (tokens : List Token) : Pending :=
  (tokens.foldl read .initial).pending

/-- What waits after the tokens was opened by `opener`, which was read behind `earlier` when nothing
waited any more. -/
inductive OpenedBehind (earlier : List Token) (opener : Token) : List Token → Prop where
  | opens (free : (Pending.after earlier).next? opener = none) (opens : opener.opens = true) :
      OpenedBehind earlier opener (earlier ++ [opener])
  | goesOn {tokens : List Token} {token : Token} (opened : OpenedBehind earlier opener tokens)
      (belongs : ((Pending.after tokens).next? token).isSome) :
      OpenedBehind earlier opener (tokens ++ [token])

/-- The names of parameters have no documentation. Each other name is declared by what waits for it, and
documented by the comments behind which that was opened; there is one place where it was. -/
structure Documented (tokens before : List Token) (name : Token) (kind : SymbolKind)
    (documentation : Option String) : Prop where
  listed : ∃ after, tokens = before ++ name :: after
  parameter : (Pending.after before).readsParameters = true →
    kind = .«variable» ∧ documentation = none
  declared : (Pending.after before).readsParameters = false →
    (Pending.after before).names? name = some (kind, documentation) ∧ ∃ earlier opener,
      (∀ other token, OpenedBehind other token before ↔ other = earlier ∧ token = opener) ∧
        documentation = documentationBehind earlier

section

variable {tokens before earlier earlier' : List Token} {token opener opener' : Token}

theorem openedBehind_concat : OpenedBehind earlier opener (tokens ++ [token]) ↔
    (Pending.after tokens).next? token = none ∧ token.opens = true ∧ earlier = tokens ∧ opener = token ∨
      ((Pending.after tokens).next? token).isSome ∧ OpenedBehind earlier opener tokens := by
  constructor
  · generalize whole : tokens ++ [token] = all
    intro opened
    cases opened with
    | opens free opens =>
        obtain ⟨rfl, same⟩ := List.append_inj' whole rfl
        obtain rfl := List.singleton_inj.mp same
        exact .inl ⟨free, opens, rfl, rfl⟩
    | goesOn opened belongs =>
        obtain ⟨rfl, same⟩ := List.append_inj' whole rfl
        obtain rfl := List.singleton_inj.mp same
        exact .inr ⟨belongs, opened⟩
  · rintro (⟨free, opens, rfl, rfl⟩ | ⟨belongs, opened⟩)
    · exact .opens free opens
    · exact .goesOn opened belongs

theorem OpenedBehind.unique (opened : OpenedBehind earlier opener tokens)
    (opened' : OpenedBehind earlier' opener' tokens) : earlier' = earlier ∧ opener' = opener := by
  induction opened with
  | opens free opens =>
      rcases openedBehind_concat.mp opened' with ⟨-, -, same⟩ | ⟨belongs, -⟩
      · exact same
      · simp [free] at belongs
  | goesOn opened belongs ih =>
      rcases openedBehind_concat.mp opened' with ⟨free, -⟩ | ⟨-, opened'⟩
      · simp [free] at belongs
      · exact ih opened'

end

/-! ## What a builder knows -/

/-- The name was read in a parameter list. -/
def ReadAsParameter (tokens : List Token) (name : Token) : Prop :=
  ∃ before after, tokens = before ++ name :: after ∧ (Pending.after before).readsParameters = true

/-- What the builder remembers is said by the tokens that it has read. -/
structure ScopeBuilder.Explained (tokens : List Token) (builder : ScopeBuilder) : Prop where
  comments : builder.comments = (commentsBehind tokens).map (Comment.body ·.text)
  opened : builder.pending ≠ .nothing → ∃ earlier opener, OpenedBehind earlier opener tokens ∧
    builder.pending.documentation = documentationBehind earlier
  parameters : ∀ declaration, builder.pending = .declaration declaration →
    ∀ name ∈ declaration.collected, ReadAsParameter tokens name

namespace ScopeBuilder

variable {builder : ScopeBuilder} {token : Token} {tokens : List Token}

theorem comments_read (same : builder.comments = (commentsBehind tokens).map (Comment.body ·.text)) :
    (builder.read token).comments =
      (commentsBehind (tokens ++ [token])).map (Comment.body ·.text) := by
  by_cases space : token.kind = .whitespace
  · simp only [read, space, if_true, readBlank]
    split
    · next wide =>
        have parts : ¬token.isBesideComment = true := by
          have few : ¬token.text.toList.count '\n' < 2 := by omega
          simp only [Token.isBesideComment, space, few, decide_false, Bool.and_false]
          simp
        simp [commentsBehind, List.rtakeWhile_concat_neg _ _ _ parts]
    · next narrow =>
        have beside : token.isBesideComment = true := by
          simp only [Token.isBesideComment, space]
          simpa using narrow
        simp [commentsBehind, List.rtakeWhile_concat_pos _ _ _ beside, List.filter_append, space, same]
  · by_cases comment : token.kind = .comment
    · have beside : token.isBesideComment = true := by simp [Token.isBesideComment, comment]
      simp [read, comment, readComment, commentsBehind, List.rtakeWhile_concat_pos _ _ _ beside,
        List.filter_append, same]
    · have parts : ¬token.isBesideComment = true := by simp [Token.isBesideComment, space, comment]
      simp [read, space, comment, step, commentsBehind, List.rtakeWhile_concat_neg _ _ _ parts]

namespace Explained

theorem initial : ScopeBuilder.initial.Explained [] where
  comments := rfl
  opened := fun waits => absurd rfl waits
  parameters := fun declaration waits => by simp [ScopeBuilder.initial] at waits

theorem opened_read (explained : (tokens.foldl read .initial).Explained tokens)
    (waits : ((tokens.foldl read .initial).read token).pending ≠ .nothing) :
    ∃ earlier opener, OpenedBehind earlier opener (tokens ++ [token]) ∧
      ((tokens.foldl read .initial).read token).pending.documentation =
        documentationBehind earlier := by
  rw [pending_read] at waits ⊢
  cases goesOn : (tokens.foldl read .initial).pending.next? token with
  | none =>
      -- The token ended what waited, so what waits now was opened by the token itself.
      rw [goesOn, Option.getD_none] at waits
      cases opens : token.opens with
      | false => exact absurd (Pending.begun_of_not_opens opens _) waits
      | true =>
          refine ⟨tokens, token, .opens goesOn opens, ?_⟩
          rw [Option.getD_none, (Pending.begun_of_opens opens _).2, explained.comments]
          rfl
  | some next =>
      have waited : (tokens.foldl read .initial).pending ≠ .nothing := by
        intro idle
        simp [idle, Pending.next?] at goesOn
      obtain ⟨earlier, opener, opened, same⟩ := explained.opened waited
      refine ⟨earlier, opener, opened.goesOn (by simp [Pending.after, goesOn]), ?_⟩
      rw [Option.getD_some, Pending.documentation_next? goesOn, same]

theorem parameters_read (explained : (tokens.foldl read .initial).Explained tokens) :
    ∀ declaration, ((tokens.foldl read .initial).read token).pending = .declaration declaration →
      ∀ name ∈ declaration.collected, ReadAsParameter (tokens ++ [token]) name := by
  have waiting : ∀ declaration, (tokens.foldl read .initial).pending = .declaration declaration →
      (tokens.foldl read .initial).pending = .declaration declaration ∧
        ∀ name ∈ declaration.collected, ReadAsParameter (tokens ++ [token]) name := by
    intro declaration waits
    refine ⟨waits, fun name listed => ?_⟩
    obtain ⟨before, after, split, reads⟩ := explained.parameters declaration waits name listed
    exact ⟨before, after ++ [token], by simp [split], reads⟩
  refine ScopeBuilder.waiting_read waiting ?_ ?_
  · intro next opening begun name member
    have empty : (next.documented none).collected = [] := PendingDeclaration.collected_begin? begun
    rw [show next.collected = [] from empty] at member
    cases member
  · rintro declaration next opening closing ⟨waits, known⟩ goesOn name member
    rcases PendingDeclaration.collected_next? goesOn with sub | ⟨-, ⟨list, stage⟩, sub⟩
    · exact known name (sub.subset member)
    · rcases List.mem_cons.mp (sub.subset member) with rfl | listed
      · exact ⟨tokens, [], rfl, by simp [Pending.after, Pending.readsParameters, waits, stage]⟩
      · exact known name listed

theorem run (tokens : List Token) : (tokens.foldl read .initial).Explained tokens := by
  induction tokens using List.reverseRecOn with
  | nil => exact initial
  | append_singleton tokens token ih =>
      rw [List.foldl_append]
      exact ⟨comments_read ih.comments, ih.opened_read, ih.parameters_read⟩

end Explained

end ScopeBuilder

/-- What waits was opened at one place, and is documented by the comments behind which that was. -/
theorem exists_openedBehind {tokens : List Token} (waits : Pending.after tokens ≠ .nothing) :
    ∃ earlier opener,
      (∀ other token, OpenedBehind other token tokens ↔ other = earlier ∧ token = opener) ∧
        (Pending.after tokens).documentation = documentationBehind earlier := by
  obtain ⟨earlier, opener, opened, same⟩ := (Explained.run tokens).opened waits
  refine ⟨earlier, opener, fun other token => ⟨opened.unique, ?_⟩, same⟩
  rintro ⟨rfl, rfl⟩
  exact opened

/-! ## Names of scopes -/

/-- The symbol, in a scope that begins at `start`, is a name of the text and documented as it. -/
def Symbol.Explained (tokens : List Token) (start : Nat) (symbol : Symbol) : Prop :=
  ∃ before name, name.text = symbol.name ∧ name.span = symbol.place start ∧
    Documented tokens before name symbol.kind symbol.documentation

theorem Pending.names?_spec {pending : Pending} {token : Token} {kind : SymbolKind}
    {documentation : Option String} (naming : pending.names? token = some (kind, documentation)) :
    pending ≠ .nothing ∧ pending.readsParameters = false ∧ pending.documentation = documentation := by
  have naming : pending.naming? = some (kind, documentation) := by
    simp only [names?] at naming
    split at naming
    · exact naming
    · cases naming
  cases pending with
  | nothing => cases naming
  | binding waiting =>
      simp only [naming?, Option.some.injEq, Prod.mk.injEq] at naming
      simp [readsParameters, Pending.documentation, naming.2]
  | declaration waiting =>
      cases stage : waiting.stage with
      | name =>
          simp only [naming?, stage, Option.some.injEq, Prod.mk.injEq] at naming
          simp [readsParameters, stage, Pending.documentation, naming.2]
      | header | parameters => simp [naming?, stage] at naming

section

variable {tokens before after : List Token} {token : Token}

theorem documented_of_names? (split : before ++ token :: after = tokens) {kind : SymbolKind}
    {documentation : Option String}
    (naming : (Pending.after before).names? token = some (kind, documentation)) :
    Documented tokens before token kind documentation := by
  obtain ⟨waits, declares, same⟩ := Pending.names?_spec naming
  refine ⟨⟨after, split.symm⟩, fun reads => ?_, fun _ => ⟨naming, ?_⟩⟩
  · rw [declares] at reads
    cases reads
  · rw [← same]
    exact exists_openedBehind waits

theorem explained_opened (split : before ++ token :: after = tokens)
    (tiles : Tiles 0 before token.span.start) :
    ∀ symbol ∈ ((before.foldl read .initial).opened token).symbols,
      symbol.Explained tokens ((before.foldl read .initial).opened token).start := by
  intro symbol member
  cases waits : (before.foldl read .initial).pending with
  | nothing | binding =>
      simp only [ScopeBuilder.opened, waits, Frame.opening] at member
      cases member
  | declaration declaration =>
      have surveyed := @Surveyed.run before token.span.start token.span.start tiles
      simp only [ScopeBuilder.opened, waits, PendingDeclaration.frame] at member ⊢
      obtain ⟨name, listed, rfl⟩ := List.mem_map.mp member
      have collected := PendingDeclaration.parameters_endSegment.subset listed
      obtain ⟨front, back, split', reads⟩ := (Explained.run before).parameters declaration waits name
        collected
      have inside := (surveyed.waiting declaration waits).noted.inside name collected
      have start : declaration.endSegment.start = declaration.start :=
        PendingDeclaration.start_frame_endSegment
      refine ⟨front, name, rfl, ?_, ⟨back ++ token :: after, ?_⟩, fun _ => ⟨rfl, rfl⟩, fun unread => ?_⟩
      · rw [start, Symbol.place_of_span inside.1 (Nat.le_of_lt inside.2.1)]
      · simp [← split, split']
      · rw [reads] at unread
        cases unread

theorem keeps_explained :
    Keeps tokens (fun _ frame => ∀ symbol ∈ frame.symbols, symbol.Explained tokens frame.start)
      (fun _ _ _ => True)
      (fun start scope => ∀ symbol ∈ scope.head.symbols, symbol.Explained tokens start) where
  first := by simp [Frame.opening]
  later := fun _ _ _ _ explained => explained
  notes := by
    intro before token after split tiles filled explained
    cases naming : (before.foldl read .initial).pending.names? token with
    | none => exact explained
    | some found =>
        intro symbol member
        rcases List.mem_cons.mp member with rfl | member
        · refine ⟨before, token, rfl, ?_, documented_of_names? split naming⟩
          have begins := (Grounded.run tiles).start_le_stop
          exact (Symbol.place_of_span begins (Nat.le_of_lt filled) _ _ _).symm
        · exact explained symbol member
  opens := fun before token after split tiles _ _ => ⟨explained_opened split tiles, trivial⟩
  attaches := fun _ _ _ _ _ _ explained _ => explained
  ends := fun _ _ _ _ explained symbol member => explained symbol (List.mem_reverse.mp member)

end

/-- Every symbol of a text is one of its names, and where the name was declared decides what documents
it. -/
theorem documented_ofTokens (text : String) (node : ScopeTree)
    (within : Within (ScopeTree.ofTokens (lex text)) node) :
    ∀ entry ∈ node.entry.symbols, ∃ before name,
      name.text = entry.1.name ∧ name.span = entry.2 ∧
        Documented (lex text) before name entry.1.kind entry.1.documentation := by
  intro entry member
  obtain ⟨symbol, listed, rfl⟩ := List.mem_map.mp member
  exact keeps_explained.within_ofTokens (lex_tiles text) within symbol listed

/-- The comment above a class documents it, the blank line above the comment parts it from another. -/
theorem documented_ofTokens_class :
    ∃ before name, name.text = "A" ∧
      Documented (lex "// x\n\n// y\nclass A(int b) \x7b\x7d") before name .«type» (some "y") := by
  have listed : (⟨"A", .«type», 17, 1, some "y"⟩, ⟨17, 18⟩) ∈ (ScopeTree.ofTokens
      (lex "// x\n\n// y\nclass A(int b) \x7b\x7d")).entry.symbols := by decide +kernel
  obtain ⟨before, name, named, -, documented⟩ := documented_ofTokens _ _ .refl _ listed
  exact ⟨before, name, named, documented⟩

end MuCompletion
