import MuCompletion.Proofs.Scope.Header
import MuCompletion.Proofs.Scope.Extent

/-! # Where scopes and names stand

The scopes of a text lie inside each other and beside each other, and never overlap otherwise; one that
no brace closes goes on to the end of the text, with nothing behind it but that end. The names of a
scope stand apart inside it. While the builder reads, each open scope is laid out as if the text ended
there; the scope or the declaration inside it that is still open begins after all that is complete.
-/

namespace MuCompletion

open ScopeBuilder

/-! ## Open scopes -/

/-- The scope of a frame that ends at `stop`. -/
def Frame.extent (frame : Frame) (stop : Nat) (closed : Bool) : Extent :=
  ⟨⟨frame.start, stop⟩, frame.kind, closed,
    frame.symbols.reverse.map fun symbol => (symbol, symbol.place frame.start)⟩

/-- The complete scopes in a frame. -/
def Frame.extents (frame : Frame) : List Extent :=
  frame.children.reverse.map fun child => child.2.extent (frame.start + child.1)

/-- An open scope is laid out as if the text ended at `stop`. -/
structure Frame.Sound (tokens : List Token) (length stop : Nat) (frame : Frame) : Prop where
  encloses : (frame.extent stop false).Encloses length frame.extents
  names : ∃ names, Noted tokens frame.start stop names ∧
    frame.symbols.map (fun symbol => (symbol.name, symbol.place frame.start)) =
      names.map fun name => (name.text, name.span)
  laid : ∀ child ∈ frame.children, Laid tokens length (frame.start + child.1) child.2

/-- All scopes in the open scope are closed and end before `bound`, where another may begin. -/
structure Frame.Ready (tokens : List Token) (length bound stop : Nat) (frame : Frame) : Prop where
  sound : frame.Sound tokens length stop
  complete : ∀ inner ∈ frame.extents, inner.closed = true
  before : ∀ inner ∈ frame.extents, inner.span.stop ≤ bound

section

variable {tokens : List Token} {length bound bound' stop stop' : Nat} {frame : Frame}

theorem Frame.Sound.mono (sound : frame.Sound tokens length stop) (later : stop ≤ stop') :
    frame.Sound tokens length stop' where
  encloses := sound.encloses.widen rfl rfl later fun _ closed => by simp [extent] at closed
  names := by
    obtain ⟨names, noted, same⟩ := sound.names
    exact ⟨names, noted.mono later, same⟩
  laid := sound.laid

theorem Frame.Ready.mono (ready : frame.Ready tokens length bound stop) (wider : bound ≤ bound')
    (later : stop ≤ stop') : frame.Ready tokens length bound' stop' where
  sound := ready.sound.mono later
  complete := ready.complete
  before := fun inner member => Nat.le_trans (ready.before inner member) wider

/-- The scope of a frame is laid out when it ends, closed or with the text. -/
theorem Frame.Sound.finish (sound : frame.Sound tokens length stop) (closed : Bool)
    (after : frame.start ≤ stop') (later : stop ≤ stop')
    (closes : frame.kind ≠ .«module» → closed = true →
      stop < stop' ∧ ∀ inner ∈ frame.extents, inner.closed = true) :
    Laid tokens length frame.start (frame.finish stop' closed) := by
  have extent : (frame.finish stop' closed).extent frame.start = frame.extent stop' closed := by
    simp [Scope.extent, Frame.extent, Frame.finish, Scope.head, Nat.add_sub_cancel' after]
  refine Laid.node ?_ ?_ fun child complete => sound.laid child (List.mem_reverse.mp complete)
  · rw [extent]
    exact sound.encloses.widen rfl rfl later closes
  · obtain ⟨names, noted, same⟩ := sound.names
    rw [extent]
    refine (noted.mono later).extent_names ?_
    rw [List.map_reverse, ← same]
    simp [Frame.extent, Function.comp_def]

theorem Frame.extents_attach {start : Nat} (after : frame.start ≤ start) (scope : Scope) :
    (frame.attach start scope).extents = frame.extents ++ [scope.extent start] := by
  simp [Frame.extents, Frame.attach, Nat.add_sub_cancel' after]

theorem Frame.Ready.attach {start : Nat} {scope : Scope}
    (ready : frame.Ready tokens length bound stop) (after : frame.start ≤ start)
    (wider : bound ≤ start) (owned : scope.head.kind ≠ .«module») (filled : 0 < scope.head.length)
    (ends : start + scope.head.length ≤ stop) (framed : frame.kind ≠ .«module» → frame.start < start)
    (unclosed : scope.head.closed = false → start + scope.head.length = length)
    (laid : Laid tokens length start scope) : (frame.attach start scope).Sound tokens length stop where
  encloses := by
    have before : ∀ inner ∈ frame.extents, inner.span.stop ≤ start :=
      fun inner member => Nat.le_trans (ready.before inner member) wider
    rw [frame.extents_attach after]
    exact ready.sound.encloses.append ready.complete before rfl owned
      (show start < start + scope.head.length by omega) ends framed unclosed
  names := ready.sound.names
  laid := by
    intro child complete
    rcases List.mem_cons.mp complete with rfl | complete
    · have place : frame.start + (start - frame.start) = start := Nat.add_sub_cancel' after
      exact place.symm ▸ laid
    · exact ready.sound.laid child complete

theorem Frame.Ready.declare {token : Token} (ready : frame.Ready tokens length bound stop)
    (member : token ∈ tokens) (name : token.kind = .identifier) (here : token.span.start = stop)
    (after : frame.start ≤ stop) (filled : stop < token.span.stop) (kind : SymbolKind)
    (documentation : Option String) :
    (frame.declare token.text kind token.span documentation).Ready tokens length bound
      token.span.stop where
  sound.encloses := (ready.sound.mono (Nat.le_of_lt filled)).encloses.widen rfl rfl (Nat.le_refl _)
    fun _ closed => by simp [extent] at closed
  sound.names := by
    obtain ⟨names, noted, same⟩ := ready.sound.names
    refine ⟨token :: names, noted.cons member name here after filled, ?_⟩
    rw [← here] at after filled
    have place := Symbol.place_of_span after (Nat.le_of_lt filled) token.text kind documentation
    simp only [Frame.declare, List.map_cons, place]
    exact congrArg _ same
  sound.laid := ready.sound.laid
  complete := ready.complete
  before := ready.before

/-- Open scopes, innermost first, each before `bound` or the start of the one inside it. -/
inductive Nested (tokens : List Token) (length stop : Nat) : Nat → Frame → List Frame → Prop where
  | bottom {bound : Nat} {frame : Frame} (owned : frame.kind = .«module») (begins : frame.start = 0)
      (ready : frame.Ready tokens length bound stop) : Nested tokens length stop bound frame []
  | inner {bound : Nat} {frame around : Frame} {outer : List Frame} (owned : frame.kind ≠ .«module»)
      (begins : frame.start < bound) (ready : frame.Ready tokens length bound stop)
      (outside : Nested tokens length stop frame.start around outer) :
      Nested tokens length stop bound frame (around :: outer)

namespace Nested

variable {outer : List Frame}

theorem ready (nested : Nested tokens length stop bound frame outer) :
    frame.Ready tokens length bound stop := by
  cases nested <;> assumption

theorem start_le (nested : Nested tokens length stop bound frame outer) : frame.start ≤ bound := by
  cases nested with
  | bottom owned begins ready => omega
  | inner owned begins ready outside => omega

theorem start_lt (nested : Nested tokens length stop bound frame outer)
    (owned : frame.kind ≠ .«module») : frame.start < bound := by
  cases nested with
  | bottom owned' begins ready => exact absurd owned' owned
  | inner owned' begins ready outside => exact begins

theorem mono (nested : Nested tokens length stop bound frame outer) (wider : bound ≤ bound')
    (later : stop ≤ stop') : Nested tokens length stop' bound' frame outer := by
  induction nested generalizing bound' with
  | bottom owned begins ready => exact .bottom owned begins (ready.mono wider later)
  | inner owned begins ready outside ih =>
      exact .inner owned (Nat.lt_of_lt_of_le begins wider) (ready.mono wider later)
        (ih (Nat.le_refl _))

theorem change {frame' : Frame} (nested : Nested tokens length stop bound frame outer)
    (start : frame'.start = frame.start) (kind : frame'.kind = frame.kind) (wider : bound ≤ bound')
    (later : stop ≤ stop') (ready : frame'.Ready tokens length bound' stop') :
    Nested tokens length stop' bound' frame' outer := by
  cases nested with
  | bottom owned begins _ => exact .bottom (kind.trans owned) (start.trans begins) ready
  | inner owned begins _ outside =>
      refine .inner (kind ▸ owned) (by omega) ready ?_
      rw [start]
      exact outside.mono (Nat.le_refl _) later

theorem close {around : Frame} (nested : Nested tokens length stop bound frame (around :: outer))
    (within : bound ≤ stop) (filled : stop < stop') :
    Nested tokens length stop' stop' (around.attach frame.start (frame.finish stop' true)) outer := by
  cases nested with
  | inner owned begins ready outside =>
      have after : frame.start < stop' := by omega
      have owned' : (frame.finish stop' true).head.kind ≠ .«module» := owned
      have ends : frame.start + (frame.finish stop' true).head.length = stop' :=
        Nat.add_sub_cancel' (Nat.le_of_lt after)
      have laid := ready.sound.finish true (Nat.le_of_lt after) (Nat.le_of_lt filled)
        fun _ _ => ⟨filled, ready.complete⟩
      have outside' := outside.mono (Nat.le_refl _) (Nat.le_of_lt filled)
      have sound := outside'.ready.attach outside.start_le (Nat.le_refl _) owned' (by omega)
        (Nat.le_of_eq ends) outside.start_lt (fun closed => by simp [Frame.finish, Scope.head] at closed)
        laid
      refine outside'.change rfl rfl (Nat.le_of_lt after) (Nat.le_refl _) ⟨sound, ?_, ?_⟩
      · rw [around.extents_attach outside.start_le]
        simpa [or_imp, forall_and] using ⟨outside'.ready.complete, rfl⟩
      · exact sound.encloses.ends

theorem finish {frame' : Frame} (nested : Nested tokens length length bound frame outer)
    (within : bound ≤ length) (start : frame'.start = frame.start) (kind : frame'.kind = frame.kind)
    (sound : frame'.Sound tokens length length) :
    Laid tokens length 0 (ScopeBuilder.finish length frame' outer) ∧
      (ScopeBuilder.finish length frame' outer).head.kind = .«module» ∧
      (ScopeBuilder.finish length frame' outer).head.length = length := by
  induction nested generalizing frame' with
  | @bottom bound frame owned begins ready =>
      have begins' : frame'.start = 0 := start.trans begins
      have laid := sound.finish true (by omega) (Nat.le_refl length)
        fun owned' => absurd (kind.trans owned) owned'
      rw [begins'] at laid
      exact ⟨laid, kind.trans owned, by simp [ScopeBuilder.finish, Frame.finish, Scope.head, begins']⟩
  | @inner bound frame around outer owned begins ready outside ih =>
      have begins' : frame'.start < length := by omega
      have owned' : frame'.kind ≠ .«module» := kind ▸ owned
      have laid := sound.finish false (Nat.le_of_lt begins') (Nat.le_refl length)
        fun _ closed => by simp at closed
      have ends : (frame'.finish length false).head.length = length - frame'.start := rfl
      -- The scope around ends with the text too, so this one may be the last in it and not closed.
      refine ih (by omega) rfl rfl ?_
      exact outside.ready.attach (start ▸ outside.start_le) (Nat.le_of_eq start.symm) owned'
        (by omega) (by omega) (fun owned => start ▸ outside.start_lt owned) (fun _ => by omega) laid

end Nested

/-! ## Declarations that wait -/

namespace PendingDeclaration

/-- The names in the parameter lists so far, newest first; the last may not be that of a parameter. -/
def collected (declaration : PendingDeclaration) : List Token :=
  match declaration.stage with
  | .parameters list => list.last.toList ++ declaration.parameters
  | _ => declaration.parameters

variable {declaration next : PendingDeclaration} {token : Token}

theorem parameters_endSegment :
    declaration.endSegment.parameters.Sublist declaration.collected := by
  cases stage : declaration.stage with
  | name | header => simp [endSegment, collected, stage]
  | parameters list =>
      simp only [endSegment, collected, stage, ParameterList.parameter?]
      split
      · exact List.Sublist.refl _
      · exact List.sublist_append_right _ _

theorem collected_readParameters {list : ParameterList} (stage : declaration.stage = .parameters list) :
    (readParameters declaration list token).collected.Sublist declaration.collected ∨
      token.kind = .identifier ∧
        (readParameters declaration list token).collected.Sublist (token :: declaration.collected) := by
  have same (list' : ParameterList) (last : list'.last = list.last) :
      ({ declaration with stage := .parameters list' } : PendingDeclaration).collected.Sublist
        declaration.collected := by simp [collected, stage, last]
  have fewer (list' : ParameterList) (last : list'.last = none) :
      ({ declaration with stage := .parameters list' } : PendingDeclaration).collected.Sublist
        declaration.collected := by simp [collected, stage, last]
  have ended : declaration.endSegment.parameters.Sublist declaration.collected :=
    parameters_endSegment
  cases kind : token.kind with
  | punctuation =>
      left
      simp only [readParameters, kind]
      split
      · exact same _ rfl
      · split
        · split
          · exact same _ rfl
          · exact ended
        · split
          · simpa [collected, endSegment, stage, ParameterList.nextSegment] using ended
          · split
            · exact same _ rfl
            · exact .refl _
  | identifier =>
      simp only [readParameters, kind]
      split
      · refine .inr ⟨trivial, ?_⟩
        simp only [collected, stage, Option.toList_some, List.singleton_append]
        exact (List.sublist_append_right _ _).cons_cons _
      · exact .inl (.refl _)
  | builtin =>
      simp only [readParameters, kind]
      split
      · exact .inl (fewer _ rfl)
      · exact .inl (.refl _)
  | keyword | number | string | comment | whitespace =>
      simp only [readParameters, kind]
      exact .inl (.refl _)

theorem collected_next? (goesOn : declaration.next? token = some next) :
    next.collected.Sublist declaration.collected ∨
      token.kind = .identifier ∧ (∃ list, declaration.stage = .parameters list) ∧
        next.collected.Sublist (token :: declaration.collected) := by
  by_cases blank : token.kind = .whitespace ∨ token.kind = .comment
  · simp only [next?, blank, if_true, Option.some.injEq] at goesOn
    rw [goesOn]
    exact .inl (.refl _)
  · simp only [next?, blank, if_false] at goesOn
    cases stage : declaration.stage with
    | name | header =>
        -- Only an open parameter list can add a name.
        have same : next.collected = declaration.collected := by
          cases kind : token.kind <;> simp only [stage, kind, reduceCtorEq] at goesOn <;>
            grind [collected, ParameterList.opened]
        exact .inl (same ▸ .refl _)
    | parameters list =>
        simp only [stage, Option.some.injEq] at goesOn
        rw [← goesOn]
        rcases collected_readParameters stage with sub | ⟨name, sub⟩
        · exact .inl sub
        · exact .inr ⟨name, ⟨list, rfl⟩, sub⟩

theorem collected_begin? (begun : begin? token = some declaration) : declaration.collected = [] := by
  obtain ⟨word, scopeKind, symbolKind, -, -, rfl⟩ := begin?_eq_some begun
  rfl

end PendingDeclaration

/-- What holds of a declaration whose head was read up to `stop`. -/
structure Waits (tokens : List Token) (stop : Nat) (declaration : PendingDeclaration) : Prop where
  begins : declaration.start < stop
  owned : declaration.scopeKind ≠ .«module»
  noted : Noted tokens declaration.start stop declaration.collected

/-- Where the next scope may begin: at the declaration that waits, or where the reading stands. -/
def ScopeBuilder.margin (builder : ScopeBuilder) (stop : Nat) : Nat :=
  match builder.pending with
  | .declaration declaration => declaration.start
  | _ => stop

/-- The builder that has read the tokens up to `stop`. -/
structure Surveyed (tokens : List Token) (length stop : Nat) (builder : ScopeBuilder) : Prop where
  nested : Nested tokens length stop (builder.margin stop) builder.frame builder.outer
  waiting : ∀ declaration, builder.pending = .declaration declaration →
    Waits tokens stop declaration

namespace Surveyed

variable {builder : ScopeBuilder} {token : Token}

theorem margin_le (surveyed : Surveyed tokens length stop builder) : builder.margin stop ≤ stop := by
  unfold ScopeBuilder.margin
  split
  · next declaration waits => exact Nat.le_of_lt (surveyed.waiting declaration waits).begins
  · exact Nat.le_refl _

theorem margin_read (surveyed : Surveyed tokens length stop builder)
    (here : token.span.start = stop) (filled : stop < token.span.stop) :
    builder.margin stop ≤ (builder.read token).margin token.span.stop := by
  have within := surveyed.margin_le
  have later : ∀ next, (builder.read token).pending = .declaration next →
      builder.margin stop ≤ next.start := by
    have waiting : ∀ declaration, builder.pending = .declaration declaration →
        builder.margin stop ≤ declaration.start := by
      intro declaration waits
      simp only [ScopeBuilder.margin, waits]
      exact Nat.le_refl _
    refine ScopeBuilder.waiting_read waiting (fun next opening begun => ?_)
      (fun declaration next opening closing begins goesOn => ?_)
    · have begins : next.start = token.span.start := (Token.heads_of_begin? begun).2
      omega
    · rw [(PendingDeclaration.same_next? goesOn).1]
      exact begins
  cases waits : (builder.read token).pending with
  | nothing | binding =>
      simp only [ScopeBuilder.margin, waits] at within ⊢
      omega
  | declaration next =>
      simp only [ScopeBuilder.margin, waits] at later ⊢
      exact later next rfl

theorem waiting_read (surveyed : Surveyed tokens length stop builder) (member : token ∈ tokens)
    (here : token.span.start = stop) (filled : stop < token.span.stop) :
    ∀ next, (builder.read token).pending = .declaration next → Waits tokens token.span.stop next := by
  refine ScopeBuilder.waiting_read surveyed.waiting (fun next opening begun => ?_)
    (fun declaration next opening closing waits goesOn => ?_)
  · obtain ⟨heads, begins⟩ := Token.heads_of_begin? begun
    have none : (next.documented none).collected = [] := PendingDeclaration.collected_begin? begun
    have empty : next.collected = [] := none
    have begins' : next.start < token.span.stop := by
      have same : next.start = token.span.start := begins
      omega
    exact ⟨begins', heads.kind_ne.1, empty ▸ .nil⟩
  · obtain ⟨start, -, -, kind⟩ := PendingDeclaration.same_next? goesOn
    have begins : next.start < token.span.stop := by
      have begins := waits.begins
      omega
    refine ⟨begins, kind ▸ waits.owned, ?_⟩
    rw [start]
    rcases PendingDeclaration.collected_next? goesOn with sub | ⟨name, -, sub⟩
    · exact (waits.noted.mono (Nat.le_of_lt filled)).sublist sub
    · exact (waits.noted.cons member name here (Nat.le_of_lt waits.begins) filled).sublist sub

theorem start_opened (here : token.span.start = stop) :
    (builder.opened token).start = builder.margin stop := by
  cases waits : builder.pending <;>
    simp [ScopeBuilder.opened, ScopeBuilder.margin, waits, Frame.opening, here,
      PendingDeclaration.start_frame_endSegment]

theorem kind_opened (surveyed : Surveyed tokens length stop builder) :
    (builder.opened token).kind ≠ .«module» := by
  cases waits : builder.pending with
  | nothing | binding => simp [ScopeBuilder.opened, waits, Frame.opening]
  | declaration declaration =>
      simp only [ScopeBuilder.opened, waits, PendingDeclaration.kind_frame_endSegment]
      exact (surveyed.waiting declaration waits).owned

theorem ready_opened (surveyed : Surveyed tokens length stop builder) (later : stop ≤ stop') :
    (builder.opened token).Ready tokens length bound stop' := by
  have empty : (builder.opened token).extents = [] := by simp [Frame.extents, children_opened]
  refine ⟨⟨?_, ?_, ?_⟩, ?_, ?_⟩
  · rw [empty]
    exact .nil
  · cases waits : builder.pending with
    | nothing | binding =>
        refine ⟨[], .nil, ?_⟩
        simp [ScopeBuilder.opened, waits, Frame.opening]
    | declaration declaration =>
        have noted := ((surveyed.waiting declaration waits).noted.mono later).sublist
          PendingDeclaration.parameters_endSegment
        refine ⟨declaration.endSegment.parameters, ?_, ?_⟩
        · simp only [ScopeBuilder.opened, waits, PendingDeclaration.start_frame_endSegment]
          exact noted
        · simp only [ScopeBuilder.opened, waits, PendingDeclaration.frame, List.map_map]
          refine List.map_congr_left fun name listed => ?_
          have inside := noted.inside name listed
          have begins : declaration.endSegment.start = declaration.start :=
            PendingDeclaration.start_frame_endSegment
          simp only [Function.comp_apply, begins,
            Symbol.place_of_span inside.1 (Nat.le_of_lt inside.2.1)]
  · simp [children_opened]
  · simp [empty]
  · simp [empty]

theorem nested_quiet (surveyed : Surveyed tokens length stop builder) (member : token ∈ tokens)
    (here : token.span.start = stop) (filled : stop < token.span.stop)
    (opening : token.mark? ≠ some "\x7b") (closing : token.mark? ≠ some "\x7d") :
    Nested tokens length token.span.stop ((builder.read token).margin token.span.stop)
      (builder.read token).frame (builder.read token).outer := by
  have quiet := @read_quiet builder token opening closing
  have nested := surveyed.nested.mono (surveyed.margin_read here filled) (Nat.le_of_lt filled)
  rw [quiet.outer]
  rcases quiet.frame with same | ⟨name, kind, documentation, declared⟩
  · rw [same]
    exact nested
  · have begins := Nat.le_trans surveyed.nested.start_le surveyed.margin_le
    have ready := surveyed.nested.ready.declare member name here begins filled kind documentation
    rw [declared]
    exact nested.change rfl rfl (Nat.le_refl _) (Nat.le_refl _)
      (ready.mono (surveyed.margin_read here filled) (Nat.le_refl _))

theorem nested_closing (surveyed : Surveyed tokens length stop builder)
    (filled : stop < token.span.stop) :
    Nested tokens length token.span.stop token.span.stop (builder.close token.span.stop).frame
      (builder.close token.span.stop).outer := by
  have within := surveyed.margin_le
  have nested := surveyed.nested
  cases outer : builder.outer with
  | nil =>
      simp only [close, outer] at nested ⊢
      exact nested.mono (by omega) (Nat.le_of_lt filled)
  | cons around outer' =>
      simp only [close, outer] at nested ⊢
      exact nested.close within filled

theorem step (surveyed : Surveyed tokens length stop builder) (member : token ∈ tokens)
    (here : token.span.start = stop) (filled : stop < token.span.stop) :
    Surveyed tokens length token.span.stop (builder.read token) where
  waiting := surveyed.waiting_read member here filled
  nested := by
    by_cases opening : token.mark? = some "\x7b"
    · rw [read_opening opening]
      have begins := surveyed.margin_le
      refine .inner surveyed.kind_opened ?_ (surveyed.ready_opened (Nat.le_of_lt filled)) ?_
      · rw [start_opened here]
        exact Nat.lt_of_le_of_lt begins filled
      · rw [start_opened here]
        exact surveyed.nested.mono (Nat.le_refl _) (Nat.le_of_lt filled)
    · by_cases closing : token.mark? = some "\x7d"
      · rw [read_closing closing]
        exact surveyed.nested_closing filled
      · exact surveyed.nested_quiet member here filled opening closing

theorem initial : Surveyed tokens length 0 initial where
  nested := .bottom rfl rfl ⟨⟨.nil, ⟨[], .nil, rfl⟩, by simp [ScopeBuilder.initial, Frame.opening]⟩,
    by simp [ScopeBuilder.initial, Frame.opening, Frame.extents],
    by simp [ScopeBuilder.initial, Frame.opening, Frame.extents]⟩
  waiting := fun declaration waits => by simp [ScopeBuilder.initial] at waits

theorem run (tiles : Tiles 0 tokens stop) :
    Surveyed tokens length stop (tokens.foldl read .initial) := by
  refine @foldl_read_of_step (fun _ stop builder => Surveyed tokens length stop builder)
    tokens stop tiles initial ?_
  intro before token after start builder split here filled surveyed
  have member : token ∈ tokens := by simp [← split]
  exact surveyed.step member here filled

end Surveyed

end

/-- Around a scope that is not closed, no scope but the module is. -/
theorem unclosed_around {length : Nat} {tree outer node : ScopeTree} (inside : Within tree outer)
    (laid : ∀ node, Within tree node →
      node.extent.Encloses length (node.branches.map ScopeTree.extent))
    (within : Within outer node) (unclosed : node.entry.head.closed = false) :
    outer.entry.head.kind = .«module» ∨ outer.entry.head.closed = false := by
  induction within using Relation.ReflTransGen.head_induction_on with
  | refl => exact .inr unclosed
  | @head outer branch member within ih =>
      have encloses := laid outer inside
      have listed : branch.extent ∈ outer.branches.map ScopeTree.extent := List.mem_map_of_mem member
      rcases ih (inside.tail member) with owned | unclosed
      · exact absurd owned (encloses.owned _ listed)
      · exact (encloses.unclosed _ listed unclosed).2

theorem laid_ofTokens (text : String) :
    Laid (lex text) (Text.byteLength text.toList) 0 (.ofTokens (lex text)) ∧
      (Scope.ofTokens (lex text)).head.kind = .«module» ∧
      (Scope.ofTokens (lex text)).head.length = Text.byteLength text.toList := by
  have surveyed : Surveyed (lex text) (Text.byteLength text.toList) (Text.byteLength text.toList)
      ((lex text).foldl read .initial) := Surveyed.run (lex_tiles text)
  rw [Scope.ofTokens_lex]
  exact surveyed.nested.finish surveyed.margin_le rfl rfl surveyed.nested.ready.sound

section

variable (text : String)

theorem kind_ofTokens : (ScopeTree.ofTokens (lex text)).entry.head.kind = .«module» := by
  rw [(Placed.ofTokens (lex text)).head]
  exact (laid_ofTokens text).2.1

variable {node : ScopeTree} (within : Within (ScopeTree.ofTokens (lex text)) node)

include within

theorem encloses_ofTokens : node.extent.Encloses (Text.byteLength text.toList)
    (node.branches.map ScopeTree.extent) :=
  ((laid_ofTokens text).1 _ (Placed.ofTokens _) node within).1

theorem names_ofTokens : node.extent.Names (lex text) :=
  ((laid_ofTokens text).1 _ (Placed.ofTokens _) node within).2

end

/-- The module covers the text. Every scope lies in the scope around it behind that scope's start and
before its closing brace, scopes beside each other do not overlap, and one that no brace closes goes
on to the end of the text as the last in scopes that do too. The names of each scope are identifiers
that stand apart inside it. -/
theorem ofTokens_layout (text : String) :
    (ScopeTree.ofTokens (lex text)).extent.span = ⟨0, Text.byteLength text.toList⟩ ∧
      (ScopeTree.ofTokens (lex text)).entry.head.kind = .«module» ∧
      ∀ node, Within (ScopeTree.ofTokens (lex text)) node →
        node.extent.Encloses (Text.byteLength text.toList) (node.branches.map ScopeTree.extent) ∧
        node.extent.Names (lex text) ∧
        (node.entry.head.closed = false → ∀ outer, Within (ScopeTree.ofTokens (lex text)) outer →
          Within outer node → outer.entry.head.kind = .«module» ∨ outer.entry.head.closed = false) := by
  refine ⟨?_, kind_ofTokens text, fun node within => ⟨encloses_ofTokens text within,
    names_ofTokens text within, fun unclosed outer inside around => ?_⟩⟩
  · rw [(Placed.ofTokens (lex text)).extent, Scope.extent, (laid_ofTokens text).2.2, Nat.zero_add]
  · exact unclosed_around inside (fun node within => encloses_ofTokens text within) around unclosed

end MuCompletion
