import MuCompletion.Proofs.Document
import MuCompletion.Proofs.Scope.Frames
import MuCompletion.Proofs.Scope.Layout

/-! # Names of scopes

A declaration names the scope that it opens and puts the name into the scope around, where it stands
once: the scope keeps a record of it, from which the name can be put there again. A block has no name.
This holds of the tree of every version of a document.
-/

namespace MuCompletion

open ScopeBuilder

/-- What the name of a scope of the kind is in the scope around; blocks and the module have none. -/
def ScopeKind.declaredAs? : ScopeKind → Option SymbolKind
  | «namespace» => some .«namespace»
  | «class» => some .«type»
  | function => some .function
  | «module» | block => none

/-- A scope of the kind is named as it is declared, or has no name. -/
structure Titled (kind : ScopeKind) (name : Option String) (declared : Option Declared) : Prop where
  name : name = declared.map (·.name)
  kind : ∀ introduced ∈ declared, kind.declaredAs? = some introduced.kind

/-- Whether the symbol is the declared name of a scope that stands at `offset` beside it. -/
def Declared.isSymbol (offset : Nat) (declared : Declared) (symbol : Symbol) : Bool :=
  symbol.offset = offset + declared.offset && symbol.name = declared.name &&
    symbol.kind = declared.kind && symbol.length = declared.length

/-- The open scope has the declared name of a scope that stands at `offset` in it. -/
def Frame.Introduces (frame : Frame) (offset : Nat) (declared : Option Declared) : Prop :=
  ∀ name ∈ declared, ∃ symbol ∈ frame.symbols, name.isSymbol offset symbol = true

theorem Frame.Introduces.of_subset {frame frame' : Frame} {offset : Nat} {declared : Option Declared}
    (introduces : frame.Introduces offset declared) (more : frame.symbols ⊆ frame'.symbols) :
    frame'.Introduces offset declared := by
  intro name is
  obtain ⟨symbol, member, same⟩ := introduces name is
  exact ⟨symbol, more member, same⟩

namespace PendingDeclaration

variable {declaration next : PendingDeclaration} {token : Token}

theorem name_next? (goesOn : declaration.next? token = some next) :
    next.name = declaration.name ∨
      token.kind = .identifier ∧ (∃ colonSeen, declaration.stage = .name colonSeen) ∧
        next.name = some token := by
  by_cases blank : token.kind = .whitespace ∨ token.kind = .comment
  · simp only [next?, blank, if_true, Option.some.injEq] at goesOn
    exact .inl (by rw [goesOn])
  · simp only [next?, blank, if_false] at goesOn
    cases stage : declaration.stage with
    | name | header =>
        cases kind : token.kind <;> simp only [stage, kind, reduceCtorEq] at goesOn <;> grind
    | parameters list =>
        simp only [stage, Option.some.injEq, readParameters, endSegment] at goesOn
        cases kind : token.kind <;> simp only [kind] at goesOn <;> grind

theorem declaredAs?_begin? (begun : begin? token = some declaration) :
    declaration.scopeKind.declaredAs? = some declaration.symbolKind := by
  obtain ⟨word, scopeKind, symbolKind, -, owned, rfl⟩ := begin?_eq_some begun
  obtain ⟨declared, -, owns⟩ := Option.bind_eq_some_iff.mp owned
  cases declared <;> simp only [DeclarationKind.owns, Option.some.injEq, Prod.mk.injEq,
    reduceCtorEq] at owns <;> simp [← owns.1, ← owns.2, ScopeKind.declaredAs?]

end PendingDeclaration

/-- The declaration that waits has put its name, as far as it was read, into the scope around. -/
def ScopeBuilder.Introduced (builder : ScopeBuilder) : Prop :=
  ∀ declaration, builder.pending = .declaration declaration →
    declaration.scopeKind.declaredAs? = some declaration.symbolKind ∧
      builder.frame.Introduces (declaration.start - builder.frame.start) declaration.frame.declared

namespace ScopeBuilder.Introduced

variable {builder : ScopeBuilder} {token : Token} {tokens : List Token} {stop : Nat}

theorem introduces_next {declaration next : PendingDeclaration}
    (waits : builder.pending = .declaration declaration)
    (grounded : Grounded tokens token.span.start builder) (opening : token.mark? ≠ some "\x7b")
    (closing : token.mark? ≠ some "\x7d") (goesOn : declaration.next? token = some next)
    (introduces : builder.frame.Introduces (declaration.start - builder.frame.start)
      declaration.frame.declared) :
    (builder.read token).frame.Introduces (next.start - (builder.read token).frame.start)
      next.frame.declared := by
  obtain ⟨start, symbolKind, -, -⟩ := PendingDeclaration.same_next? goesOn
  rw [(frame_read_quiet opening closing).1]
  rcases PendingDeclaration.name_next? goesOn with same | ⟨name, ⟨colonSeen, stage⟩, named⟩
  · have declared : next.frame.declared = declaration.frame.declared := by
      simp only [PendingDeclaration.frame, start, symbolKind, same]
    rw [declared, start]
    cases builder.pending.names? token with
    | none => exact introduces
    | some naming => exact introduces.of_subset (List.subset_cons_self _ _)
  · have ordered := grounded.ordered
    simp only [starts, waits, List.singleton_append, List.map_cons, List.pairwise_cons] at ordered
    have after : declaration.start ≤ token.span.start := ordered.1 _ List.mem_cons_self
    have around : builder.frame.start ≤ declaration.start := ordered.2.1 _ List.mem_cons_self
    have naming : builder.pending.names? token =
        some (declaration.symbolKind, declaration.documentation) := by
      simp only [Pending.names?, Pending.naming?, waits, name, if_true, stage]
    intro introduced is
    obtain rfl : introduced = ⟨token.text, declaration.symbolKind,
        token.span.start - declaration.start, token.span.length⟩ := by
      simpa [PendingDeclaration.frame, named, start, symbolKind, eq_comm] using is
    refine ⟨_, by rw [naming]; exact List.mem_cons_self, ?_⟩
    have place : token.span.start - builder.frame.start =
        next.start - builder.frame.start + (token.span.start - declaration.start) := by omega
    simpa [Declared.isSymbol, naming, Frame.note, Frame.declare] using place

theorem step (introduced : builder.Introduced) (grounded : Grounded tokens token.span.start builder) :
    (builder.read token).Introduced := by
  have waiting : ∀ declaration, builder.pending = .declaration declaration →
      builder.pending = .declaration declaration ∧
        declaration.scopeKind.declaredAs? = some declaration.symbolKind ∧
        builder.frame.Introduces (declaration.start - builder.frame.start)
          declaration.frame.declared :=
    fun declaration waits => ⟨waits, introduced declaration waits⟩
  refine ScopeBuilder.waiting_read waiting (fun next opening begun => ?_) ?_
  · have unnamed : next.frame.declared = none := by
      obtain ⟨word, scopeKind, symbolKind, -, -, same⟩ := PendingDeclaration.begin?_eq_some begun
      have name := congrArg PendingDeclaration.name same
      simp only [PendingDeclaration.documented] at name
      simp only [PendingDeclaration.frame, name, Option.map_none]
    have kinds := PendingDeclaration.declaredAs?_begin? begun
    refine ⟨kinds, ?_⟩
    rw [unnamed]
    intro name is
    cases is
  · rintro declaration next opening closing ⟨waits, kinds, introduces⟩ goesOn
    obtain ⟨-, symbolKind, -, scopeKind⟩ := PendingDeclaration.same_next? goesOn
    refine ⟨by rw [scopeKind, symbolKind, kinds], ?_⟩
    exact introduces_next waits grounded opening closing goesOn introduces

theorem run (tiles : Tiles 0 tokens stop) : (tokens.foldl read .initial).Introduced := by
  have both := @foldl_read_of_step
    (fun before stop builder => Grounded before stop builder ∧ builder.Introduced) tokens stop tiles
    ⟨.initial, fun declaration waits => by simp [ScopeBuilder.initial] at waits⟩ ?_
  · exact both.2
  · rintro before token after start builder - rfl filled ⟨grounded, introduced⟩
    exact ⟨grounded.step rfl filled, introduced.step grounded⟩

end ScopeBuilder.Introduced

/-! ## Open scopes -/

/-- An open scope is named as it is declared, and has the names of the scopes inside it. -/
structure Frame.Names (frame : Frame) : Prop where
  titled : Titled frame.kind frame.name frame.declared
  inside : ∀ child ∈ frame.children, frame.Introduces child.1 child.2.head.declared

/-- A scope is named as it is declared, and has the names of the scopes inside it. -/
def Scope.Names (scope : Scope) : Prop :=
  Titled scope.head.kind scope.head.name scope.head.declared ∧
    ∀ child ∈ scope.children, ∀ declared ∈ child.2.head.declared,
      ∃ symbol ∈ scope.head.symbols, declared.isSymbol child.1 symbol = true

theorem titled_opened {builder : ScopeBuilder} {token : Token} (introduced : builder.Introduced) :
    Titled (builder.opened token).kind (builder.opened token).name
      (builder.opened token).declared := by
  cases waits : builder.pending with
  | nothing | binding =>
      simp only [ScopeBuilder.opened, waits, Frame.opening]
      exact ⟨rfl, by simp⟩
  | declaration declaration =>
      obtain ⟨kinds, -⟩ := introduced declaration waits
      have same : declaration.endSegment.frame.name = declaration.frame.name := by
        cases stage : declaration.stage <;>
          simp [PendingDeclaration.endSegment, stage, PendingDeclaration.frame]
      simp only [ScopeBuilder.opened, waits, PendingDeclaration.kind_frame_endSegment,
        PendingDeclaration.declared_frame_endSegment, same]
      constructor
      · simp [PendingDeclaration.frame, Function.comp_def]
      · intro declared is
        obtain ⟨name, -, rfl⟩ := Option.map_eq_some_iff.mp is
        exact kinds

theorem introduces_opened {builder : ScopeBuilder} {token : Token} (introduced : builder.Introduced) :
    builder.frame.Introduces ((builder.opened token).start - builder.frame.start)
      (builder.opened token).declared := by
  cases waits : builder.pending with
  | nothing | binding =>
      simp only [ScopeBuilder.opened, waits, Frame.opening]
      intro name is
      cases is
  | declaration declaration =>
      simp only [ScopeBuilder.opened, waits, PendingDeclaration.start_frame_endSegment,
        PendingDeclaration.declared_frame_endSegment]
      exact (introduced declaration waits).2

theorem keeps_names {tokens : List Token} :
    Keeps tokens (fun _ frame => frame.Names)
      (fun outer start declared => outer.Introduces (start - outer.start) declared)
      (fun _ scope => scope.Names) where
  first := ⟨⟨rfl, by simp [Frame.opening]⟩, by simp [Frame.opening]⟩
  later := fun _ _ _ _ names => names
  notes := by
    intro before token after split tiles filled names
    cases (before.foldl read .initial).pending.names? token with
    | none => exact names
    | some naming =>
        refine ⟨names.titled, fun child member => ?_⟩
        exact (names.inside child member).of_subset (List.subset_cons_self _ _)
  opens := by
    intro before token after split tiles filled opening
    have introduced := Introduced.run tiles
    refine ⟨⟨titled_opened introduced, ?_⟩, introduces_opened introduced⟩
    simp [children_opened]
  attaches := by
    intro stop outer inner stop' closed after names introduces
    refine ⟨names.titled, fun child member => ?_⟩
    rcases List.mem_cons.mp member with rfl | member
    · exact introduces
    · exact names.inside child member
  ends := by
    intro stop frame stop' closed names
    refine ⟨names.titled, fun child member declared is => ?_⟩
    obtain ⟨symbol, listed, same⟩ := names.inside child (List.mem_reverse.mp member) declared is
    exact ⟨symbol, List.mem_reverse.mpr listed, same⟩

/-! ## Documents -/

/-- The document after edits, each of which may use what was read before. An edit that does not fit
leaves the document as it is. -/
def Document.applyAll (document : Document) (edits : List (Edit × Bool)) : Document :=
  edits.foldl (fun document (edit, incremental) =>
    match document.apply edit incremental with
    | .ok (next, _) => next
    | .error _ => document) document

/-- After all edits the document is the one that is read from its text. -/
theorem Document.exists_applyAll_eq_read (edits : List (Edit × Bool)) (version : Nat)
    (text : String) : ∃ version' text', (read version text).applyAll edits = read version' text' := by
  induction edits generalizing version text with
  | nil => exact ⟨version, text, rfl⟩
  | cons first edits ih =>
      obtain ⟨edit, incremental⟩ := first
      rw [applyAll, List.foldl_cons]
      cases fits : edit.fits text with
      | true =>
          obtain ⟨front, removed, back, split⟩ := Edit.fits_iff.mp fits
          obtain ⟨outcome, -, applied⟩ := apply_of_splits split version incremental
          simp only [applied]
          exact ih _ _
      | false =>
          have unfit : edit.fits (read version text).text = false := fits
          simp only [apply_of_not_fits _ unfit]
          exact ih _ _

/-- Of symbols that stand apart, one at most is the declared name of a scope. -/
theorem Declared.countP_isSymbol {declared : Declared} {offset : Nat} {symbols : List Symbol}
    {symbol : Symbol} (apart : symbols.Pairwise fun earlier later => earlier.offset < later.offset)
    (member : symbol ∈ symbols) (is : declared.isSymbol offset symbol = true) :
    symbols.countP (declared.isSymbol offset) = 1 := by
  obtain ⟨before, after, rfl⟩ := List.append_of_mem member
  obtain ⟨-, later, earlier⟩ := List.pairwise_append.mp apart
  have here : ∀ other, declared.isSymbol offset other = true → other.offset = symbol.offset := by
    intro other same
    simp only [isSymbol, Bool.and_eq_true, decide_eq_true_eq] at is same
    omega
  have none_before : before.countP (declared.isSymbol offset) = 0 := by
    refine List.countP_eq_zero.mpr fun other listed same => ?_
    have order := earlier other listed symbol List.mem_cons_self
    have place := here other same
    omega
  have none_after : after.countP (declared.isSymbol offset) = 0 := by
    refine List.countP_eq_zero.mpr fun other listed same => ?_
    have order := (List.pairwise_cons.mp later).1 other listed
    have place := here other same
    omega
  rw [List.countP_append, List.countP_cons_of_pos is, none_before, none_after]

theorem Extent.Names.ascending {tokens : List Token} {node : ScopeTree}
    (names : node.extent.Names tokens) :
    node.entry.head.symbols.Pairwise fun earlier later => earlier.offset < later.offset := by
  have filled := names.filled
  have apart := names.apart
  simp only [ScopeTree.extent, ScopeEntry.symbols, List.mem_map, forall_exists_index, and_imp,
    forall_apply_eq_imp_iff₂, List.pairwise_map] at filled apart
  refine List.Pairwise.imp_of_mem ?_ apart
  intro earlier later member _ before
  have some := (filled earlier member).2.1
  omega

/-- In every version of a document each scope is named as it is declared, and the name that a scope
declares stands once in the scope around it, where the scope has its record of it. -/
theorem names_applyAll (text : String) (edits : List (Edit × Bool)) (node : ScopeTree)
    (within : Within ((Document.ofText text).applyAll edits).tree node) :
    Titled node.entry.head.kind node.entry.head.name node.entry.head.declared ∧
      ∀ child ∈ node.scope.children, ∀ declared ∈ child.2.head.declared,
        node.entry.head.symbols.countP (declared.isSymbol child.1) = 1 := by
  obtain ⟨version, text', same⟩ := Document.exists_applyAll_eq_read edits 0 text
  rw [Document.ofText_eq, same] at within
  have ascending := (names_ofTokens text' within).ascending
  obtain ⟨titled, introduced⟩ := keeps_names.within_ofTokens (lex_tiles text') within
  refine ⟨titled, fun child member declared is => ?_⟩
  obtain ⟨symbol, listed, found⟩ := introduced child member declared is
  exact Declared.countP_isSymbol ascending listed found

/-- A class that is still open has its new name in the module. -/
theorem names_applyAll_renamed :
    ((Document.ofText "class A \x7b").applyAll [(⟨7, 7, "B"⟩, true)]).tree.scope.children.map
        (fun child => (child.1, child.2.head.name, child.2.head.declared)) =
      [(0, some "AB", some ⟨"AB", .«type», 6, 2⟩)] ∧
    ((Document.ofText "class A \x7b").applyAll [(⟨7, 7, "B"⟩, true)]).tree.entry.head.symbols.countP
        ((⟨"AB", .«type», 6, 2⟩ : Declared).isSymbol 0) = 1 := by
  have children : ((Document.ofText "class A \x7b").applyAll
      [(⟨7, 7, "B"⟩, true)]).tree.scope.children.map
        (fun child => (child.1, child.2.head.name, child.2.head.declared)) =
      [(0, some "AB", some ⟨"AB", .«type», 6, 2⟩)] := by decide +kernel
  refine ⟨children, ?_⟩
  have listed := children ▸ List.mem_singleton_self _
  obtain ⟨child, member, same⟩ := List.mem_map.mp listed
  obtain ⟨offset, -, declared⟩ := by simpa only [Prod.mk.injEq] using same
  rw [← offset]
  exact (names_applyAll "class A \x7b" [(⟨7, 7, "B"⟩, true)] _ .refl).2 child member _ declared

end MuCompletion
